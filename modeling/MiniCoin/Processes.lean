import MiniCoin.ChainSafety
import MiniCoin.Commands
import MiniCoin.Tampering

/-!
# The process and its user

The main thread of a process goes through the menu, while other threads handle messages and
connections. The steps of the process are steps of its node, in which the user acts as was typed in,
command by command, whatever the network does in the meantime.
-/

namespace MiniCoin

open ByteStrings Runs

variable {ssl : OpenSSL}

/-- Where the main thread stands: at the test of `quit_flag`, at the prompt, in
`do_mine`, in `do_connect_peer`, or behind the loop. -/
inductive Place where
  | test
  | prompt
  | mining
  | connecting (host : Scanned 255) (port : UInt16)
  | stopped

/-- A running program: its node, the standard input that is left, the flag that
SIGINT sets, and where its main thread is. -/
structure Process (ssl : OpenSSL) where
  node : Node ssl
  input : List UInt8
  quitFlag : Bool
  place : Place

/-- What happens to a process: its main thread goes on, at a time and with the
descriptor of a connection if it has dialled one, another thread handles an
event, or SIGINT arrives. -/
inductive ProcessEvent where
  | main (now : Int64) (dialled : Option Nat)
  | receive (fd : Nat) (line : List UInt8)
  | accept (fd : Nat)
  | closed (fd : Nat)
  | interrupt

/-- `node_stop`, as far as it changes the node: every peer is marked. -/
def nodeStop (node : Node ssl) : Node ssl :=
  { node with peers := node.peers.map fun peer => { peer with active := false } }

/-- The next part of `do_mine`. -/
def Mining.next : Mining → Option Action
  | .idle => none
  | .tipRead _ => some .mineSelect
  | .selected _ => some .mineAdd
  | .added _ => some .mineBroadcast

namespace Process

/-- The end of `main`, with which all threads end. -/
def stop (process : Process ssl) : Process ssl :=
  { process with node := nodeStop process.node, place := .stopped }

/-- The node after an event, and where the main thread stands then. -/
def handle (process : Process ssl) (event : Event) (place : Node ssl → Place) :
    Option (Process ssl × List Packet) :=
  (nodeStep process.node event).map fun (node, packets) => ({ process with node := node, place := place node }, packets)

/-- `do_mine` returns when its last part is done. -/
def afterMining (node : Node ssl) : Place :=
  match node.mining with
  | .idle => .test
  | _ => .mining

/-- A command begins. Those that only print are over with this step. -/
def begin (process : Process ssl) (now : Int64) : Command → Option (Process ssl × List Packet)
  | .mine => process.handle (.action (.mineTip now)) fun _ => .mining
  | .send receiver amount fee => process.handle (.action (.send receiver amount fee)) fun _ => .test
  | .connect host port => some ({ process with place := .connecting host port }, [])
  | _ => some ({ process with place := .test }, [])

/-- The main thread takes a step. -/
def mainStep (process : Process ssl) (now : Int64) (dialled : Option Nat) : Option (Process ssl × List Packet) :=
  match process.place with
  | .test => some (if process.quitFlag then process.stop else { process with place := .prompt }, [])
  | .prompt =>
    match readCommand process.input with
    | none => some (process.stop, [])
    | some (command, rest) => ({ process with input := rest }).begin now command
  | .mining =>
    match process.node.mining.next with
    | none => none
    | some action => process.handle (.action action) afterMining
  | .connecting _ _ =>
    match dialled with
    | none => some ({ process with place := .test }, [])
    | some fd => process.handle (.connect fd) fun _ => .test
  | .stopped => none

/-- Another thread handles an event, until the process has ended. -/
def otherStep (process : Process ssl) (event : Event) : Option (Process ssl × List Packet) :=
  match process.place with
  | .stopped => none
  | place => process.handle event fun _ => place

/-- A step of the process and what it sends. SIGINT only sets the flag, which
the main thread reads at the top of its loop. -/
def step (process : Process ssl) : ProcessEvent → Option (Process ssl × List Packet)
  | .main now dialled => process.mainStep now dialled
  | .receive fd line => process.otherStep (.receive fd line)
  | .accept fd => process.otherStep (.accept fd)
  | .closed fd => process.otherStep (.closed fd)
  | .interrupt => some ({ process with quitFlag := true }, [])

/-- A step without what it sends. -/
def next (process : Process ssl) (event : ProcessEvent) : Option (Process ssl) :=
  (process.step event).map Prod.fst

end Process

/-! ## Runs of the process -/

namespace Process

/-- The events of the node in a step of the process. Stopping the node closes
its connections. -/
def does (process : Process ssl) : ProcessEvent → List Event
  | .main now dialled =>
    match process.place with
    | .test => if process.quitFlag then (activeFds process.node).map .closed else []
    | .prompt =>
      match readCommand process.input with
      | none => (activeFds process.node).map .closed
      | some (.mine, _) => [.action (.mineTip now)]
      | some (.send receiver amount fee, _) => [.action (.send receiver amount fee)]
      | some _ => []
    | .mining => (process.node.mining.next.map Event.action).toList
    | .connecting _ _ => (dialled.map Event.connect).toList
    | .stopped => []
  | .receive fd line => [.receive fd line]
  | .accept fd => [.accept fd]
  | .closed fd => [.closed fd]
  | .interrupt => []

/-- The command that is read in a step of the process. -/
def reads (process : Process ssl) : ProcessEvent → List Command
  | .main _ _ =>
    match process.place with
    | .prompt => ((readCommand process.input).map Prod.fst).toList
    | _ => []
  | _ => []

/-- A process that enters its main loop: nothing is being mined, and the chain
has its genesis block. -/
structure Ready (process : Process ssl) : Prop where
  place : process.place = .test
  quitFlag : process.quitFlag = false
  mining : process.node.mining = .idle
  chain : process.node.chain ≠ []

variable {process next : Process ssl} {event : ProcessEvent}

/-- The forms of a step of the main thread. A command that only prints takes one
step, and `do_mine` takes one for each of its parts. -/
inductive MainSteps (process : Process ssl) (now : Int64) (dialled : Option Nat) : Process ssl → Prop where
  | tests (place : process.place = .test) (flag : process.quitFlag = false) :
      MainSteps process now dialled { process with place := .prompt }
  | quits (place : process.place = .test) (flag : process.quitFlag = true) :
      MainSteps process now dialled process.stop
  | ends (place : process.place = .prompt) (read : readCommand process.input = none) :
      MainSteps process now dialled process.stop
  | mines {rest : List UInt8} {node : Node ssl} {packets : List Packet} (place : process.place = .prompt)
      (read : readCommand process.input = some (.mine, rest))
      (acted : act process.node (.mineTip now) = some (node, packets)) :
      MainSteps process now dialled { process with node := node, input := rest, place := .mining }
  | sends {receiver : Token} {amount fee : UInt64} {rest : List UInt8} {node : Node ssl} {packets : List Packet}
      (place : process.place = .prompt) (read : readCommand process.input = some (.send receiver amount fee, rest))
      (acted : act process.node (.send receiver amount fee) = some (node, packets)) :
      MainSteps process now dialled { process with node := node, input := rest, place := .test }
  | dials {host : Scanned 255} {port : UInt16} {rest : List UInt8} (place : process.place = .prompt)
      (read : readCommand process.input = some (.connect host port, rest)) :
      MainSteps process now dialled { process with input := rest, place := .connecting host port }
  | shows {command : Command} {rest : List UInt8} (place : process.place = .prompt)
      (read : readCommand process.input = some (command, rest)) (rests : process.does (.main now dialled) = [])
      (other : ∀ host port, command ≠ .connect host port) :
      MainSteps process now dialled { process with input := rest, place := .test }
  | goesOn {action : Action} {node : Node ssl} {packets : List Packet} (place : process.place = .mining)
      (part : process.node.mining.next = some action) (acted : act process.node action = some (node, packets)) :
      MainSteps process now dialled { process with node := node, place := afterMining node }
  | fails {host : Scanned 255} {port : UInt16} (place : process.place = .connecting host port) (refused : dialled = none) :
      MainSteps process now dialled { process with place := .test }
  | connects {host : Scanned 255} {port : UInt16} {fd : Nat} (place : process.place = .connecting host port)
      (connected : dialled = some fd) :
      MainSteps process now dialled { process with node := (nodeConnectPeer process.node fd).1, place := .test }

/-- An event that is handled changes the node as the network has it, and nothing
else here. -/
theorem handle_some {event : Event} {place : Node ssl → Place} {packets : List Packet}
    (handled : process.handle event place = some (next, packets)) :
    ∃ node, nodeStep process.node event = some (node, packets) ∧
      next = { process with node := node, place := place node } := by
  obtain ⟨⟨node, sent⟩, stepped, same⟩ := Option.map_eq_some_iff.mp handled
  obtain ⟨rfl, rfl⟩ := Prod.mk.inj same
  exact ⟨node, stepped, rfl⟩

/-- All cases of a step of the main thread, each with its guard, so that no
later proof unfolds the step. -/
theorem mainStep_steps {now : Int64} {dialled : Option Nat} {packets : List Packet}
    (stepped : process.mainStep now dialled = some (next, packets)) : MainSteps process now dialled next := by
  unfold mainStep at stepped
  split at stepped
  · next place =>
    obtain ⟨same, -⟩ := Prod.mk.inj (Option.some.inj stepped)
    rw [← same]
    split_ifs with flag
    · exact .quits place flag
    · exact .tests place (by simpa using flag)
  · next place =>
    cases read : readCommand process.input with
    | none =>
      simp only [read, Option.some.injEq, Prod.mk.injEq] at stepped
      obtain ⟨rfl, -⟩ := stepped
      exact .ends place read
    | some result =>
      obtain ⟨command, rest⟩ := result
      simp only [read] at stepped
      cases command with
      | mine =>
        simp only [begin] at stepped
        obtain ⟨node, acted, rfl⟩ := handle_some stepped
        exact .mines place read acted
      | send receiver amount fee =>
        simp only [begin] at stepped
        obtain ⟨node, acted, rfl⟩ := handle_some stepped
        exact .sends place read acted
      | connect host port =>
        obtain ⟨rfl, -⟩ := Prod.mk.inj (Option.some.inj stepped)
        exact .dials place read
      | chainPrint | walletInfo | networkStatus | mempool | unknown | abandoned =>
        obtain ⟨rfl, -⟩ := Prod.mk.inj (Option.some.inj stepped)
        exact .shows place read (by simp [does, place, read]) (by simp)
  · next place =>
    cases part : process.node.mining.next with
    | none => simp [part] at stepped
    | some action =>
      simp only [part] at stepped
      obtain ⟨node, acted, rfl⟩ := handle_some stepped
      exact .goesOn place part acted
  · next host port place =>
    cases dialled with
    | none =>
      obtain ⟨rfl, -⟩ := Prod.mk.inj (Option.some.inj stepped)
      exact .fails place rfl
    | some fd =>
      obtain ⟨node, connected, rfl⟩ := handle_some stepped
      obtain ⟨rfl, -⟩ := Prod.mk.inj (Option.some.inj connected)
      exact .connects place rfl
  · cases stepped

/-- The other threads leave the main thread where it is. -/
theorem otherStep_steps {event : Event} {packets : List Packet}
    (stepped : process.otherStep event = some (next, packets)) :
    process.place ≠ .stopped ∧ ∃ node, nodeStep process.node event = some (node, packets) ∧
      next = { process with node := node } := by
  unfold otherStep at stepped
  split at stepped
  · cases stepped
  · next ongoing =>
    obtain ⟨node, handled, rfl⟩ := handle_some stepped
    exact ⟨ongoing, node, handled, rfl⟩

/-! ### The node -/

/-- Connections that are closed one after the other. -/
theorem run_closings (node : Node ssl) (fds : List Nat) :
    run nodeNext node (fds.map .closed) = some { node with
      peers := node.peers.map fun peer => if peer.fd ∈ fds then { peer with active := false } else peer } := by
  induction fds generalizing node with
  | nil => simp
  | cons fd rest ih =>
    rw [List.map_cons, run]
    change run nodeNext (peerClosed node fd) _ = _
    rw [ih]
    simp only [peerClosed, List.map_map, Option.some.injEq, Node.mk.injEq, true_and, and_true]
    refine List.map_congr_left fun peer _ => ?_
    by_cases here : peer.fd = fd
    · simp [here]
    · simp [here]

/-- Stopping the node closes the active connections. -/
theorem run_nodeStop (node : Node ssl) :
    run nodeNext node ((activeFds node).map .closed) = some (nodeStop node) := by
  rw [run_closings, nodeStop]
  simp only [Option.some.injEq, Node.mk.injEq, true_and, and_true]
  refine List.map_congr_left fun peer member => ?_
  split_ifs with known
  · rfl
  · have inactive : peer.active = false := by
      by_contra active
      refine known (List.mem_map.mpr ⟨peer, List.mem_filter.mpr ⟨member, ?_⟩, rfl⟩)
      simpa using active
    rw [← inactive]

theorem run_single {node after : Node ssl} {event : Event} {packets : List Packet}
    (stepped : nodeStep node event = some (after, packets)) : run nodeNext node [event] = some after := by
  rw [run, nodeNext, stepped]
  rfl

/-- A step of the process is some steps of the node. -/
theorem run_does (stepped : process.next event = some next) :
    run nodeNext process.node (process.does event) = some next.node := by
  obtain ⟨⟨after, packets⟩, result, rfl⟩ := Option.map_eq_some_iff.mp stepped
  cases event with
  | main now dialled =>
    cases mainStep_steps result with
    | tests place flag => simp [does, place, flag]
    | quits place flag =>
      simp only [does, place, flag, if_true]
      exact run_nodeStop process.node
    | ends place read =>
      simp only [does, place, read]
      exact run_nodeStop process.node
    | mines place read acted =>
      simp only [does, place, read]
      exact run_single acted
    | sends place read acted =>
      simp only [does, place, read]
      exact run_single acted
    | dials place read => simp [does, place, read]
    | shows place read rests =>
      rw [rests]
      rfl
    | goesOn place part acted =>
      simp only [does, place, part, Option.map_some, Option.toList_some]
      exact run_single acted
    | fails place refused => simp [does, place, refused]
    | connects place connected =>
      simp only [does, place, connected, Option.map_some, Option.toList_some]
      rfl
  | receive fd line =>
    obtain ⟨-, node, handled, rfl⟩ := otherStep_steps result
    exact run_single handled
  | accept fd =>
    obtain ⟨-, node, handled, rfl⟩ := otherStep_steps result
    exact run_single handled
  | closed fd =>
    obtain ⟨-, node, handled, rfl⟩ := otherStep_steps result
    exact run_single handled
  | interrupt =>
    obtain ⟨rfl, -⟩ := Prod.mk.inj (Option.some.inj result)
    rfl

/-! ### The user -/

end Process

/-- The events that the main thread causes. -/
def Event.isUser : Event → Bool
  | .action _ | .connect _ => true
  | .receive _ _ | .accept _ | .closed _ => false

/-- The parts of `do_mine`. -/
def miningParts (now : Int64) : List Event :=
  [.action (.mineTip now), .action .mineSelect, .action .mineAdd, .action .mineBroadcast]

/-- The node mines a block that does not continue its chain, so that
`chain_add_block` refuses it. -/
def Refuses (node : Node ssl) : Prop :=
  ∃ block attempts mined, node.mining = .selected block ∧ blockMine ssl.sha256 block = some (attempts, mined) ∧
    chainAddBlock ssl.sha256 node.chain mined = none

/-- The events of a command that has been carried out, each with the node in
which it was taken. All parts of `do_mine` happen, or the first three of them if
the block is refused in the third. A peer that is dialled may not be reached. -/
def Command.Causes : Command → List (Event × Node ssl) → Prop
  | .mine, taken => ∃ now, taken.map Prod.fst = miningParts now ∨
      (taken.map Prod.fst = (miningParts now).take 3 ∧ ∃ add, taken.getLast? = some add ∧ Refuses add.2)
  | .send receiver amount fee, taken => taken.map Prod.fst = [.action (.send receiver amount fee)]
  | .connect _ _, taken => taken = [] ∨ ∃ fd, taken.map Prod.fst = [.connect fd]
  | .chainPrint, taken | .walletInfo, taken | .networkStatus, taken | .mempool, taken
  | .unknown, taken | .abandoned, taken => taken = []

/-- How many parts of `do_mine` have happened. -/
def Mining.parts : Mining → Nat
  | .idle => 0
  | .tipRead _ => 1
  | .selected _ => 2
  | .added _ => 3

namespace Process

variable {process next : Process ssl} {event : ProcessEvent}

/-- What the user does in a step of the process, each event with the node in
which it is taken. -/
def userDoes (process : Process ssl) (event : ProcessEvent) : List (Event × Node ssl) :=
  ((process.does event).filter Event.isUser).map (·, process.node)

/-- The command that is under way, and what it has done so far: `do_mine` as
many of its parts as the node says. Between two commands there is none. -/
inductive Underway (process : Process ssl) : List Command → List (Event × Node ssl) → Prop where
  | free (place : process.place = .test ∨ process.place = .prompt ∨ process.place = .stopped)
      (idle : process.node.mining = .idle) : Underway process [] []
  | mining {taken : List (Event × Node ssl)} (place : process.place = .mining) (busy : process.node.mining ≠ .idle)
      (now : Int64) (parts : taken.map Prod.fst = (miningParts now).take process.node.mining.parts) :
      Underway process [.mine] taken
  | connecting (host : Scanned 255) (port : UInt16) (place : process.place = .connecting host port)
      (idle : process.node.mining = .idle) : Underway process [.connect host port] []

/-- The commands that have been read, and what the user has done: what each
command causes, in their order, and what the one that is under way has done so
far. -/
def Carries (process : Process ssl) (commands : List Command) (taken : List (Event × Node ssl)) : Prop :=
  ∃ earlier groups current rest, List.Forall₂ Command.Causes earlier groups ∧ Underway process current rest ∧
    commands = earlier ++ current ∧ taken = groups.flatten ++ rest

theorem isUser_closings (fds : List Nat) : (fds.map Event.closed).filter Event.isUser = [] := by
  refine List.filter_eq_nil_iff.mpr fun event member => ?_
  obtain ⟨fd, -, rfl⟩ := List.mem_map.mp member
  simp [Event.isUser]

/-- What the other threads do leaves the mining as it is. -/
theorem other_mining {node after : Node ssl} {event : Event} {packets : List Packet} (other : event.isUser = false)
    (stepped : nodeStep node event = some (after, packets)) : after.mining = node.mining := by
  cases nodeStep_steps node after event packets stepped with
  | ignored => rfl
  | reacted read reacts =>
    cases reacts with
    | nothing | block | request | chain | ping => rfl
    | tx tx => exact onNewTx_mining node tx
  | acted => cases other
  | peers => rfl

theorem Underway.alike {current : List Command} {taken : List (Event × Node ssl)} {other : Process ssl}
    (underway : Underway process current taken) (same : other.place = process.place)
    (still : other.node.mining = process.node.mining) : Underway other current taken := by
  cases underway with
  | free place idle =>
    rw [← same] at place
    exact .free place (still.trans idle)
  | mining place busy now parts =>
    rw [← still] at busy parts
    exact .mining (same.trans place) busy now parts
  | connecting host port place idle => exact .connecting host port (same.trans place) (still.trans idle)

/-- The process is between two commands. -/
theorem Underway.settled {current : List Command} {taken : List (Event × Node ssl)}
    (underway : Underway process current taken) (place : process.place = .test ∨ process.place = .prompt) :
    process.node.mining = .idle ∧ current = [] ∧ taken = [] := by
  cases underway with
  | free _ idle => exact ⟨idle, rfl, rfl⟩
  | mining here => rcases place with there | there <;> rw [here] at there <;> cases there
  | connecting _ _ here => rcases place with there | there <;> rw [here] at there <;> cases there

/-- What a step adds belongs to the command that is under way or to the next
one. -/
theorem Carries.grows {commands newCommands : List Command} {taken newTaken : List (Event × Node ssl)}
    (carries : Carries process commands taken)
    (grows : ∀ current rest, Underway process current rest → ∃ finished groups later pending,
      List.Forall₂ Command.Causes finished groups ∧ Underway next later pending ∧ current ++ newCommands = finished ++ later ∧
        rest ++ newTaken = groups.flatten ++ pending) :
    Carries next (commands ++ newCommands) (taken ++ newTaken) := by
  obtain ⟨earlier, groups, current, rest, before, underway, rfl, rfl⟩ := carries
  obtain ⟨finished, last, later, pending, now, after, new, user⟩ := grows current rest underway
  refine ⟨earlier ++ finished, groups ++ last, later, pending, List.rel_append before now, after, ?_, ?_⟩
  · rw [List.append_assoc, new, List.append_assoc]
  · rw [List.append_assoc, user, List.flatten_append, List.append_assoc]

/-- A step between two commands that begins no other one. -/
theorem Carries.rests {commands : List Command} {taken : List (Event × Node ssl)}
    (carries : Carries process commands taken) (place : process.place = .test ∨ process.place = .prompt)
    (later : next.place = .test ∨ next.place = .prompt ∨ next.place = .stopped)
    (mining : next.node.mining = process.node.mining) (none : process.userDoes event = []) :
    Carries next (commands ++ []) (taken ++ process.userDoes event) := by
  refine carries.grows fun current rest underway => ?_
  obtain ⟨idle, rfl, rfl⟩ := underway.settled place
  exact ⟨[], [], [], [], .nil, .free later (mining.trans idle), rfl, by rw [none]; rfl⟩

/-- A command that is carried out in one step. -/
theorem Carries.whole {commands : List Command} {command : Command} {taken newTaken : List (Event × Node ssl)}
    (carries : Carries process commands taken) (place : process.place = .prompt) (later : next.place = .test)
    (mining : next.node.mining = process.node.mining) (causes : command.Causes newTaken) :
    Carries next (commands ++ [command]) (taken ++ newTaken) := by
  refine carries.grows fun current rest underway => ?_
  obtain ⟨idle, rfl, rfl⟩ := underway.settled (Or.inr place)
  exact ⟨[command], [newTaken], [], [], .cons causes .nil, .free (Or.inl later) (mining.trans idle), rfl, by simp⟩

/-- The next part of `do_mine`. -/
theorem carries_goesOn {commands : List Command} {taken : List (Event × Node ssl)} {action : Action} {node : Node ssl}
    {packets : List Packet} (carries : Carries process commands taken) (place : process.place = .mining)
    (part : process.node.mining.next = some action) (acts : Acts process.node action node packets) :
    Carries { process with node := node, place := afterMining node } (commands ++ [])
      (taken ++ [(.action action, process.node)]) := by
  refine carries.grows fun current rest underway => ?_
  cases underway with
  | free here => rcases here with there | there | there <;> rw [place] at there <;> cases there
  | connecting _ _ here => rw [place] at here; cases here
  | mining _ busy now parts =>
    have grown : (rest ++ [(Event.action action, process.node)]).map Prod.fst =
        (miningParts now).take process.node.mining.parts ++ [.action action] := by
      rw [List.map_append, parts]
      rfl
    have finished (same : node.mining = .idle) (causes : Command.mine.Causes (rest ++ [(.action action, process.node)])) :
        ∃ finished groups later pending, List.Forall₂ Command.Causes finished groups ∧
          Underway { process with node := node, place := afterMining node } later pending ∧
          [Command.mine] ++ [] = finished ++ later ∧
          rest ++ [(.action action, process.node)] = groups.flatten ++ pending := by
      refine ⟨[.mine], [rest ++ [(.action action, process.node)]], [], [], .cons causes .nil, ?_, rfl, by simp⟩
      exact .free (Or.inl (by simp [afterMining, same])) same
    have goes (same : node.mining ≠ .idle)
        (more : (miningParts now).take process.node.mining.parts ++ [.action action] =
          (miningParts now).take node.mining.parts) :
        ∃ finished groups later pending, List.Forall₂ Command.Causes finished groups ∧
          Underway { process with node := node, place := afterMining node } later pending ∧
          [Command.mine] ++ [] = finished ++ later ∧
          rest ++ [(.action action, process.node)] = groups.flatten ++ pending := by
      refine ⟨[], [], [.mine], _, .nil, .mining ?_ same now (grown.trans more), rfl, rfl⟩
      cases stage : node.mining with
      | idle => exact absurd stage same
      | tipRead | selected | added => simp [afterMining, stage]
    cases acts with
    | refused | sent | tip =>
      cases stage : process.node.mining <;> simp [stage, Mining.next] at part
    | selected read => exact goes (by simp) (by simp [read, Mining.parts, miningParts])
    | added filled => exact goes (by simp) (by simp [filled, Mining.parts, miningParts])
    | @abandoned block mined attempts filled found stale =>
      have three : _ = (miningParts now).take 3 := grown.trans (by simp [filled, Mining.parts, miningParts])
      have refuses : Refuses process.node := ⟨block, attempts, mined, filled, found, stale⟩
      exact finished rfl ⟨now, Or.inr ⟨three, _, List.getLast?_concat .., refuses⟩⟩
    | announced added =>
      have all : _ = miningParts now := grown.trans (by simp [added, Mining.parts, miningParts])
      exact finished rfl ⟨now, Or.inl all⟩

/-- A step of the main thread. -/
theorem carries_main {commands : List Command} {taken : List (Event × Node ssl)} {now : Int64} {dialled : Option Nat}
    (carries : Carries process commands taken) (steps : MainSteps process now dialled next) :
    Carries next (commands ++ process.reads (.main now dialled)) (taken ++ process.userDoes (.main now dialled)) := by
  cases steps with
  | tests place flag =>
    simp only [reads, place]
    exact carries.rests (Or.inl place) (Or.inr (Or.inl rfl)) rfl (by simp [userDoes, does, place, flag])
  | quits place flag =>
    simp only [reads, place]
    refine carries.rests (Or.inl place) (Or.inr (Or.inr rfl)) rfl ?_
    simp [userDoes, does, place, flag, isUser_closings]
  | ends place read =>
    simp only [reads, place, read]
    refine carries.rests (Or.inr place) (Or.inr (Or.inr rfl)) rfl ?_
    simp [userDoes, does, place, read, isUser_closings]
  | mines place read acted =>
    have tip : process.userDoes (.main now dialled) = [(.action (.mineTip now), process.node)] := by
      simp [userDoes, does, place, read, Event.isUser]
    simp only [reads, place, read, tip]
    refine carries.grows fun current rest underway => ?_
    obtain ⟨idle, rfl, rfl⟩ := underway.settled (Or.inr place)
    cases act_acts _ _ _ _ acted with
    | tip => exact ⟨[], [], [.mine], _, .nil, .mining rfl (by simp) now rfl, rfl, rfl⟩
  | @sends receiver amount fee rest node packets place read acted =>
    have sent : process.userDoes (.main now dialled) = [(.action (.send receiver amount fee), process.node)] := by
      simp [userDoes, does, place, read, Event.isUser]
    simp only [reads, place, read, sent]
    refine carries.whole place rfl ?_ rfl
    cases act_acts _ _ _ _ acted with
    | refused => rfl
    | sent => exact onNewTx_mining _ _
  | @dials host port rest place read =>
    have none : process.userDoes (.main now dialled) = [] := by simp [userDoes, does, place, read]
    simp only [reads, place, read, none]
    refine carries.grows fun current rest underway => ?_
    obtain ⟨idle, rfl, rfl⟩ := underway.settled (Or.inr place)
    exact ⟨[], [], [.connect host port], [], .nil, .connecting host port rfl idle, rfl, rfl⟩
  | @shows command rest place read rests other =>
    have none : process.userDoes (.main now dialled) = [] := by rw [userDoes, rests]; rfl
    have known : process.reads (.main now dialled) = [command] := by simp [reads, place, read]
    rw [known, none]
    refine carries.whole place rfl rfl ?_
    cases command with
    | mine => simp [does, place, read] at rests
    | send => simp [does, place, read] at rests
    | connect host port => exact absurd rfl (other host port)
    | chainPrint | walletInfo | networkStatus | mempool | unknown | abandoned => rfl
  | @goesOn action node packets place part acted =>
    have user : process.userDoes (.main now dialled) = [(.action action, process.node)] := by
      simp [userDoes, does, place, part, Event.isUser]
    simp only [reads, place, user]
    exact carries_goesOn carries place part (act_acts _ _ _ _ acted)
  | @fails host port place refused =>
    have none : process.userDoes (.main now dialled) = [] := by simp [userDoes, does, place, refused]
    simp only [reads, place, none]
    refine carries.grows fun current rest underway => ?_
    cases underway with
    | free here => rcases here with there | there | there <;> rw [place] at there <;> cases there
    | mining here => rw [place] at here; cases here
    | connecting host port here idle =>
      exact ⟨[.connect host port], [[]], [], [], .cons (Or.inl rfl) .nil, .free (Or.inl rfl) idle, rfl, rfl⟩
  | @connects host port fd place connected =>
    have user : process.userDoes (.main now dialled) = [(.connect fd, process.node)] := by
      simp [userDoes, does, place, connected, Event.isUser]
    have mining : (nodeConnectPeer process.node fd).1.mining = process.node.mining := by
      obtain ⟨⟨peers, same⟩, -⟩ := nodeConnectPeer_greets process.node fd
      rw [same]
    simp only [reads, place, user]
    refine carries.grows fun current rest underway => ?_
    cases underway with
    | free here => rcases here with there | there | there <;> rw [place] at there <;> cases there
    | mining here => rw [place] at here; cases here
    | connecting host port here idle =>
      exact ⟨[.connect host port], [[(.connect fd, process.node)]], [], [], .cons (Or.inr ⟨fd, rfl⟩) .nil,
        .free (Or.inl rfl) (mining.trans idle), rfl, rfl⟩

/-- The step lemma. -/
theorem carries_next {commands : List Command} {taken : List (Event × Node ssl)} (carries : Carries process commands taken)
    (stepped : process.next event = some next) :
    Carries next (commands ++ process.reads event) (taken ++ process.userDoes event) := by
  obtain ⟨⟨after, packets⟩, result, rfl⟩ := Option.map_eq_some_iff.mp stepped
  have others (event : Event) (other : event.isUser = false) (handled : process.otherStep event = some (after, packets)) :
      Carries after (commands ++ []) (taken ++ ([event].filter Event.isUser).map (·, process.node)) := by
    obtain ⟨-, node, acted, rfl⟩ := otherStep_steps handled
    refine carries.grows fun current rest underway => ?_
    exact ⟨[], [], current, rest, .nil, underway.alike rfl (other_mining other acted), by simp, by simp [other]⟩
  cases event with
  | main now dialled => exact carries_main carries (mainStep_steps result)
  | receive fd line => exact others (.receive fd line) rfl result
  | accept fd => exact others (.accept fd) rfl result
  | closed fd => exact others (.closed fd) rfl result
  | interrupt =>
    obtain ⟨rfl, -⟩ := Prod.mk.inj (Option.some.inj result)
    refine carries.grows fun current rest underway => ?_
    exact ⟨[], [], current, rest, .nil, underway.alike rfl rfl, by simp [reads], by simp [userDoes, does]⟩

/-- The commands that have been read are those that were typed first. After an
interrupt some may be left, otherwise the loop has read them all. -/
structure Follows (start : Process ssl) (commands : List Command) (process : Process ssl) : Prop where
  ongoing : process.place ≠ .stopped → script start.input = commands ++ script process.input
  ended : process.place = .stopped → commands <+: script start.input ∧
    (process.quitFlag = false → commands = script start.input)

/-- The step lemma of the reading. A step of another thread reads no command. -/
theorem follows_next {start : Process ssl} {commands : List Command} (follows : Follows start commands process)
    (stepped : process.next event = some next) : Follows start (commands ++ process.reads event) next := by
  obtain ⟨⟨after, packets⟩, result, rfl⟩ := Option.map_eq_some_iff.mp stepped
  have others (event : Event) (handled : process.otherStep event = some (after, packets)) :
      Follows start (commands ++ []) after := by
    obtain ⟨ongoing, node, -, rfl⟩ := otherStep_steps handled
    rw [List.append_nil]
    exact ⟨fun _ => follows.ongoing ongoing, fun place => absurd place ongoing⟩
  have goesOn {after : Process ssl} (place : process.place ≠ .stopped) (later : after.place ≠ .stopped)
      (same : script process.input = process.reads event ++ script after.input) :
      Follows start (commands ++ process.reads event) after := by
    refine ⟨fun _ => ?_, fun place => absurd place later⟩
    rw [follows.ongoing place, same, List.append_assoc]
  cases event with
  | main now dialled =>
    cases mainStep_steps result with
    | tests place flag => exact goesOn (by simp [place]) (by simp) (by simp [reads, place])
    | quits place flag =>
      refine ⟨fun later => absurd rfl later, fun _ => ⟨?_, fun off => ?_⟩⟩
      · rw [follows.ongoing (by simp [place])]
        simp [reads, place]
      · exact absurd (flag.symm.trans off) (by simp)
    | ends place read =>
      have all : script start.input = commands ++ process.reads (.main now dialled) := by
        rw [follows.ongoing (by simp [place]), script_none _ read]
        simp [reads, place, read]
      exact ⟨fun later => absurd rfl later, fun _ => ⟨by rw [all], fun _ => all.symm⟩⟩
    | mines place read | sends place read | dials place read | shows place read =>
      exact goesOn (by simp [place]) (by simp) (by rw [script_some _ _ _ read]; simp [reads, place, read])
    | goesOn place part acted =>
      refine goesOn (by simp [place]) ?_ (by simp [reads, place])
      simp only [afterMining]
      split <;> simp
    | fails place refused => exact goesOn (by simp [place]) (by simp) (by simp [reads, place])
    | connects place connected => exact goesOn (by simp [place]) (by simp) (by simp [reads, place])
  | receive fd line => exact others (.receive fd line) result
  | accept fd => exact others (.accept fd) result
  | closed fd => exact others (.closed fd) result
  | interrupt =>
    obtain ⟨rfl, -⟩ := Prod.mk.inj (Option.some.inj result)
    simp only [reads, List.append_nil]
    exact ⟨follows.ongoing, fun place => ⟨(follows.ended place).1, fun off => absurd off (by simp)⟩⟩

/-- How many commands are still read when SIGINT has arrived: one, if the prompt
has been reached. -/
def toRead : Place → Nat
  | .prompt => 1
  | .test | .mining | .connecting _ _ | .stopped => 0

/-- After SIGINT a step reads no more than what `toRead` still allows, so at
most one command is read. -/
theorem flagged_next (flag : process.quitFlag = true) (stepped : process.next event = some next) :
    next.quitFlag = true ∧ (process.reads event).length + toRead next.place ≤ toRead process.place := by
  obtain ⟨⟨after, packets⟩, result, rfl⟩ := Option.map_eq_some_iff.mp stepped
  have others (event : Event) (handled : process.otherStep event = some (after, packets)) :
      after.quitFlag = true ∧ 0 + toRead after.place ≤ toRead process.place := by
    obtain ⟨-, node, -, rfl⟩ := otherStep_steps handled
    exact ⟨flag, by simp⟩
  cases event with
  | main now dialled =>
    cases mainStep_steps result with
    | tests place off => exact absurd (flag.symm.trans off) (by simp)
    | quits place | ends place | mines place | sends place | dials place | shows place | fails place | connects place =>
      exact ⟨flag, by simp_all [reads, stop, toRead]⟩
    | goesOn place =>
      refine ⟨flag, ?_⟩
      simp only [reads, place, afterMining]
      split <;> simp [toRead]
  | receive fd line => exact others (.receive fd line) result
  | accept fd => exact others (.accept fd) result
  | closed fd => exact others (.closed fd) result
  | interrupt =>
    obtain ⟨rfl, -⟩ := Prod.mk.inj (Option.some.inj result)
    exact ⟨rfl, by simp [reads]⟩

theorem reads_le (process : Process ssl) (event : ProcessEvent) : (process.reads event).length ≤ toRead process.place := by
  cases event with
  | main now dialled =>
    cases place : process.place with
    | prompt => cases readCommand process.input <;> simp [reads, place, toRead]
    | test | mining | connecting | stopped => simp [reads, place]
  | receive | accept | closed | interrupt => exact Nat.zero_le _

/-- After SIGINT no more is read than the prompt waits for. -/
theorem reads_flagged (process : Process ssl) (flag : process.quitFlag = true) (events : List ProcessEvent) :
    (collect Process.next reads process events).length ≤ toRead process.place := by
  induction events generalizing process with
  | nil => exact Nat.zero_le _
  | cons event rest ih =>
    cases stepped : process.next event with
    | none =>
      rw [collect, stepped, List.append_nil]
      exact reads_le process event
    | some after =>
      obtain ⟨kept, fewer⟩ := flagged_next flag stepped
      have later := ih after kept
      rw [collect_cons Process.next reads process after event rest stepped, List.length_append]
      omega

/-! ### The end of the session -/

end Process

/-- Which events are steps of the main thread. -/
def ProcessEvent.isMain : ProcessEvent → Bool
  | .main _ _ => true
  | _ => false

/-- A chain never becomes empty, so `do_mine` always finds a tip. -/
theorem chain_nonempty_next (node after : Node ssl) (event : Event) (nonempty : node.chain ≠ [])
    (stepped : nodeNext node event = some after) : after.chain ≠ [] := by
  obtain ⟨packets, steps⟩ := nodeNext_steps node after event stepped
  cases steps with
  | ignored | peers => exact nonempty
  | reacted read reacts =>
    cases reacts with
    | nothing | request | ping => exact nonempty
    | tx tx => rwa [onNewTx_chain]
    | block accepted =>
      obtain ⟨-, rfl⟩ := extends_of_chainAddBlock _ _ _ _ accepted
      simp
    | chain accepted =>
      obtain ⟨longer, -, rfl⟩ := (chainReplace_iff _ _ _ _).mp accepted
      exact List.length_pos_iff.mp (Nat.zero_lt_of_lt longer)
  | acted acts =>
    cases acts with
    | refused | tip | selected | abandoned | announced => exact nonempty
    | sent => rwa [onNewTx_chain]
    | added filled found accepted =>
      obtain ⟨-, rfl⟩ := extends_of_chainAddBlock _ _ _ _ accepted
      simp

namespace Process

variable {process next : Process ssl} {event : ProcessEvent}

/-- How many steps the main thread may take until it looks for more input. -/
def stepsLeft (process : Process ssl) : Nat :=
  match process.place with
  | .test => 2
  | .prompt => 1
  | .mining => 6 - process.node.mining.parts
  | .connecting _ _ => 3
  | .stopped => 0

/-- The main thread uses up what it may do and what there is to read; nobody
else does. -/
theorem stepsLeft_next (stepped : process.next event = some next) :
    event.isMain.toNat + (5 * next.input.length + next.stepsLeft) ≤ 5 * process.input.length + process.stepsLeft := by
  obtain ⟨⟨after, packets⟩, result, rfl⟩ := Option.map_eq_some_iff.mp stepped
  have others (event : Event) (other : event.isUser = false) (handled : process.otherStep event = some (after, packets)) :
      0 + (5 * after.input.length + after.stepsLeft) ≤ 5 * process.input.length + process.stepsLeft := by
    obtain ⟨-, node, acted, rfl⟩ := otherStep_steps handled
    simp only [stepsLeft, other_mining other acted]
    omega
  cases event with
  | main now dialled =>
    simp only [ProcessEvent.isMain, Bool.toNat_true]
    cases mainStep_steps result with
    | tests place | quits place | ends place | fails place | connects place =>
      simp only [stepsLeft, stop, place]
      omega
    | sends place read | dials place read | shows place read =>
      have shorter := readCommand_length _ _ _ read
      simp only [stepsLeft, place]
      omega
    | mines place read acted =>
      have shorter := readCommand_length _ _ _ read
      cases act_acts _ _ _ _ acted with
      | tip =>
        simp only [stepsLeft, place, Mining.parts]
        omega
    | goesOn place part acted =>
      cases act_acts _ _ _ _ acted with
      | refused | sent | tip =>
        cases stage : process.node.mining <;> simp [stage, Mining.next] at part
      | selected stage | added stage | abandoned stage | announced stage =>
        simp only [stepsLeft, place, afterMining, stage, Mining.parts]
        omega
  | receive fd line => exact others (.receive fd line) rfl result
  | accept fd => exact others (.accept fd) rfl result
  | closed fd => exact others (.closed fd) rfl result
  | interrupt =>
    obtain ⟨rfl, -⟩ := Prod.mk.inj (Option.some.inj result)
    exact (Nat.zero_add _).le

/-- The run lemma of termination: each step of the main thread lowers a measure
that begins with five times the length of the input. -/
theorem mains_le (start reached : Process ssl) (events : List ProcessEvent)
    (ran : run Process.next start events = some reached) :
    events.countP ProcessEvent.isMain ≤ 5 * start.input.length + start.stepsLeft := by
  induction events generalizing start with
  | nil => exact Nat.zero_le _
  | cons event rest ih =>
    obtain ⟨next, stepped, later⟩ := (run_cons _ _ _ _ _).mp ran
    have paid := stepsLeft_next stepped
    have others := ih next later
    rw [List.countP_cons]
    cases here : event.isMain <;> simp [here] at paid ⊢ <;> omega

/-- The main thread can go on, or it looks for a nonce that does not exist. -/
theorem mainStep_enabled {commands : List Command} {taken : List (Event × Node ssl)}
    (underway : Underway process commands taken)
    (chain : process.node.chain ≠ []) (ongoing : process.place ≠ .stopped) (now : Int64) (dialled : Option Nat) :
    (process.mainStep now dialled).isSome = true ∨
      ∃ block, process.node.mining = .selected block ∧ blockMine ssl.sha256 block = none := by
  cases place : process.place with
  | test => exact Or.inl (by simp [mainStep, place])
  | prompt =>
    obtain ⟨idle, -, -⟩ := underway.settled (Or.inr place)
    left
    cases read : readCommand process.input with
    | none => simp [mainStep, place, read]
    | some result =>
      obtain ⟨command, rest⟩ := result
      cases command with
      | mine =>
        have tip : chainLastBlock process.node.chain = some (process.node.chain.getLast chain) :=
          List.getLast?_eq_some_getLast chain
        simp [mainStep, place, read, begin, handle, nodeStep, act, idle, mineTip, tip]
      | send => simp [mainStep, place, read, begin, handle, nodeStep, act, idle]
      | connect | chainPrint | walletInfo | networkStatus | mempool | unknown | abandoned =>
        simp [mainStep, place, read, begin]
  | mining =>
    cases stage : process.node.mining with
    | idle =>
      cases underway with
      | free here => rcases here with there | there | there <;> rw [place] at there <;> cases there
      | mining _ busy => exact absurd stage busy
      | connecting _ _ here => rw [place] at here; cases here
    | tipRead => exact Or.inl (by simp [mainStep, place, stage, Mining.next, handle, nodeStep, act, mineSelect])
    | selected block =>
      cases found : blockMine ssl.sha256 block with
      | none => exact Or.inr ⟨block, rfl, found⟩
      | some result =>
        left
        cases accepted : chainAddBlock ssl.sha256 process.node.chain result.2 <;>
          simp [mainStep, place, stage, Mining.next, handle, nodeStep, act, mineAdd, found, accepted]
    | added => exact Or.inl (by simp [mainStep, place, stage, Mining.next, handle, nodeStep, act, mineBroadcast])
  | connecting =>
    left
    cases dialled <;> simp [mainStep, place, handle, nodeStep]
  | stopped => exact absurd place ongoing

/-! ## Sessions -/

/-- Both invariants over a run: the events of the node are those that the
commands cause, and the commands are the first that were typed. -/
theorem carries_run (start reached : Process ssl) (events : List ProcessEvent) (ready : start.Ready)
    (ran : run Process.next start events = some reached) :
    Carries reached (collect Process.next reads start events) (collect Process.next userDoes start events) ∧
      Follows start (collect Process.next reads start events) reached := by
  refine run_past Process.next (fun _ _ => True)
    (fun past process => Carries process (collect Process.next reads start past) (collect Process.next userDoes start past) ∧
      Follows start (collect Process.next reads start past) process) start ⟨?_, ?_⟩ ?_ reached events
    (every_of_forall _ _ (fun _ _ => trivial) _ _) ran
  · exact ⟨[], [], [], [], .nil, .free (Or.inl ready.place) ready.mining, rfl, rfl⟩
  · exact ⟨fun _ => rfl, fun place => absurd (ready.place.symm.trans place) (by simp)⟩
  · rintro past process event next arrived ⟨carries, follows⟩ - stepped
    have single {Item : Type} (gives : Process ssl → ProcessEvent → List Item) :
        collect Process.next gives start (past ++ [event]) = collect Process.next gives start past ++ gives process event := by
      rw [collect_append Process.next gives start process past [event] arrived,
        collect_cons Process.next gives process next event [] stepped]
      simp [collect]
    rw [single, single]
    exact ⟨carries_next carries stepped, follows_next follows stepped⟩

/-- What the user does is among the events of the node. -/
theorem userDoes_events (process : Process ssl) (events : List ProcessEvent) :
    (collect Process.next userDoes process events).map Prod.fst =
      (collect Process.next does process events).filter Event.isUser := by
  induction events generalizing process with
  | nil => rfl
  | cons event rest ih =>
    have here : (process.userDoes event).map Prod.fst = (process.does event).filter Event.isUser := by
      rw [userDoes, List.map_map]
      exact List.map_id _
    cases stepped : process.next event with
    | none => simp [collect, stepped, here]
    | some after => simp [collect, stepped, here, ih]

end Process

open Process

/-- In every run of a process, the events of the other threads being anywhere
between the steps of the main thread: the node takes the steps of the node; the
user acts as the commands say that were read, in their order, all of them to
their end but the one that is under way; these are the first commands that were
typed, and all of them when the process has ended without SIGINT; and after
SIGINT one more command is read at most. -/
theorem session_follows (start reached : Process ssl) (events : List ProcessEvent) (ready : start.Ready)
    (ran : run Process.next start events = some reached) :
    run nodeNext start.node (collect Process.next does start events) = some reached.node ∧
      (Carries reached (collect Process.next reads start events) (collect Process.next userDoes start events) ∧
        (collect Process.next does start events).filter Event.isUser =
          (collect Process.next userDoes start events).map Prod.fst) ∧
      collect Process.next reads start events <+: script start.input ∧
      (reached.place = .stopped → reached.quitFlag = false →
        collect Process.next reads start events = script start.input) ∧
      ∀ early late middle, events = early ++ .interrupt :: late → run Process.next start early = some middle →
        (collect Process.next reads middle (.interrupt :: late)).length ≤ 1 := by
  obtain ⟨carries, follows⟩ := carries_run start reached events ready ran
  refine ⟨run_refines Process.next Process.node does nodeNext (fun _ _ _ => run_does) start reached events ran,
    ⟨carries, (userDoes_events start events).symm⟩, ?_, fun place off => (follows.ended place).2 off,
    fun early late middle same _ => ?_⟩
  · by_cases place : reached.place = .stopped
    · exact (follows.ended place).1
    · exact ⟨_, (follows.ongoing place).symm⟩
  · rw [collect_cons Process.next reads middle { middle with quitFlag := true } .interrupt late rfl]
    have few := reads_flagged { middle with quitFlag := true } rfl late
    have one : toRead middle.place ≤ 1 := by cases middle.place <;> simp [toRead]
    simpa [reads] using few.trans one

/-- A user mines twice, pays and leaves. The first block is refused, because
another one has arrived since the tip was read, so this mining has three
parts. -/
theorem session_follows_here : ∃ (start reached : Process stubSsl) (events : List ProcessEvent),
    run Process.next start events = some reached ∧ (collect Process.next userDoes start events).length = 8 ∧
      Carries reached (collect Process.next reads start events) (collect Process.next userDoes start events) ∧
      (collect Process.next reads start events).length = 3 ∧
      collect Process.next reads start events = script start.input := by
  let start : Process stubSsl := ⟨freshNode (stubWallet 1), ascii "1\n1 2 x 1 1\nq", false, .test⟩
  let events : List ProcessEvent := [.main 0 none, .main 201 none, .receive 5 (Message.newBlock firstBlock).line] ++
    (List.replicate 3 (.main 0 none) ++ List.replicate 8 (.main 288 none))
  have evaluated : (run Process.next start events).map (fun process =>
      (match process.place with | .stopped => true | _ => false, process.quitFlag)) = some (true, false) := by
    decide +kernel
  obtain ⟨reached, ran, facts⟩ := Option.map_eq_some_iff.mp evaluated
  obtain ⟨ended, flag⟩ := Prod.mk.inj facts
  have place : reached.place = .stopped := by
    cases place : reached.place <;> simp [place] at ended ⊢
  have ready : start.Ready := ⟨rfl, rfl, rfl, by simp [start, freshNode]⟩
  obtain ⟨-, ⟨carries, -⟩, -, all, -⟩ := session_follows start reached events ready ran
  exact ⟨start, reached, events, ran, by decide +kernel, carries, by decide +kernel, all place flag⟩

/-- The main thread never gets stuck, whatever is typed and whatever the other
threads do: it takes at most five steps for each byte of the input, and until it
has ended it can take its next step, unless it looks for a nonce that does not
exist. A step is taken whole: the sends in it return, and so do the waits for
locks, which other threads may hold while they send. -/
theorem session_ends (start reached : Process ssl) (events : List ProcessEvent) (ready : start.Ready)
    (ran : run Process.next start events = some reached) :
    events.countP ProcessEvent.isMain ≤ 5 * start.input.length + 2 ∧
      (reached.place ≠ .stopped → ∀ now dialled, (∃ next, reached.next (.main now dialled) = some next) ∨
        ∃ block, reached.node.mining = .selected block ∧ blockMine ssl.sha256 block = none) := by
  obtain ⟨⟨-, -, current, rest, -, underway, -, -⟩, -⟩ := carries_run start reached events ready ran
  have chain : reached.node.chain ≠ [] := by
    have nodes := run_refines Process.next Process.node does nodeNext (fun _ _ _ => run_does) start reached events ran
    exact run_invariant nodeNext (fun _ _ => True) (fun node => node.chain ≠ [])
      (fun node event after nonempty _ stepped => chain_nonempty_next node after event nonempty stepped)
      start.node reached.node _ ready.chain (every_of_forall _ _ (fun _ _ => trivial) _ _) nodes
  constructor
  · have few := mains_le start reached events ran
    rwa [stepsLeft, ready.place] at few
  · intro ongoing now dialled
    refine (mainStep_enabled underway chain ongoing now dialled).imp_left fun enabled => ?_
    obtain ⟨result, found⟩ := Option.isSome_iff_exists.mp enabled
    exact ⟨result.1, by simp [Process.next, Process.step, found]⟩

/-- A user mines and pays, and a block arrives while the first one is being
mined. The next step of the main thread is enabled all the while. -/
theorem session_ends_here : ∃ (start reached : Process stubSsl) (events : List ProcessEvent),
    run Process.next start events = some reached ∧ events.countP ProcessEvent.isMain = 3 ∧
      events.countP ProcessEvent.isMain ≤ 5 * start.input.length + 2 ∧
      ∀ now dialled, (∃ next, reached.next (.main now dialled) = some next) ∨
        ∃ block, reached.node.mining = .selected block ∧ blockMine stubSsl.sha256 block = none := by
  let start : Process stubSsl := ⟨freshNode (stubWallet 1), ascii "1\n2 x 1 1\nq", false, .test⟩
  let events : List ProcessEvent := [.main 0 none, .main 201 none, .receive 5 (Message.newBlock firstBlock).line,
    .main 0 none]
  have evaluated : (run Process.next start events).map (fun process =>
      match process.place with | .stopped => true | _ => false) = some false := by decide +kernel
  obtain ⟨reached, ran, running⟩ := Option.map_eq_some_iff.mp evaluated
  have ongoing : reached.place ≠ .stopped := by
    intro place
    simp [place] at running
  have ready : start.Ready := ⟨rfl, rfl, rfl, by simp [start, freshNode]⟩
  obtain ⟨few, enabled⟩ := session_ends start reached events ready ran
  exact ⟨start, reached, events, ran, by decide, few, enabled ongoing⟩

end MiniCoin
