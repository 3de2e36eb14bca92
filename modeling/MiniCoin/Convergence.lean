import MiniCoin.Forks
import MiniCoin.OrderedRelay
import MiniCoin.Spreading

/-!
# One miner at a time

Blocks are announced once and forwarded once, and a node that has missed a block does not ask for
it. This is enough if the chains do not part, that is, if a block is mined only by a node whose
chain is as long as any other: however many nodes mine, and although many blocks are under way at
the same time, the chains are beginnings of each other, and they are equal when nothing is under
way. The network takes the steps of `OrderedRelay`, where the items are the blocks of the longest
chain.

A received line is handled in one step, in which a block is appended and forwarded. In `net.c` the
chain's lock is free in between, and a second block that another thread appended and forwarded in
this gap would overtake the first one on the way to a third node, which refuses it. Runs with such
a gap are not among those below.
-/

namespace MiniCoin

open ByteStrings Runs OrderedRelay

variable {ι : Type} {ssl : OpenSSL} {α : Type}

/-! ## Runs without connections -/

/-- Users send to plain addresses, nodes mine, and lines are delivered. No
connection comes or goes. -/
def MinesAndRelays : NetEvent ι → Prop
  | .act _ (.send receiver _ _) => PlainText receiver.bytes
  | .act _ _ | .deliver _ _ => True
  | .connect _ _ _ _ | .accept _ _ | .closed _ _ => False

/-- A mined block that still fits the own chain is added where no chain is
longer. -/
def MinesOnLongest (net : Network ι ssl α) : NetEvent ι → Prop
  | .act i .mineAdd => ∀ filled last, (net.nodes i).mining = .selected filled →
    (net.nodes i).chain.getLast? = some last → filled.index = last.index + 1 →
      ∀ j, (net.nodes j).chain.length ≤ (net.nodes i).chain.length
  | _ => True

/-- Processes that have just started, with the connections of the graph and
nothing under way on them. -/
structure JustWired (graph : SimpleGraph ι) (fd : ι → ι → Nat) (net : Network ι ssl UInt8) : Prop where
  wired : Wired graph fd net
  chain : ∀ i, chainInit ssl.sha256 = some (net.nodes i).chain
  mempool : ∀ i, (net.nodes i).mempool = []
  mining : ∀ i, (net.nodes i).mining = .idle
  channel : ∀ socket, net.channel socket = []

/-- Nothing is under way, and no added block is still to be sent. Only in such
states can nodes be expected to agree. -/
structure AtRest (graph : SimpleGraph ι) (fd : ι → ι → Nat) (net : Network ι ssl UInt8) : Prop where
  channel : ∀ i j, graph.Adj i j → net.channel (i, fd i j) = []
  sent : ∀ i block, (net.nodes i).mining ≠ .added block

/-! ## The abstraction -/

/-- The blocks among some messages. -/
def blocksOf (waiting : List Message) : List Block :=
  waiting.filterMap fun message =>
    match message with
    | .newBlock block => some block
    | _ => none

/-- The blocks under way are those of the first messages, then those of the
others. -/
@[simp] theorem blocksOf_append (first second : List Message) :
    blocksOf (first ++ second) = blocksOf first ++ blocksOf second := List.filterMap_append ..

/-- How many blocks of its chain a node has sent: all of them, but for one that
it has just added. -/
def toldOf (node : Node ssl) : Nat :=
  match node.mining with
  | .added _ => node.chain.length - 1
  | _ => node.chain.length

open Classical in
/-- The positions of the blocks that the nodes have, have sent, and have under
way. -/
noncomputable def relayState (graph : SimpleGraph ι) (fd : ι → ι → Nat) (net : Network ι ssl Message) :
    OrderedRelay.State ι where
  has i := (net.nodes i).chain.length
  told i := toldOf (net.nodes i)
  queue i j := if graph.Adj i j then (blocksOf (net.channel (j, fd j i))).map fun block => block.index.toNat else []

/-- All chains are beginnings of the longest one, and its blocks are under way
in order. -/
structure Relaying (graph : SimpleGraph ι) (fd : ι → ι → Nat) (longest : Blockchain)
    (net : Network ι ssl Message) : Prop where
  tracked : Tracked net
  wired : Wired graph fd net
  top : ∃ i, (net.nodes i).chain = longest
  linked : longest.IsChain (Linked ssl.sha256)
  along : ∀ i, (net.nodes i).chain <+: longest
  added : ∀ i block, (net.nodes i).mining = .added block → (net.nodes i).chain.getLast? = some block
  kinds : ∀ socket, ∀ message ∈ net.channel socket,
    (∃ block, message = .newBlock block) ∨ ∃ tx, message = .newTx tx
  waiting : ∀ i j, graph.Adj i j → ∀ block ∈ blocksOf (net.channel (j, fd j i)),
    longest[block.index.toNat]? = some block
  ordered : Ordered graph (relayState graph fd net)

variable {graph : SimpleGraph ι} {fd : ι → ι → Nat} {longest : Blockchain} {net : Network ι ssl Message}

/-- A network as it is wired, with one chain at all nodes, satisfies the
invariant: the chain is the longest one, and nothing is under way. -/
theorem relaying_start [Nonempty ι] (start : Network ι ssl UInt8) (begins : JustWired graph fd start) :
    ∃ longest, Relaying graph fd longest start.quiet := by
  obtain ⟨some⟩ := ‹Nonempty ι›
  have contents (contents : Contents) (lawful : contents.Lawful ssl) : contents.InNetwork start.quiet := by
    refine ⟨fun i => ⟨lawful.started _ (begins.chain i), ?_, ?_⟩, by simp [Network.quiet]⟩
    · simp [Network.quiet, begins.mempool i]
    · rw [show start.quiet.nodes = start.nodes from rfl, begins.mining i]
      trivial
  have tracked : Tracked start.quiet :=
    ⟨⟨contents _ (lawful_plain ssl), by simp [Network.quiet]⟩, contents _ (lawful_supply ssl)⟩
  have same (i : ι) : (start.quiet.nodes i).chain = (start.quiet.nodes some).chain :=
    Option.some.inj ((begins.chain i).symm.trans (begins.chain some))
  have single : (start.quiet.nodes some).chain.length = 1 := by
    obtain ⟨genesis, -, first⟩ := Option.map_eq_some_iff.mp (begins.chain some)
    change (start.nodes some).chain.length = 1
    rw [← first]
    rfl
  have told (i : ι) : toldOf (start.quiet.nodes i) = 1 := by
    change toldOf (start.nodes i) = 1
    rw [toldOf, begins.mining i]
    exact (congrArg List.length (same i)).trans single
  have has (i : ι) : (start.quiet.nodes i).chain.length = 1 := (congrArg List.length (same i)).trans single
  refine ⟨_, tracked, begins.wired.congr (fun _ => rfl) rfl, ⟨some, rfl⟩, ?_, fun i => ?_, fun i block stage => ?_,
    by simp [Network.quiet], by simp [Network.quiet, blocksOf], ?_⟩
  · obtain ⟨genesis, -, first⟩ := Option.map_eq_some_iff.mp (begins.chain some)
    change (start.nodes some).chain.IsChain _
    rw [← first]
    exact List.isChain_singleton genesis
  · rw [same i]
  · rw [show start.quiet.nodes = start.nodes from rfl, begins.mining i] at stage
    cases stage
  · refine ⟨fun i => ?_, fun i unsent => ?_, fun i j adjacent => ?_, fun i j adjacent => ?_,
      fun i j adjacent item lacks late => ?_⟩
    · simp [relayState, told, has]
    · simp [relayState, told, has] at unsent
    · simp [relayState, Network.quiet, blocksOf]
    · simp [relayState, Network.quiet, blocksOf]
    · simp only [relayState, told, has] at lacks late
      omega

/-! ## Blocks of the longest chain -/

/-- A chain that begins another one has its blocks at their positions. -/
theorem getElem?_of_prefix {chain longer : Blockchain} (along : chain <+: longer) {position : Nat} {block : Block}
    (here : chain[position]? = some block) : longer[position]? = some block := by
  obtain ⟨rest, rfl⟩ := along
  rw [List.getElem?_append_left (List.getElem?_eq_some_iff.mp here).1]
  exact here

/-- The block behind a beginning of the longest chain fits there. -/
theorem extends_next (sha : Sha256) (longest chain : Blockchain) (block : Block) (honest : Honest sha longest)
    (linked : longest.IsChain (Linked sha)) (along : chain <+: longest) (nonempty : chain ≠ [])
    (next : longest[chain.length]? = some block) : Extends sha chain block := by
  obtain ⟨rest, rfl⟩ := along
  obtain ⟨others, rfl⟩ : ∃ others, rest = block :: others := by
    rw [List.getElem?_append_right (Nat.le_refl _), Nat.sub_self] at next
    exact List.head?_eq_some_iff.mp (by rwa [List.head?_eq_getElem?])
  have bounded := honest.bounded
  have positive := List.length_pos_of_ne_nil nonempty
  simp only [List.length_append, List.length_cons] at bounded
  obtain ⟨last, tip⟩ : ∃ last, chain.getLast? = some last := ⟨_, List.getLast?_eq_some_getLast nonempty⟩
  have size : maxBlocks = 10000 := rfl
  refine ⟨by omega, last, tip, ?_, ?_⟩
  · have position := honest.index chain.length block next
    have before := honest.index (chain.length - 1) last (by
      rw [List.getElem?_append_left (by omega), ← List.getLast?_eq_getElem?]
      exact tip)
    have one : (1 : UInt32).toNat = 1 := rfl
    refine UInt32.toNat_inj.mp ?_
    rw [UInt32.toNat_add, position, before, one]
    omega
  · exact (List.isChain_append.mp linked).2.2 last (by simp [tip]) block (by simp)

/-- A block that is appended and forwarded at once counts as told. -/
theorem toldOf_appended {node : Node ssl} (chain : Blockchain) (block : Block) (nonempty : node.chain ≠ [])
    (grown : chain = node.chain ++ [block]) : toldOf { node with chain := chain } = toldOf node + 1 := by
  have positive := List.length_pos_of_ne_nil nonempty
  subst grown
  unfold toldOf
  cases node.mining with
  | idle | tipRead | selected => simp
  | added =>
    simp only [List.length_append, List.length_singleton]
    omega

/-- What a node has told depends on its chain and on its mining stage only. -/
theorem toldOf_congr {node next : Node ssl} (chain : next.chain = node.chain) (mining : next.mining = node.mining) :
    toldOf next = toldOf node := by
  rw [toldOf, toldOf, chain, mining]

/-! ## What is under way -/

variable [DecidableEq ι]

/-- A message to some neighbours is put behind what is under way to them. -/
theorem post_copies (wired : Wired graph fd net) (before : Network ι ssl Message)
    (remote : before.remote = net.remote) (i : ι) (fds : List Nat) (nodup : fds.Nodup)
    (known : ∀ n ∈ fds, n ∈ activeFds (net.nodes i)) (message : Message) (j k : ι) (adjacent : graph.Adj j k) :
    (Move.post messages ⟨before, i, fds.map fun n => ⟨n, message⟩⟩).channel (k, fd k j) =
      before.channel (k, fd k j) ++ if j = i ∧ fd i k ∈ fds then [message] else [] := by
  unfold Move.post
  induction fds generalizing before with
  | nil => simp
  | cons n rest ih =>
    obtain ⟨m, near, rfl⟩ := (wired.active i n).mp (known n (by simp))
    obtain ⟨fresh, nodup⟩ := List.nodup_cons.mp nodup
    have far := wired.remote i m near
    have later := ih (before.post messages i ⟨fd i m, message⟩)
      ((Network.post_nodes messages i before _).2.trans remote) nodup
      fun n member => known n (by simp [member])
    rw [List.map_cons, List.foldl_cons, later]
    have first : (before.post messages i ⟨fd i m, message⟩).channel (k, fd k j) =
        before.channel (k, fd k j) ++ if j = i ∧ k = m then [message] else [] := by
      simp only [Network.post, remote, far]
      by_cases same : j = i ∧ k = m
      · obtain ⟨rfl, rfl⟩ := same
        simp [messages]
      · have other : (k, fd k j) ≠ (m, fd m i) := by
          intro equal
          obtain ⟨rfl, sameFd⟩ := Prod.mk.inj equal
          exact same ⟨wired.distinct k j i adjacent.symm near.symm sameFd, rfl⟩
        simp [same, other]
    rw [first, List.append_assoc]
    congr 1
    by_cases here : j = i
    · subst here
      by_cases same : k = m
      · subst same
        simp [fresh]
      · have different : fd j k ≠ fd j m := fun equal => same (wired.distinct j k m adjacent near equal)
        simp [same, different]
    · simp [here]

/-- Where nothing but payments is sent, no block comes under way. -/
theorem blocksOf_post (move : Move ι ssl Message)
    (payments : ∀ packet ∈ move.packets, ∃ tx, packet.message = .newTx tx) (socket : ι × Nat) :
    blocksOf ((move.post messages).channel socket) = blocksOf (move.net.channel socket) := by
  obtain ⟨net, sender, packets⟩ := move
  unfold Move.post
  induction packets generalizing net with
  | nil => rfl
  | cons packet rest ih =>
    rw [List.foldl_cons, ih _ fun other member => payments other (by simp [member])]
    obtain ⟨tx, same⟩ := payments packet (by simp)
    unfold Network.post
    cases net.remote (sender, packet.fd) with
    | none => rfl
    | some far =>
      by_cases here : socket = far
      · subst here
        simp [messages, same, blocksOf]
      · simp [here]

/-! ## What one node has changed -/

section

variable {next before : Network ι ssl Message} {i : ι} {node : Node ssl} {packets : List Packet}

/-- The network after a step of one node: it is a new node in its place, and its
packets have been sent. All cases of a step have this form. -/
structure Changed (net before : Network ι ssl Message) (i : ι) (node : Node ssl) (packets : List Packet)
    (next : Network ι ssl Message) : Prop where
  sent : next = Move.post messages ⟨before, i, packets⟩
  nodes : before.nodes = (net.put i node).nodes
  remote : before.remote = net.remote
  peers : node.peers = (net.nodes i).peers

/-- Packets go to the channels, and the nodes are as the step left them. -/
theorem Changed.after (changed : Changed net before i node packets next) : next.nodes = (net.put i node).nodes := by
  rw [changed.sent, (Move.post_nodes messages _).1, changed.nodes]

/-- A step that keeps the peer table of its node keeps the wiring. -/
theorem Changed.wired (changed : Changed net before i node packets next) (wired : Wired graph fd net) :
    Wired graph fd next := by
  rw [changed.sent]
  exact wired_post wired i node packets before changed.nodes changed.remote changed.peers

/-- What holds of the changed node and of the others, holds of all. -/
theorem Changed.forall (changed : Changed net before i node packets next) (property : ι → Node ssl → Prop)
    (others : ∀ j, property j (net.nodes j)) (here : property i node) (j : ι) : property j (next.nodes j) := by
  rw [changed.after]
  by_cases same : j = i
  · subst same
    rw [Network.put_same]
    exact here
  · rw [Network.put_other net i j node same]
    exact others j

/-- A chain that has not changed may be the longest one. -/
theorem Changed.top (changed : Changed net before i node packets next) (relaying : Relaying graph fd longest net)
    (chain : node.chain = (net.nodes i).chain) : ∃ j, (next.nodes j).chain = longest := by
  obtain ⟨j, top⟩ := relaying.top
  exact ⟨j, changed.forall (fun j later => (net.nodes j).chain = longest → later.chain = longest) (fun _ => id)
    (fun same => chain.trans same) j top⟩

/-- In the abstract relay the node has as many items as its chain has blocks. -/
theorem Changed.has (changed : Changed net before i node packets next) :
    (relayState graph fd next).has = Function.update (relayState graph fd net).has i node.chain.length := by
  funext j
  simp only [relayState, changed.after]
  by_cases same : j = i
  · subst same
    simp
  · rw [Network.put_other net i j node same, Function.update_of_ne same]

/-- In the abstract relay the node has told what `toldOf` counts. -/
theorem Changed.told (changed : Changed net before i node packets next) :
    (relayState graph fd next).told = Function.update (relayState graph fd net).told i (toldOf node) := by
  funext j
  simp only [relayState, changed.after]
  by_cases same : j = i
  · subst same
    simp
  · rw [Network.put_other net i j node same, Function.update_of_ne same]

/-- Only `MSG_NEW_BLOCK` carries a block here. -/
theorem mem_blocksOf (block : Block) (waiting : List Message) :
    block ∈ blocksOf waiting ↔ .newBlock block ∈ waiting := by
  rw [blocksOf, List.mem_filterMap]
  constructor
  · rintro ⟨message, member, found⟩
    cases message with
    | newBlock other =>
      obtain rfl := Option.some.inj found
      exact member
    | newTx | requestChain | chainResponse | ping | pong => cases found
  · intro member
    exact ⟨_, member, rfl⟩

/-- What a step of a node has to keep. -/
theorem relaying_of {longer : Blockchain} (relaying : Relaying graph fd longest net)
    (changed : Changed net before i node packets next) (tracked : Tracked next) (grown : longest <+: longer)
    (top : ∃ j, (next.nodes j).chain = longer) (linked : longer.IsChain (Linked ssl.sha256))
    (along : node.chain <+: longer)
    (added : ∀ block, node.mining = .added block → node.chain.getLast? = some block)
    (sent : ∀ packet ∈ packets, (∃ block, packet.message = .newBlock block ∧
      longer[block.index.toNat]? = some block) ∨ ∃ tx, packet.message = .newTx tx)
    (waits : ∀ socket, ∀ message ∈ before.channel socket, message ∈ net.channel socket)
    (ordered : Ordered graph (relayState graph fd next)) : Relaying graph fd longer next := by
  refine ⟨tracked, changed.wired relaying.wired, top, linked, ?_, ?_, fun socket message waiting => ?_,
    fun j k adjacent block member => ?_, ordered⟩
  · exact changed.forall (fun _ later => later.chain <+: longer) (fun j => (relaying.along j).trans grown) along
  · exact changed.forall (fun _ later => ∀ block, later.mining = .added block → later.chain.getLast? = some block)
      relaying.added added
  · rw [changed.sent] at waiting
    rcases Move.mem_post _ socket message waiting with old | ⟨packet, member, rfl⟩
    · exact relaying.kinds socket message (waits socket message old)
    · exact (sent packet member).imp (fun ⟨block, same, _⟩ => ⟨block, same⟩) id
  · rw [mem_blocksOf, changed.sent] at member
    rcases Move.mem_post _ _ _ member with old | ⟨packet, member, same⟩
    · have there := relaying.waiting j k adjacent block ((mem_blocksOf _ _).mpr (waits _ _ old))
      exact getElem?_of_prefix grown there
    · rcases sent packet member with ⟨other, copy, there⟩ | ⟨tx, payment⟩
      · rw [copy] at same
        obtain rfl := Message.newBlock.inj same
        exact there
      · rw [payment] at same
        cases same

omit [DecidableEq ι] in
/-- Two states of the relay are equal when their three tables are. -/
theorem relayState_ext {one other : OrderedRelay.State ι} (has : one.has = other.has) (told : one.told = other.told)
    (queue : one.queue = other.queue) : one = other := by
  obtain ⟨oneHas, oneTold, oneQueue⟩ := one
  obtain ⟨otherHas, otherTold, otherQueue⟩ := other
  rw [OrderedRelay.State.mk.injEq]
  exact ⟨has, told, queue⟩

/-- Where no chain has changed and no block has been sent or read, the blocks
are where they were. -/
theorem relaying_rest (relaying : Relaying graph fd longest net) (changed : Changed net before i node packets next)
    (tracked : Tracked next) (chain : node.chain = (net.nodes i).chain) (told : toldOf node = toldOf (net.nodes i))
    (added : ∀ block, node.mining = .added block → (net.nodes i).mining = .added block)
    (payments : ∀ packet ∈ packets, ∃ tx, packet.message = .newTx tx)
    (waits : ∀ socket, ∀ message ∈ before.channel socket, message ∈ net.channel socket)
    (blocks : ∀ socket, blocksOf (before.channel socket) = blocksOf (net.channel socket)) :
    Relaying graph fd longest next := by
  have same (socket : ι × Nat) : blocksOf (next.channel socket) = blocksOf (net.channel socket) := by
    rw [changed.sent, blocksOf_post _ payments, blocks]
  have state : relayState graph fd next = relayState graph fd net := by
    have has : (relayState graph fd next).has = _ := changed.has
    have telling : (relayState graph fd next).told = _ := changed.told
    rw [chain] at has
    rw [told] at telling
    have queue : (relayState graph fd next).queue = (relayState graph fd net).queue := by
      simp only [relayState, same]
    exact relayState_ext (has.trans (Function.update_eq_self i _)) (telling.trans (Function.update_eq_self i _)) queue
  refine relaying_of relaying changed tracked List.prefix_rfl (changed.top relaying chain) relaying.linked ?_
    (fun block stage => ?_) (fun packet member => Or.inr (payments packet member)) waits ?_
  · rw [chain]
    exact relaying.along i
  · rw [chain]
    exact relaying.added i block (added block stage)
  · rw [state]
    exact relaying.ordered

/-- A block that is mined on the longest chain makes it longer. -/
theorem relaying_added {filled mined : Block} (relaying : Relaying graph fd longest net) (tracked : Tracked next)
    (changed : Changed net (net.put i node) i node [] next) (stage : (net.nodes i).mining = .selected filled)
    (chain : node.chain = (net.nodes i).chain ++ [mined]) (mining : node.mining = .added mined)
    (follows : Extends ssl.sha256 (net.nodes i).chain mined)
    (most : ∀ j, (net.nodes j).chain.length ≤ (net.nodes i).chain.length) :
    Relaying graph fd (longest ++ [mined]) next := by
  obtain ⟨j, top⟩ := relaying.top
  have tip : (net.nodes i).chain = longest :=
    (relaying.along i).eq_of_length_le (by rw [← top]; exact most j)
  have own : next.nodes i = node := by rw [changed.after, Network.put_same]
  have linked : (longest ++ [mined]).IsChain (Linked ssl.sha256) := by
    obtain ⟨room, last, first, index, linked⟩ := follows
    rw [tip] at first
    exact isChain_append_block _ _ last mined relaying.linked first linked
  have sent : toldOf (net.nodes i) = (net.nodes i).chain.length := by rw [toldOf, stage]
  have state : relayState graph fd next = { relayState graph fd net with
      has := Function.update (relayState graph fd net).has i ((relayState graph fd net).has i + 1) } := by
    refine relayState_ext ?_ ?_ ?_
    · rw [changed.has, chain, List.length_append]
      rfl
    · have kept : toldOf node = toldOf (net.nodes i) := by simp [toldOf, mining, stage, chain]
      rw [changed.told, kept]
      exact Function.update_eq_self i _
    · rw [changed.sent]
      rfl
  refine relaying_of relaying changed tracked (List.prefix_append _ _) ⟨i, ?_⟩ linked ?_ ?_ ?_ (fun _ _ => id) ?_
  · rw [own, chain, tip]
  · rw [chain, tip]
  · intro block stage
    rw [mining] at stage
    obtain rfl := Mining.added.inj stage
    simp [chain]
  · simp
  · rw [state]
    exact ordered_step relaying.ordered (.creates i sent most)

/-! ## Blocks under way -/

omit [DecidableEq ι] in
/-- The positions of the blocks that wait at a neighbour. -/
theorem relayState_queue (later : Network ι ssl Message) (j k : ι) (adjacent : graph.Adj j k) :
    (relayState graph fd later).queue j k =
      (blocksOf (later.channel (k, fd k j))).map fun block => block.index.toNat := if_pos adjacent

/-- A block that is sent to some neighbours is put behind the others. -/
theorem queue_copies (wired : Wired graph fd net) (remote : before.remote = net.remote) (fds : List Nat)
    (nodup : fds.Nodup) (known : ∀ n ∈ fds, n ∈ activeFds (net.nodes i)) (block : Block) (j k : ι)
    (adjacent : graph.Adj j k) :
    (relayState graph fd (Move.post messages ⟨before, i, fds.map fun n => ⟨n, .newBlock block⟩⟩)).queue j k =
      (relayState graph fd before).queue j k ++ if j = i ∧ fd i k ∈ fds then [block.index.toNat] else [] := by
  rw [relayState_queue _ j k adjacent, relayState_queue _ j k adjacent,
    post_copies wired before remote i fds nodup known _ j k adjacent, blocksOf_append, List.map_append]
  split_ifs <;> rfl

/-- A mined block is announced. -/
theorem relaying_announced {block : Block} (relaying : Relaying graph fd longest net) (tracked : Tracked next)
    (changed : Changed net (net.put i node) i node (broadcastBlockExcept (net.nodes i) block none) next)
    (stage : (net.nodes i).mining = .added block) (chain : node.chain = (net.nodes i).chain)
    (mining : node.mining = .idle) : Relaying graph fd longest next := by
  have tip := relaying.added i block stage
  have position : block.index.toNat = (net.nodes i).chain.length - 1 :=
    (relaying.tracked.honest i).index _ block (by rw [← List.getLast?_eq_getElem?]; exact tip)
  have positive : 0 < (net.nodes i).chain.length := by
    cases empty : (net.nodes i).chain with
    | nil => simp [empty] at tip
    | cons => simp
  have there : longest[block.index.toNat]? = some block := by
    refine getElem?_of_prefix (relaying.along i) ?_
    rw [position, ← List.getLast?_eq_getElem?]
    exact tip
  have unsent : toldOf (net.nodes i) = block.index.toNat := by rw [toldOf, stage, position]
  have state : relayState graph fd next = ⟨(relayState graph fd net).has,
      Function.update (relayState graph fd net).told i ((relayState graph fd net).told i + 1),
      (relayState graph fd next).queue⟩ := by
    refine relayState_ext ?_ ?_ rfl
    · rw [changed.has, chain]
      exact Function.update_eq_self i _
    · have all : toldOf node = toldOf (net.nodes i) + 1 := by
        have rests : toldOf node = (net.nodes i).chain.length := by rw [toldOf, mining, chain]
        omega
      rw [changed.told, all]
      rfl
  refine relaying_of relaying changed tracked List.prefix_rfl (changed.top relaying chain) relaying.linked ?_ ?_ ?_
    (fun _ _ => id) ?_
  · rw [chain]
    exact relaying.along i
  · intro other stage
    rw [mining] at stage
    cases stage
  · intro packet member
    obtain ⟨n, -, rfl⟩ := List.mem_map.mp member
    exact Or.inl ⟨block, rfl, there⟩
  · rw [state]
    refine ordered_step relaying.ordered (.announces i ?_ _ fun j k adjacent => ?_)
    · change toldOf (net.nodes i) < (net.nodes i).chain.length
      omega
    · have copies := queue_copies relaying.wired (show (net.put i node).remote = net.remote from rfl)
        ((activeFds (net.nodes i)).filter fun n => some n ≠ none) ((relaying.wired.nodup i).filter _)
        (fun n member => (List.mem_filter.mp member).1) block j k adjacent
      change (relayState graph fd (Move.post messages ⟨net.put i node, i,
        broadcastBlockExcept (net.nodes i) block none⟩)).queue j k = _ at copies
      rw [← changed.sent] at copies
      change (relayState graph fd next).queue j k = (relayState graph fd net).queue j k ++ _ at copies
      constructor
      · rintro ⟨rfl, -⟩
        have known : fd j k ∈ activeFds (net.nodes j) := (relaying.wired.active j _).mpr ⟨k, adjacent, rfl⟩
        rw [copies, if_pos ⟨rfl, List.mem_filter.mpr ⟨known, by simp⟩⟩]
        exact congrArg (fun item => _ ++ [item]) unsent.symm
      · intro elsewhere
        rw [copies, if_neg fun both => elsewhere ⟨both.1, id⟩, List.append_nil]

/-- What waits when the first message at a socket has been read. -/
theorem queue_read (wired : Wired graph fd net) (s : ι) (adjacent : graph.Adj i s) (rest : List Message)
    (channel : before.channel = Function.update net.channel (i, fd i s) rest) :
    (relayState graph fd before).queue = Function.update (relayState graph fd net).queue s
      (Function.update ((relayState graph fd net).queue s) i
        ((blocksOf rest).map fun block => block.index.toNat)) := by
  funext j k
  by_cases here : j = s ∧ k = i
  · obtain ⟨rfl, rfl⟩ := here
    rw [relayState_queue _ _ _ adjacent.symm, channel]
    simp
  · have other : Function.update (relayState graph fd net).queue s
        (Function.update ((relayState graph fd net).queue s) i
          ((blocksOf rest).map fun block => block.index.toNat)) j k = (relayState graph fd net).queue j k := by
      by_cases near : j = s
      · subst near
        rw [Function.update_self, Function.update_of_ne fun same => here ⟨rfl, same⟩]
      · rw [Function.update_of_ne near]
    rw [other]
    by_cases joined : graph.Adj j k
    · have apart : (k, fd k j) ≠ (i, fd i s) := by
        intro equal
        obtain ⟨rfl, same⟩ := Prod.mk.inj equal
        exact here ⟨wired.distinct k j s joined.symm adjacent same, rfl⟩
      rw [relayState_queue _ _ _ joined, relayState_queue _ _ _ joined, channel, Function.update_of_ne apart]
    · simp [relayState, joined]

/-- A block that does not fit is dropped. -/
theorem relaying_dropped {block : Block} {rest : List Message} (relaying : Relaying graph fd longest net)
    (tracked : Tracked next) (s : ι) (adjacent : graph.Adj i s)
    (changed : Changed net (net.drain (i, fd i s) rest) i (net.nodes i) [] next)
    (first : net.channel (i, fd i s) = .newBlock block :: rest)
    (other : block.index.toNat ≠ (net.nodes i).chain.length) : Relaying graph fd longest next := by
  have waits : (relayState graph fd net).queue s i =
      block.index.toNat :: (blocksOf rest).map fun block => block.index.toNat := by
    rw [relayState_queue _ _ _ adjacent.symm, first]
    rfl
  have state : relayState graph fd next = { relayState graph fd net with
      queue := Function.update (relayState graph fd net).queue s
        (Function.update ((relayState graph fd net).queue s) i
          ((blocksOf rest).map fun block => block.index.toNat)) } := by
    refine relayState_ext ?_ ?_ ?_
    · rw [changed.has]
      exact Function.update_eq_self i _
    · rw [changed.told]
      exact Function.update_eq_self i _
    · rw [changed.sent]
      exact queue_read relaying.wired s adjacent rest rfl
  refine relaying_of relaying changed tracked List.prefix_rfl (changed.top relaying rfl) relaying.linked
    (relaying.along i) (relaying.added i) (by simp) (fun socket message member => ?_) ?_
  · by_cases here : socket = (i, fd i s)
    · subst here
      rw [first]
      exact List.mem_cons_of_mem _ (by simpa [Network.drain] using member)
    · simpa [Network.drain, here] using member
  · rw [state]
    exact ordered_step relaying.ordered (.drops s i _ _ adjacent.symm waits other)

/-- A block that fits is appended and sent to the other neighbours. -/
theorem relaying_taken {block : Block} {rest : List Message} (relaying : Relaying graph fd longest net)
    (tracked : Tracked next) (s : ι) (adjacent : graph.Adj i s)
    (changed : Changed net ((net.put i node).drain (i, fd i s) rest) i node
      (broadcastBlockExcept (net.nodes i) block (some (fd i s))) next)
    (first : net.channel (i, fd i s) = .newBlock block :: rest)
    (next' : block.index.toNat = (net.nodes i).chain.length)
    (grown : node = { net.nodes i with chain := (net.nodes i).chain ++ [block] }) :
    Relaying graph fd longest next := by
  have waits : (relayState graph fd net).queue s i =
      block.index.toNat :: (blocksOf rest).map fun block => block.index.toNat := by
    rw [relayState_queue _ _ _ adjacent.symm, first]
    rfl
  have there : longest[block.index.toNat]? = some block :=
    relaying.waiting s i adjacent.symm block (by simp [first, blocksOf])
  have nonempty : (net.nodes i).chain ≠ [] := by
    obtain ⟨genesis, -, head⟩ := (relaying.tracked.honest i).start
    intro empty
    simp [empty] at head
  have idle (other : Block) : (net.nodes i).mining ≠ .added other := by
    intro stage
    have all : toldOf (net.nodes i) = (net.nodes i).chain.length :=
      relaying.ordered.told_of_takes adjacent.symm (waits.trans (by rw [next']; rfl))
    have positive := List.length_pos_of_ne_nil nonempty
    rw [toldOf, stage] at all
    dsimp only at all
    omega
  have state : relayState graph fd next = ⟨
      Function.update (relayState graph fd net).has i ((relayState graph fd net).has i + 1),
      Function.update (relayState graph fd net).told i ((relayState graph fd net).told i + 1),
      (relayState graph fd next).queue⟩ := by
    refine relayState_ext ?_ ?_ rfl
    · rw [changed.has, grown, List.length_append]
      rfl
    · rw [changed.told, grown, toldOf_appended _ block nonempty rfl]
      rfl
  refine relaying_of relaying changed tracked List.prefix_rfl ?_ relaying.linked ?_ ?_ ?_
    (fun socket message member => ?_) ?_
  · -- the chain that is the longest one is another one
    obtain ⟨j, top⟩ := relaying.top
    refine ⟨j, ?_⟩
    have different : j ≠ i := by
      rintro rfl
      rw [next', top, List.getElem?_eq_none (Nat.le_refl _)] at there
      cases there
    rw [changed.after, Network.put_other net i j node different, top]
  · obtain ⟨others, same⟩ := relaying.along i
    rw [← same, next', List.getElem?_append_right (Nat.le_refl _), Nat.sub_self,
      ← List.head?_eq_getElem?] at there
    obtain ⟨later, rfl⟩ := List.head?_eq_some_iff.mp there
    exact ⟨later, by rw [← same, grown, List.append_assoc]; rfl⟩
  · intro other stage
    rw [grown] at stage
    exact absurd stage (idle other)
  · intro packet member
    obtain ⟨n, -, rfl⟩ := List.mem_map.mp member
    exact Or.inl ⟨block, rfl, there⟩
  · by_cases here : socket = (i, fd i s)
    · subst here
      rw [first]
      exact List.mem_cons_of_mem _ (by simpa [Network.drain] using member)
    · simpa [Network.drain, Network.put, here] using member
  · rw [state]
    refine ordered_step relaying.ordered (.takes s i _ adjacent.symm (waits.trans (by rw [next']; rfl)) _ ?_)
    intro j k joined
    have copies := queue_copies relaying.wired
      (show ((net.put i node).drain (i, fd i s) rest).remote = net.remote from rfl)
      ((activeFds (net.nodes i)).filter fun n => some n ≠ some (fd i s)) ((relaying.wired.nodup i).filter _)
      (fun n member => (List.mem_filter.mp member).1) block j k joined
    change (relayState graph fd (Move.post messages ⟨(net.put i node).drain (i, fd i s) rest, i,
      broadcastBlockExcept (net.nodes i) block (some (fd i s))⟩)).queue j k = _ at copies
    have read : (relayState graph fd ((net.put i node).drain (i, fd i s) rest)).queue = _ :=
      queue_read relaying.wired s adjacent rest rfl
    rw [← changed.sent, read] at copies
    constructor
    · rintro ⟨rfl, far⟩
      have known : fd j k ∈ activeFds (net.nodes j) := (relaying.wired.active j _).mpr ⟨k, joined, rfl⟩
      have different : fd j k ≠ fd j s := fun same => far (relaying.wired.distinct j k s joined adjacent same)
      rw [copies, if_pos ⟨rfl, List.mem_filter.mpr ⟨known, by simpa using different⟩⟩]
      exact congrArg (fun item => _ ++ [item]) next'
    · intro elsewhere
      rw [copies, if_neg, List.append_nil]
      rintro ⟨rfl, sent⟩
      refine elsewhere ⟨rfl, ?_⟩
      rintro rfl
      simpa using (List.mem_filter.mp sent).2

end

/-! ## Steps of the network -/

variable {next : Network ι ssl Message}

/-- The step lemma for a delivery: the block is dropped or taken, as in
`ordered_drops` and `ordered_takes`, and both keep a prefix of the longest chain
at every node. -/
theorem relaying_deliver (relaying : Relaying graph fd longest net) (tracked : Tracked next) (i : ι) (n : Nat)
    (stepped : net.step messages (.deliver i n) = some next) : Relaying graph fd longest next := by
  obtain ⟨active, message, rest, waiting, same⟩ := step_of_deliver net next i n stepped
  obtain ⟨s, adjacent, rfl⟩ := (relaying.wired.active i n).mp active
  rcases relaying.kinds (i, fd i s) message (by simp [waiting]) with ⟨block, rfl⟩ | ⟨tx, rfl⟩
  · have honest := relaying.tracked.honest i
    have there := relaying.waiting s i adjacent.symm block (by simp [waiting, blocksOf])
    have first : (relayState graph fd net).queue s i =
        block.index.toNat :: (blocksOf rest).map fun block => block.index.toNat := by
      rw [relayState_queue _ _ _ adjacent.symm, waiting]
      rfl
    have early : block.index.toNat ≤ (net.nodes i).chain.length := relaying.ordered.first_le adjacent.symm first
    by_cases next' : block.index.toNat = (net.nodes i).chain.length
    · obtain ⟨j, top⟩ := relaying.top
      have whole : Honest ssl.sha256 longest := by
        rw [← top]
        exact relaying.tracked.honest j
      have nonempty : (net.nodes i).chain ≠ [] := by
        obtain ⟨genesis, -, head⟩ := honest.start
        intro empty
        simp [empty] at head
      rw [next'] at there
      have follows := extends_next ssl.sha256 longest _ block whole relaying.linked (relaying.along i) nonempty there
      simp only [react, chainAddBlock_of_extends _ _ _ follows] at same
      exact relaying_taken relaying tracked s adjacent ⟨same, rfl, rfl, rfl⟩ waiting next' rfl
    · have stale := accept_stale ssl.sha256 (net.nodes i).chain block honest (by omega)
      have refused : chainAddBlock ssl.sha256 (net.nodes i).chain block = none := by
        cases accepted : chainAddBlock ssl.sha256 (net.nodes i).chain block with
        | none => rfl
        | some grown =>
          obtain ⟨-, rfl⟩ := extends_of_chainAddBlock _ _ _ _ accepted
          simp [accept, accepted] at stale
      simp only [react, refused, Network.put_self] at same
      exact relaying_dropped relaying tracked s adjacent
        ⟨same, (congrArg Network.nodes (net.put_self i)).symm, rfl, rfl⟩ waiting next'
  · have mining := onNewTx_mining (net.nodes i) tx
    have chain := onNewTx_chain (net.nodes i) tx
    have changed : Changed net ((net.put i (onNewTx (net.nodes i) tx)).drain (i, fd i s) rest) i
        (onNewTx (net.nodes i) tx) [] next := ⟨same, rfl, rfl, onNewTx_peers _ _⟩
    refine relaying_rest relaying changed tracked chain (toldOf_congr chain mining) ?_ (by simp)
      (fun socket message member => ?_) fun socket => ?_
    · rw [mining]
      exact fun _ => id
    · by_cases here : socket = (i, fd i s)
      · subst here
        rw [waiting]
        exact List.mem_cons_of_mem _ (by simpa [Network.drain] using member)
      · simpa [Network.drain, Network.put, here] using member
    · by_cases here : socket = (i, fd i s)
      · subst here
        simp [Network.drain, waiting, blocksOf]
      · simp [Network.drain, Network.put, here]

/-- The step lemma for a command. Mining makes the longest chain longer, which
the hypothesis allows at a node that has all of it. -/
theorem relaying_act (relaying : Relaying graph fd longest net) (tracked : Tracked next) (i : ι) (action : Action)
    (longer : MinesOnLongest net (.act i action)) (stepped : net.step messages (.act i action) = some next) :
    ∃ longest, Relaying graph fd longest next := by
  obtain ⟨node, packets, acts, same⟩ := step_of_act net next i action stepped
  have rests (chain : node.chain = (net.nodes i).chain) (peers : node.peers = (net.nodes i).peers)
      (told : toldOf node = toldOf (net.nodes i))
      (added : ∀ block, node.mining = .added block → (net.nodes i).mining = .added block)
      (payments : ∀ packet ∈ packets, ∃ tx, packet.message = .newTx tx) : ∃ longest, Relaying graph fd longest next :=
    ⟨longest, relaying_rest relaying ⟨same, rfl, rfl, peers⟩ tracked chain told added payments (fun _ _ => id)
      fun _ => rfl⟩
  cases acts with
  | refused => exact rests rfl rfl rfl (fun _ => id) (by simp)
  | @sent receiver amount fee tx idle made =>
    have mining := onNewTx_mining (net.nodes i) tx
    have chain := onNewTx_chain (net.nodes i) tx
    refine rests chain (onNewTx_peers _ _) (toldOf_congr chain mining) ?_ fun packet member => ?_
    · rw [mining]
      exact fun _ => id
    · obtain ⟨n, -, rfl⟩ := List.mem_map.mp member
      exact ⟨tx, rfl⟩
  | tip idle => exact rests rfl rfl (by simp [toldOf, idle]) (by simp) (by simp)
  | selected read => exact rests rfl rfl (by simp [toldOf, read]) (by simp) (by simp)
  | abandoned filled => exact rests rfl rfl (by simp [toldOf, filled]) (by simp) (by simp)
  | @added filled mined attempts chain stage found accepted =>
    obtain ⟨follows, rfl⟩ := extends_of_chainAddBlock _ _ _ _ accepted
    have most : ∀ j, (net.nodes j).chain.length ≤ (net.nodes i).chain.length := by
      obtain ⟨-, last, tip, index, -⟩ := follows
      exact longer filled last stage tip ((blockMine_sameContent found).index.symm.trans index)
    exact ⟨_, relaying_added relaying tracked ⟨same, rfl, rfl, rfl⟩ stage rfl rfl follows most⟩
  | announced stage =>
    exact ⟨longest, relaying_announced relaying tracked ⟨same, rfl, rfl, rfl⟩ stage rfl rfl⟩

/-- Nothing but blocks and payments is sent, in plain texts and short lines. -/
theorem relaying_short (relaying : Relaying graph fd longest net) (event : NetEvent ι) (kind : MinesAndRelays event) :
    PlainTexts event ∧ ShortLines net.represent event := by
  have plain : PlainTexts event := by
    cases event with
    | act i action =>
      cases action with
      | send => exact kind
      | mineTip | mineSelect | mineAdd | mineBroadcast => trivial
    | deliver | connect | accept | closed => trivial
  refine ⟨plain, fun move moved packet member => ?_⟩
  have readable := relaying.tracked.readable
  rw [move_represent net event readable.deliverable] at moved
  obtain ⟨typed, typedMoved, rfl⟩ := Option.map_eq_some_iff.mp moved
  obtain ⟨-, texts⟩ := Contents.inNetwork_move (lawful_plain ssl) net event typed readable.plain
    (sends_plain net event plain) typedMoved
  have noChain : ∀ chain, packet.message ≠ .chainResponse chain := by
    intro chain same
    cases move_moves net event typed typedMoved with
    | acted acts =>
      cases acts with
      | sent | announced =>
        obtain ⟨n, -, rfl⟩ := List.mem_map.mp member
        cases same
      | refused | tip | selected | added | abandoned => simp [Move.represent] at member
    | @delivered i n message rest node packets waiting reacts =>
      rcases relaying.kinds (i, n) message (by simp [waiting]) with ⟨block, rfl⟩ | ⟨tx, rfl⟩
      · cases reacts with
        | nothing => simp [Move.represent] at member
        | block =>
          obtain ⟨n, -, rfl⟩ := List.mem_map.mp member
          cases same
      · cases reacts with
        | nothing | tx => simp [Move.represent] at member
    | peers _ _ greeting =>
      rcases greeting packet member with request | ⟨tx, -, resent⟩
      · rw [request] at same
        cases same
      · rw [resent] at same
        cases same
  have length := text_length packet.message ((inMessage_plain _).mp (texts packet member)) 0
    fun chain same => absurd same (noChain chain)
  have size : maxMsgSize = 1048576 := rfl
  omega

/-! ## Runs -/

/-- The run lemma. -/
theorem relaying_run (start : Network ι ssl Message) (reached : Network ι ssl UInt8) (events : List (NetEvent ι))
    (relaying : Relaying graph fd longest start) (kind : ∀ event ∈ events, MinesAndRelays event)
    (every : Every (Network.step bytes) MinesOnLongest start.represent events)
    (ran : run (Network.step bytes) start.represent events = some reached) :
    ∃ typed longest, typed.represent = reached ∧ Relaying graph fd longest typed := by
  induction events generalizing start longest with
  | nil => exact ⟨start, longest, Option.some.inj ran, relaying⟩
  | cons event rest ih =>
    obtain ⟨next, stepped, later⟩ := (run_cons _ _ _ _ _).mp ran
    have here := kind event (by simp)
    obtain ⟨typed, typedRan, rfl, tracked⟩ := tracked_run start next [event] relaying.tracked
      ⟨relaying_short relaying event here, fun _ _ => trivial⟩ ((run_cons _ _ _ _ _).mpr ⟨next, stepped, rfl⟩)
    obtain ⟨same, typedStepped, ends⟩ := (run_cons _ _ _ _ _).mp typedRan
    obtain rfl := Option.some.inj ends
    have kept : ∃ longest, Relaying graph fd longest same := by
      cases event with
      | act i action => exact relaying_act relaying tracked i action every.1 typedStepped
      | deliver i n => exact ⟨longest, relaying_deliver relaying tracked i n typedStepped⟩
      | connect | accept | closed => exact here.elim
    obtain ⟨_, after⟩ := kept
    exact ih same after (fun other member => kind other (by simp [member])) (every.2 _ stepped) later

/-- In every run of processes that are connected as in a connected graph, in
which blocks are mined only where no chain is longer, and a received block is
appended and forwarded in one step: of two chains one is a beginning of the
other, and all chains are equal when nothing is under way. -/
theorem chains_converge [Nonempty ι] (connected : graph.Connected) (start reached : Network ι ssl UInt8)
    (events : List (NetEvent ι)) (begins : JustWired graph fd start)
    (kind : ∀ event ∈ events, MinesAndRelays event)
    (every : Every (Network.step bytes) MinesOnLongest start events)
    (ran : run (Network.step bytes) start events = some reached) :
    (∀ i j, (reached.nodes i).chain <+: (reached.nodes j).chain ∨
      (reached.nodes j).chain <+: (reached.nodes i).chain) ∧
      (AtRest graph fd reached → ∀ i j, (reached.nodes i).chain = (reached.nodes j).chain) := by
  obtain ⟨longest, relaying⟩ := relaying_start start begins
  rw [← represent_quiet start begins.channel] at every ran
  obtain ⟨typed, longest, rfl, relaying⟩ := relaying_run start.quiet reached events relaying kind every ran
  have compare (i j : ι) (shorter : (typed.nodes i).chain.length ≤ (typed.nodes j).chain.length) :
      (typed.nodes i).chain <+: (typed.nodes j).chain :=
    List.prefix_of_prefix_length_le (relaying.along i) (relaying.along j) shorter
  constructor
  · intro i j
    exact (Nat.le_total _ _).imp (compare i j) (compare j i)
  · intro rests i j
    have quiet (a b : ι) (adjacent : graph.Adj a b) : (relayState graph fd typed).queue a b = [] := by
      have silent : (typed.channel (b, fd b a)).flatMap Message.text = [] := rests.channel b a adjacent.symm
      have empty : typed.channel (b, fd b a) = [] := by
        refine List.eq_nil_iff_forall_not_mem.mpr fun message waits => ?_
        obtain ⟨plain, -⟩ := relaying.tracked.readable.deliverable (b, fd b a) message waits
        have text := List.flatMap_eq_nil_iff.mp silent message waits
        rw [plain.text.1] at text
        simp at text
      rw [relayState_queue _ _ _ adjacent, empty]
      rfl
    have told (a : ι) : (relayState graph fd typed).told a = (relayState graph fd typed).has a := by
      change toldOf (typed.nodes a) = (typed.nodes a).chain.length
      cases stage : (typed.nodes a).mining with
      | idle | tipRead | selected => rw [toldOf, stage]
      | added block => exact absurd stage (rests.sent a block)
    have lengths : (typed.nodes i).chain.length = (typed.nodes j).chain.length :=
      relaying.ordered.same connected quiet told i j
    exact (compare i j lengths.le).eq_of_length lengths

/-! ## An example -/

/-- A short run is evaluated on messages. -/
theorem justWired_run [Nonempty ι] (start : Network ι ssl UInt8) (begins : JustWired graph fd start)
    (events : List (NetEvent ι)) (typed : Network ι ssl Message) (few : events.length ≤ 149)
    (plain : ∀ event ∈ events, PlainTexts event)
    (ran : run (Network.step messages) start.quiet events = some typed) :
    run (Network.step bytes) start events = some typed.represent := by
  obtain ⟨_, relaying⟩ := relaying_start start begins
  have readable := relaying.tracked.readable
  have within : ChainsWithin 1 start.quiet := by
    refine ⟨fun i => ?_, by simp [Network.quiet]⟩
    obtain ⟨genesis, -, first⟩ := Option.map_eq_some_iff.mp (begins.chain i)
    change (start.nodes i).chain.length ≤ 1
    rw [← first]
    exact Nat.le_refl 1
  have every := shortLines_of_few_steps 1 start.quiet events readable within (by omega) plain
  obtain ⟨agree, -⟩ := run_represent _ (fun _ _ both => both.1) (fun _ _ both => both.2) start.quiet events
    readable every
  rw [represent_quiet start begins.channel] at agree
  rw [agree, ran]
  rfl

/-- The first process of a row mines, and the block gets to the last one, which
is no neighbour of the first. -/
theorem chains_converge_here : ∃ (events : List (NetEvent (Fin 3))) (start reached : Network (Fin 3) stubSsl UInt8),
    run (Network.step bytes) start events = some reached ∧ (reached.nodes 0).chain.length = 2 ∧
      (reached.nodes 0).chain = (reached.nodes 2).chain := by
  let start : Network (Fin 3) stubSsl UInt8 := wire row fun i => freshNode (stubWallet i.val.toUInt8)
  let tips : List (NetEvent (Fin 3)) := [.act 0 (.mineTip 192), .act 0 .mineSelect]
  let events : List (NetEvent (Fin 3)) :=
    tips ++ [.act 0 .mineAdd, .act 0 .mineBroadcast, .deliver 1 0, .deliver 2 1]
  have begins : JustWired row (fun _ j => j.val) start :=
    ⟨wired_wire row _, fun _ => chainInit_sha256, fun _ => rfl, fun _ => rfl, fun _ => rfl⟩
  have kind : ∀ event ∈ events, MinesAndRelays event := by simp [events, tips, MinesAndRelays]
  have evaluated : (run (Network.step messages) start.quiet events).map (fun net =>
      (decide (∀ i j : Fin 3, row.Adj i j → net.channel (i, j.val) = []),
        decide (∀ i : Fin 3, (net.nodes i).mining = .idle), (net.nodes 0).chain.length)) =
      some (true, true, 2) := by decide +kernel
  obtain ⟨typed, typedRan, facts⟩ := Option.map_eq_some_iff.mp evaluated
  simp only [Prod.mk.injEq, decide_eq_true_eq] at facts
  obtain ⟨empty, idle, length⟩ := facts
  have ran := justWired_run start begins events typed (by decide) (by simp [events, tips, PlainTexts]) typedRan
  have every : Every (Network.step bytes) MinesOnLongest start events := by
    refine (every_append _ _ _ tips _).mpr ⟨⟨trivial, fun _ _ => ⟨trivial, fun _ _ => trivial⟩⟩, fun filled selects => ?_⟩
    refine ⟨?_, fun _ _ => ⟨trivial, fun _ _ => ⟨trivial, fun _ _ => ⟨trivial, fun _ _ => trivial⟩⟩⟩⟩
    have lengths : (run (Network.step bytes) start tips).map (fun net =>
        decide (∀ j : Fin 3, (net.nodes j).chain.length ≤ (net.nodes 0).chain.length)) = some true := by decide +kernel
    rw [selects, Option.map_some, Option.some.injEq, decide_eq_true_eq] at lengths
    exact fun _ _ _ _ _ => lengths
  have rests : AtRest row (fun _ j => j.val) typed.represent := by
    constructor
    · intro i j adjacent
      change (typed.channel (i, j.val)).flatMap Message.text = []
      rw [empty i j adjacent]
      rfl
    · intro i block
      change (typed.nodes i).mining ≠ _
      simp [idle i]
  exact ⟨events, start, typed.represent, ran, length, (chains_converge row_connected start typed.represent events begins
    kind every ran).2 rests 0 2⟩

end MiniCoin
