import MiniCoin.BlockTrees
import MiniCoin.Supply

/-!
# The history of a network is a tree

`chain_add_block` compares a new block with the last one only, by its hash. If no two different
blocks that are mined in a run have the same hash, this is enough: the chains that the nodes of an
honest network ever hold are a tree that grows by mining alone. A node mines on its own chain,
appends a block where it was mined, or takes over a chain that some node had.

So every block of a chain was appended by the node that mined it to just the blocks before it, and
two chains with the same hash at a position are equal up to there.
-/

namespace MiniCoin

open ByteStrings Runs BlockTrees

variable {ι : Type} {ssl : OpenSSL} {α : Type}

/-- What a block says about its place: its hash, the previous hash and the
index. -/
def blockLabels : Labels Block (CText hashHexLen) where
  name block := block.hash
  parent block := block.prevHash
  position block := block.index.toNat

/-- A node appends a block that it has mined to its chain. Such events write new
histories, all others pass them on. -/
def Mines (net : Network ι ssl α) (event : NetEvent ι) (chain : Blockchain) (block : Block) : Prop :=
  ∃ i node, event = .act i .mineAdd ∧ (net.nodes i).chain = chain ∧
    mineAdd (net.nodes i) = some node ∧ node.chain = chain ++ [block]

/-- The blocks that are mined in a run. -/
def minedIn [DecidableEq ι] (start : Network ι ssl UInt8) (events : List (NetEvent ι)) : Set Block :=
  {block | Once (Network.step bytes) (fun net event => ∃ chain, Mines net event chain block) start events}

/-! ## One node -/

/-- A message carries blocks and chains of the tree. -/
def Message.Known (histories : Set Blockchain) : Message → Prop
  | .newBlock block => block ∈ written histories
  | .chainResponse chain => chain ∈ histories
  | .newTx _ | .requestChain | .ping | .pong => True

/-- The block that a node will broadcast is in the tree. -/
def AddedKnown (histories : Set Blockchain) (node : Node ssl) : Prop :=
  ∀ block, node.mining = .added block → block ∈ written histories

theorem Message.Known.mono {histories later : Set Blockchain} (grown : histories ⊆ later) {message : Message}
    (known : message.Known histories) : message.Known later := by
  cases message with
  | newBlock block => exact written_mono grown known
  | chainResponse chain => exact grown known
  | newTx | requestChain | ping | pong => trivial

/-- In an honest chain the position of a block is its index. -/
theorem fits_of_extends (sha : Sha256) (chain : Blockchain) (block : Block) (honest : Honest sha chain)
    (minted : Minted block) (follows : Extends sha chain block) : Fits blockLabels chain block := by
  have place := (honest_extended sha chain block honest minted follows).index chain.length block (by simp)
  obtain ⟨-, last, tip, -, linked, -⟩ := follows
  exact ⟨place, last, tip, linked⟩

/-- What a step of one node does to the tree: the turn that it takes, what it
then stores and sends, and that only mining makes the tree grow. -/
structure Grows (histories : Set Blockchain) (node next : Node ssl) (packets : List Packet)
    (mines : Block → Prop) (later : Set Blockchain) : Prop where
  turn : BlockTrees.Turn blockLabels histories node.chain later next.chain
  added : AddedKnown later next
  sent : ∀ packet ∈ packets, packet.message.Known later
  mined : ∀ chain ∈ later, chain ∈ histories ∨ ∃ block, mines block ∧ chain = node.chain ++ [block]

variable {histories : Set Blockchain} {node next : Node ssl} {packets : List Packet}

/-- A step that leaves the chain as it is. -/
theorem grows_rests (mines : Block → Prop) (chain : next.chain = node.chain)
    (added : AddedKnown histories next)
    (sent : ∀ packet ∈ packets, packet.message.Known histories) :
    Grows histories node next packets mines histories where
  turn := by rw [chain]; exact .rests
  added := added
  sent := sent
  mined chain member := Or.inl member

/-- What a command does to the tree. It grows with `do_mine`'s block, and with
nothing else. -/
theorem grows_acts {action : Action} (known : AddedKnown histories node)
    (honest : Honest ssl.sha256 node.chain) (minted : ∀ block, next.mining = .added block → Minted block)
    (acts : Acts node action next packets) :
    ∃ later, Grows histories node next packets
      (fun block => action = .mineAdd ∧ mineAdd node = some next ∧ next.chain = node.chain ++ [block]) later := by
  cases acts with
  | refused => exact ⟨histories, grows_rests _ rfl known (by simp)⟩
  | sent idle made =>
    refine ⟨histories, grows_rests _ (onNewTx_chain node _) (by rw [AddedKnown, onNewTx_mining]; exact known) ?_⟩
    intro packet member
    obtain ⟨fd, -, rfl⟩ := List.mem_map.mp member
    trivial
  | tip | selected => exact ⟨histories, grows_rests _ rfl (by simp [AddedKnown]) (by simp)⟩
  | @added filled mined attempts grown stage found accepted =>
    obtain ⟨follows, rfl⟩ := extends_of_chainAddBlock _ _ _ _ accepted
    have fits := fits_of_extends _ _ _ honest (minted mined rfl) follows
    refine ⟨insert (node.chain ++ [mined]) histories, .writes mined fits, fun block same => ?_, by simp, ?_⟩
    · obtain rfl : mined = block := Mining.added.inj same
      exact ⟨node.chain, fits.ne_nil, Or.inl rfl⟩
    · rintro chain (rfl | old)
      · exact Or.inr ⟨mined, ⟨rfl, by simp [mineAdd, stage, found, accepted], rfl⟩, rfl⟩
      · exact Or.inl old
  | abandoned => exact ⟨histories, grows_rests _ rfl (by simp [AddedKnown]) (by simp)⟩
  | @announced block added =>
    refine ⟨histories, grows_rests _ rfl (by simp [AddedKnown]) fun packet member => ?_⟩
    obtain ⟨fd, -, rfl⟩ := List.mem_map.mp member
    exact known block added

/-- What a message does to the tree: a chain that is in it is taken over or
extended along it. -/
theorem grows_reacts {fd : Nat} {message : Message} (held : node.chain ∈ histories)
    (known : AddedKnown histories node) (carried : message.Known histories) (honest : Honest ssl.sha256 node.chain)
    (minted : ∀ block, message = .newBlock block → Minted block)
    (reacts : Reacts node fd message next packets) :
    Grows histories node next packets (fun _ => False) histories := by
  cases reacts with
  | nothing => exact grows_rests _ rfl known (by simp)
  | @block block grown accepted =>
    obtain ⟨follows, rfl⟩ := extends_of_chainAddBlock _ _ _ _ accepted
    refine ⟨.follows block (fits_of_extends _ _ _ honest (minted block rfl) follows) carried, known,
      fun packet member => ?_, fun chain old => Or.inl old⟩
    obtain ⟨far, -, rfl⟩ := List.mem_map.mp member
    exact carried
  | tx tx => exact grows_rests _ (onNewTx_chain node tx) (by rw [AddedKnown, onNewTx_mining]; exact known) (by simp)
  | request =>
    refine grows_rests _ rfl known fun packet member => ?_
    obtain rfl := List.mem_singleton.mp member
    exact held
  | chain accepted =>
    obtain ⟨-, -, rfl⟩ := (chainReplace_iff _ _ _ _).mp accepted
    exact ⟨.adopts _ carried, known, by simp, fun chain old => Or.inl old⟩
  | ping =>
    refine grows_rests _ rfl known fun packet member => ?_
    obtain rfl := List.mem_singleton.mp member
    trivial

/-! ## The network of messages -/

/-- All blocks and chains that will be sent or are under way are in the tree.
What a node takes over was therefore written by some node before. -/
structure Knows (histories : Set Blockchain) (net : Network ι ssl Message) : Prop where
  nodes : ∀ i, AddedKnown histories (net.nodes i)
  channels : ∀ socket, ∀ message ∈ net.channel socket, message.Known histories

/-- The chains of a network, and the chains that were ever held. -/
def chainsOf (net : Network ι ssl α) (histories : Set Blockchain) : State ι Block :=
  ⟨fun i => (net.nodes i).chain, histories⟩

/-- Before the first step the tree is the genesis block, which all nodes
have. -/
theorem safe_start {genesis : Block} (start : Network ι ssl Message) (started : start.Started)
    (created : blockCreateGenesis ssl.sha256 = some genesis) :
    Safe blockLabels genesis (chainsOf start {[genesis]}) := by
  refine ⟨Tree.single _ _, fun i => ?_⟩
  have chain := (started.nodes i).chain
  rw [chainInit, created] at chain
  exact (Option.some.inj chain).symm

variable [DecidableEq ι] {genesis : Block} {net : Network ι ssl Message}

/-- What a node does is a step of the tree. -/
theorem knows_post (knows : Knows histories net) (i : ι) {mines : Block → Prop} {later : Set Blockchain}
    (grows : Grows histories (net.nodes i) node packets mines later) (before : Network ι ssl Message)
    (nodes : before.nodes = (net.put i node).nodes)
    (channels : ∀ socket, ∀ message ∈ before.channel socket, message ∈ net.channel socket) :
    Knows later (Move.post messages ⟨before, i, packets⟩) ∧
      Step blockLabels (chainsOf net histories) (chainsOf (Move.post messages ⟨before, i, packets⟩) later) := by
  have after := (Move.post_nodes messages (⟨before, i, packets⟩ : Move ι ssl Message)).1
  refine ⟨⟨?_, fun socket message waits => ?_⟩, i, ?_, fun j other => ?_⟩
  · rw [after, nodes]
    exact net.forall_put i node _
      (fun j block stage => written_mono grows.turn.grows (knows.nodes j block stage)) grows.added
  · rcases Move.mem_post _ socket message waits with old | ⟨packet, member, rfl⟩
    · exact (knows.channels socket message (channels socket message old)).mono grows.turn.grows
    · exact grows.sent packet member
  · simp only [chainsOf, after, nodes, Network.put_same]
    exact grows.turn
  · simp only [chainsOf, after, nodes, Network.put_other net i j node other]

/-- The step lemma: a step of the network is a step of the tree, which grows by
mining only. -/
theorem knows_step (knows : Knows histories net) (held : ∀ i, (net.nodes i).chain ∈ histories)
    (tracked : Tracked net) (next : Network ι ssl Message) (event : NetEvent ι)
    (stepped : net.step messages event = some next) :
    ∃ later, Knows later next ∧ Step blockLabels (chainsOf net histories) (chainsOf next later) ∧
      ∀ chain ∈ later, chain ∈ histories ∨
        ∃ before block, Mines net event before block ∧ chain = before ++ [block] := by
  obtain ⟨move, moved, rfl⟩ := Option.map_eq_some_iff.mp stepped
  cases move_moves net event move moved with
  | @acted i action node packets acts =>
    have stored := (Contents.inNode_acts (lawful_supply ssl) (tracked.supply.nodes i) acts
      fun _ _ _ _ _ _ => trivial).1
    have minted (block : Block) (stage : node.mining = .added block) : Minted block := by
      have mined := stored.mining
      rw [stage] at mined
      exact mined
    obtain ⟨later, grows⟩ := grows_acts (knows.nodes i) (tracked.honest i) minted acts
    obtain ⟨known, step⟩ := knows_post knows i grows (net.put i node) rfl fun _ _ waits => waits
    refine ⟨later, known, step, fun chain member => ?_⟩
    rcases grows.mined chain member with old | ⟨block, ⟨rfl, adds, same⟩, rfl⟩
    · exact Or.inl old
    · exact Or.inr ⟨_, block, ⟨i, node, rfl, rfl, adds, same⟩, rfl⟩
  | @delivered i fd message rest node packets waiting reacts =>
    have waits : message ∈ net.channel (i, fd) := by simp [waiting]
    have minted (block : Block) (same : message = .newBlock block) : Minted block := by
      have carried := tracked.supply.channels (i, fd) message waits
      subst same
      exact carried
    have grows := grows_reacts (held i) (knows.nodes i) (knows.channels _ message waits)
      (tracked.honest i) minted reacts
    obtain ⟨known, step⟩ := knows_post knows i grows ((net.put i node).drain (i, fd) rest) rfl
      fun socket other there => by
        by_cases here : socket = (i, fd)
        · subst here
          rw [waiting]
          exact List.mem_cons_of_mem _ (by simpa [Network.drain] using there)
        · simpa [Network.drain, here, Network.put] using there
    refine ⟨histories, known, step, fun chain old => Or.inl old⟩
  | @peers _ i packets peers remote greeting =>
    have grows : Grows histories (net.nodes i) { net.nodes i with peers := peers } packets (fun _ => False)
        histories := by
      refine grows_rests _ rfl (knows.nodes i) fun packet member => ?_
      rcases greeting packet member with request | ⟨tx, -, resent⟩
      · rw [request]
        trivial
      · rw [resent]
        trivial
    obtain ⟨known, step⟩ := knows_post knows i grows
      { net.put i { net.nodes i with peers := peers } with remote := remote } rfl fun _ _ waits => waits
    exact ⟨histories, known, step, fun chain old => Or.inl old⟩

/-! ## Whole runs -/

/-- The network as it was reached, with the tree of all chains that were mined
on the way. -/
structure Recorded (start : Network ι ssl Message) (genesis : Block) (mined : Set Block)
    (past : List (NetEvent ι)) (net : Network ι ssl Message) (histories : Set Blockchain) : Prop where
  knows : Knows histories net
  steps : Relation.ReflTransGen (Step blockLabels) (chainsOf start {[genesis]}) (chainsOf net histories)
  mined : written histories ⊆ mined
  origin : ∀ chain ∈ histories, chain = [genesis] ∨ ∃ before block, chain = before ++ [block] ∧
    Once (Network.step messages) (fun net event => Mines net event before block) start past

/-- Before the first step no chain but that of the genesis block is recorded. -/
theorem recorded_start (start : Network ι ssl Message) (started : start.Started) (mined : Set Block) :
    Recorded start genesis mined [] start {[genesis]} := by
  refine ⟨⟨fun i block stage => ?_, fun socket message waits => ?_⟩, .refl, ?_, fun chain member => Or.inl member⟩
  · simp [(started.nodes i).mining] at stage
  · simp [started.channel socket] at waits
  · rintro block ⟨before, nonempty, same⟩
    have lengths := congrArg List.length (Set.mem_singleton_iff.mp same)
    have positive := List.length_pos_iff.mpr nonempty
    simp only [List.length_append, List.length_singleton] at lengths
    omega

/-- The step lemma of the simulation: each step of the network is a turn in the
tree, or leaves all chains as they are, and the tree records what was mined. -/
theorem recorded_step {start : Network ι ssl Message} {mined : Set Block} {past : List (NetEvent ι)}
    (recorded : Recorded start genesis mined past net histories)
    (safe : Safe blockLabels genesis (chainsOf net histories)) (tracked : Tracked net)
    (next : Network ι ssl Message) (event : NetEvent ι)
    (ran : run (Network.step messages) start past = some net)
    (counted : ∀ block, (∃ chain, Mines net event chain block) → block ∈ mined)
    (stepped : net.step messages event = some next) :
    ∃ later, Recorded start genesis mined (past ++ [event]) next later := by
  obtain ⟨later, knows, step, grown⟩ := knows_step recorded.knows safe.held tracked next event stepped
  refine ⟨later, knows, recorded.steps.tail step, ?_, fun chain member => ?_⟩
  · rintro block ⟨before, nonempty, member⟩
    rcases grown _ member with old | ⟨other, last, mines, same⟩
    · exact recorded.mined ⟨before, nonempty, old⟩
    · obtain rfl : block = last := by simpa using (List.append_inj' same rfl).2
      exact counted block ⟨other, mines⟩
  · rcases grown chain member with old | ⟨before, block, mines, rfl⟩
    · rcases recorded.origin chain old with first | ⟨before, block, same, once⟩
      · exact Or.inl first
      · exact Or.inr ⟨before, block, same,
          (once_append (Network.step messages) _ start net past [event] ran).mpr (Or.inl once)⟩
    · exact Or.inr ⟨before, block, rfl,
        (once_append (Network.step messages) _ start net past [event] ran).mpr
          (Or.inr ((once_single _ _ _ _).mpr mines))⟩

/-- What a step leaves can be sent again, so the next step can be followed as
well. -/
theorem tracked_step (tracked : Tracked net) (next : Network ι ssl Message) (event : NetEvent ι)
    (plain : PlainTexts event) (short : ShortLines net.represent event)
    (stepped : net.step messages event = some next) : Tracked next := by
  refine ⟨readable_step net next event tracked.readable plain short stepped,
    Contents.inNetwork_step (lawful_supply ssl) net next event tracked.supply ?_ stepped⟩
  cases event with
  | act i action => cases action <;> simp [Contents.Sends, supplyContents]
  | deliver | connect | accept | closed => trivial

/-- The network of messages takes the steps of the tree. -/
theorem recorded_run (start reached : Network ι ssl Message) (events : List (NetEvent ι))
    (started : start.Started) (created : blockCreateGenesis ssl.sha256 = some genesis) (mined : Set Block)
    (distinct : Set.InjOn blockLabels.name mined)
    (every : Every (Network.step messages) (fun net event => (PlainTexts event ∧ ShortLines net.represent event) ∧
      ∀ block, (∃ chain, Mines net event chain block) → block ∈ mined) start events)
    (ran : run (Network.step messages) start events = some reached) :
    ∃ histories, Recorded start genesis mined events reached histories := by
  refine (run_past (Network.step messages) _
    (fun past net => Tracked net ∧ ∃ histories, Recorded start genesis mined past net histories) start
    ⟨tracked_started _ started, _, recorded_start _ started mined⟩ ?_ reached events every ran).2
  rintro past net event next arrived ⟨tracked, histories, recorded⟩ ⟨⟨plain, short⟩, counts⟩ stepped
  have safe := safe_run (safe_start start started created) recorded.steps (distinct.mono recorded.mined)
  exact ⟨tracked_step tracked next event plain short stepped,
    recorded_step recorded safe tracked next event arrived counts stepped⟩

/-- A block behind the first one was mined on what is before it. -/
theorem Recorded.mines {start : Network ι ssl Message} {mined : Set Block} {past : List (NetEvent ι)}
    (recorded : Recorded start genesis mined past net histories)
    (safe : Safe blockLabels genesis (chainsOf net histories)) (i : ι) (position : Nat) (block : Block)
    (behind : 0 < position) (here : (net.nodes i).chain[position]? = some block) :
    Once (Network.step messages)
      (fun before event => Mines before event ((net.nodes i).chain.take position) block) start past := by
  have inside := (List.getElem?_eq_some_iff.mp here).1
  have member := safe.tree.take_mem _ (safe.held i) position inside
  rw [chainsOf, List.take_add_one, here, Option.toList_some] at member
  rcases recorded.origin _ member with first | ⟨before, last, same, once⟩
  · have lengths := congrArg List.length first
    simp only [List.length_append, List.length_take, List.length_singleton] at lengths
    omega
  · obtain ⟨rfl, single⟩ := List.append_inj' same rfl
    obtain rfl : block = last := by simpa using single
    exact once

/-- In every run of a network of nodes, with plain texts and short lines, in
which no two different blocks with the same hash are mined: every block behind
the first one of a chain was mined by a node that held just the chain before it,
and two chains with the same hash at a position are equal up to there. -/
theorem one_history (start reached : Network ι ssl UInt8) (events : List (NetEvent ι))
    (started : start.Started)
    (every : Every (Network.step bytes) (fun net event => PlainTexts event ∧ ShortLines net event) start events)
    (ran : run (Network.step bytes) start events = some reached)
    (distinct : Set.InjOn (fun block => block.hash) (minedIn start events)) (i : ι) :
    (∀ position block, 0 < position → (reached.nodes i).chain[position]? = some block →
      Once (Network.step bytes)
        (fun net event => Mines net event ((reached.nodes i).chain.take position) block) start events) ∧
      ∀ j position one other, (reached.nodes i).chain[position]? = some one →
        (reached.nodes j).chain[position]? = some other → one.hash = other.hash →
          (reached.nodes i).chain.take (position + 1) = (reached.nodes j).chain.take (position + 1) := by
  obtain ⟨genesis, created, -⟩ := Option.map_eq_some_iff.mp (started.nodes i).chain
  have counted := every_once (Network.step bytes) (fun block net event => ∃ chain, Mines net event chain block)
    (minedIn start events) start events fun _ once => once
  have both := every_and (Network.step bytes) _ _ start events every counted
  generalize minedIn start events = mined at distinct both
  rw [← represent_quiet start started.channel] at both ran ⊢
  have quiet := quiet_started start started
  obtain ⟨agree, each⟩ := run_represent _ (fun _ _ met => met.1.1) (fun _ _ met => met.1.2) start.quiet events
    (readable_started _ quiet) both
  rw [agree] at ran
  obtain ⟨typed, typedRan, rfl⟩ := Option.map_eq_some_iff.mp ran
  obtain ⟨histories, recorded⟩ := recorded_run start.quiet typed events quiet created mined distinct each typedRan
  have unique := distinct.mono recorded.mined
  have begun := safe_start start.quiet quiet created
  constructor
  · intro position block behind here
    refine once_map (Network.step bytes) (Network.step messages) Network.represent _ _ Readable
      (fun net event readable _ => step_represent net event readable.deliverable)
      (fun net event next readable met stepped =>
        readable_step net next event readable met.1.1 met.1.2 stepped)
      start.quiet events (readable_started _ quiet) both ?_
    exact recorded.mines (safe_run begun recorded.steps unique) i position block behind here
  · intro j position one other here there names
    exact agree_run begun recorded.steps unique i j position here there names

/-! ## An example -/

/-- The last block after a step that adds a mined one, or fails to. -/
def lastAdded (net : Network ι ssl α) : NetEvent ι → List Block
  | .act i .mineAdd => ((mineAdd (net.nodes i)).bind fun node => node.chain.getLast?).toList
  | _ => []

/-- The blocks that are mined in a run are among these. -/
theorem minedIn_lastAdded (start : Network ι ssl UInt8) (events : List (NetEvent ι)) :
    minedIn start events ⊆ {block | block ∈ collect (Network.step bytes) lastAdded start events} := by
  intro block
  refine once_collect (Network.step bytes) lastAdded _ block ?_ start events
  rintro net event ⟨chain, i, node, rfl, -, adds, grown⟩
  simp [lastAdded, adds, grown]

/-- Two processes connect. The first one mines, the second one takes the block
and mines on it, and the first one takes that block. The two blocks have
different hashes, which is the hypothesis of the result. -/
theorem one_history_here : ∃ (events : List (NetEvent (Fin 2))) (reached : Network (Fin 2) stubSsl UInt8)
    (block : Block), run (Network.step bytes) (pair UInt8) events = some reached ∧
      (reached.nodes 0).chain[2]? = some block ∧
      Once (Network.step bytes) (fun net event => Mines net event ((reached.nodes 0).chain.take 2) block)
        (pair UInt8) events ∧
      (reached.nodes 0).chain.take 3 = (reached.nodes 1).chain.take 3 := by
  let events : List (NetEvent (Fin 2)) := [.connect 0 3 1 4, .accept 1 4, .act 0 (.mineTip 192),
    .act 0 .mineSelect, .act 0 .mineAdd, .act 0 .mineBroadcast, .deliver 1 4, .deliver 1 4, .deliver 1 4,
    .act 1 (.mineTip 288), .act 1 .mineSelect, .act 1 .mineAdd, .act 1 .mineBroadcast, .deliver 0 3, .deliver 0 3,
    .deliver 0 3, .deliver 0 3]
  have evaluated : ((run (Network.step messages) (pair Message) events).bind fun net =>
      (net.nodes 0).chain[2]?.bind fun one => (net.nodes 1).chain[2]?.map fun other => decide (one.hash = other.hash)) =
        some true := by decide +kernel
  obtain ⟨typed, typedRan, evaluated⟩ := Option.bind_eq_some_iff.mp evaluated
  obtain ⟨block, here, evaluated⟩ := Option.bind_eq_some_iff.mp evaluated
  obtain ⟨other, there, same⟩ := Option.map_eq_some_iff.mp evaluated
  obtain ⟨every, ran⟩ := pair_run events typed (by decide) (by simp [events, PlainTexts]) typedRan
  have distinct : Set.InjOn (fun block => block.hash) (minedIn (pair UInt8) events) := by
    refine Set.InjOn.mono (minedIn_lastAdded _ _) ?_
    have collected := collect_map (Network.step bytes) (Network.step messages) lastAdded Network.represent
      (fun net event => PlainTexts event ∧ ShortLines net event) Readable
      (fun net event readable _ => step_represent net event readable.deliverable)
      (fun net event next readable met stepped => readable_step net next event readable met.1 met.2 stepped)
      (pair Message) events (readable_started _ (pair_started Message)) every
    have two : ∀ one ∈ collect (Network.step messages) (fun net event => lastAdded net.represent event)
        (pair Message) events, ∀ other ∈ collect (Network.step messages)
          (fun net event => lastAdded net.represent event) (pair Message) events,
          one.hash = other.hash → one = other := by decide +kernel
    rw [← collected] at two
    exact fun one first other second names => two one first other second names
  obtain ⟨mined, agree⟩ := one_history (pair UInt8) typed.represent events (pair_started UInt8) every ran distinct 0
  exact ⟨events, typed.represent, block, ran, here, mined 2 block (by decide) here,
    agree 1 2 block other here there (of_decide_eq_true same)⟩

end MiniCoin
