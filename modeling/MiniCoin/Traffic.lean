import MiniCoin.Supply
import Mathlib.Algebra.BigOperators.Group.Finset.Basic

/-!
# How much the nodes talk

A node sends without being told to by its user only when it answers a request or a ping, and when
it forwards a block that it has just appended. An answer asks for nothing, and a chain has room for
every block once. So the messages that are handled in a run can be charged to what the users do, to
connections, and to the blocks by which the chains grow, whatever the connections look like and in
whatever order the messages arrive.
-/

namespace MiniCoin

open ByteStrings Runs

variable {ι : Type} {ssl : OpenSSL}

/-! ## What is counted -/

/-- The handling of one line. -/
def NetEvent.isDelivery : NetEvent ι → Bool
  | .deliver _ _ => true
  | _ => false

/-- One for each line is the number of lines. -/
theorem sum_isDelivery (events : List (NetEvent ι)) :
    (events.map fun event => event.isDelivery.toNat).sum = events.countP NetEvent.isDelivery := by
  induction events with
  | nil => rfl
  | cons event rest ih =>
    rw [List.map_cons, List.sum_cons, ih, List.countP_cons]
    cases event.isDelivery <;> simp [Nat.add_comm]

/-- The socket that an event reads from. -/
def NetEvent.readsFrom : NetEvent ι → Option (ι × Nat)
  | .deliver i fd => some (i, fd)
  | _ => none

/-- What an event may bring in: a broadcast goes to every peer, a connection is
greeted with the mempool and asked for its chain, by `add_peer` and once more by
`node_connect_peer`. Requests are counted with their answers. -/
def NetEvent.allowance : NetEvent ι → Nat
  | .act _ (.send _ _ _) | .act _ .mineBroadcast => maxPeers
  | .accept _ _ => 2 + mempoolSize
  | .connect _ _ _ _ => 4 + mempoolSize
  | _ => 0

/-- A message and its answer, if there is one. -/
def Message.weight : Message → Nat
  | .requestChain | .ping => 2
  | .newBlock _ | .newTx _ | .chainResponse _ | .pong => 1

/-- Every message counts. -/
theorem Message.weight_pos (message : Message) : 1 ≤ message.weight := by
  cases message <;> simp [Message.weight]

/-- The messages of a step with their answers. -/
def weightOf (packets : List Packet) : Nat := (packets.map fun packet => packet.message.weight).sum

/-- Nothing weighs nothing. -/
@[simp] theorem weightOf_nil : weightOf [] = 0 := rfl

/-- Weights add up. -/
theorem weightOf_append (first second : List Packet) :
    weightOf (first ++ second) = weightOf first + weightOf second := by
  simp [weightOf]

/-- The same light message to several descriptors. -/
theorem weightOf_copies (fds : List Nat) (message : Message) (light : message.weight = 1) :
    weightOf (fds.map fun fd => ⟨fd, message⟩) = fds.length := by
  simp [weightOf, Function.comp_def, light]

/-- What waits at some sockets, with the answers that it will cause. -/
def load (sockets : Finset (ι × Nat)) (net : Network ι ssl Message) : Nat :=
  ∑ socket ∈ sockets, ((net.channel socket).map Message.weight).sum

/-! ## The tables are bounded -/

/-- A node has at most `MAX_PEERS` peers and `MEMPOOL_SIZE` transactions, so a
broadcast or a greeting sends a bounded number of messages. -/
structure WithinTables (node : Node ssl) : Prop where
  peers : node.peers.length ≤ maxPeers
  mempool : node.mempool.length ≤ mempoolSize

/-- At the start the tables are empty. -/
theorem withinTables_started (node : Node ssl) (started : Started node) : WithinTables node := by
  constructor
  · simp [started.peers]
  · simp [started.mempool]

/-- A transaction enters the mempool only while there is room. -/
theorem withinTables_onNewTx {node : Node ssl} (within : WithinTables node) (tx : Tx) :
    WithinTables (onNewTx node tx) := by
  refine ⟨by rw [onNewTx_peers]; exact within.peers, ?_⟩
  unfold onNewTx
  split
  · next room =>
    simp only [List.length_append, List.length_singleton]
    omega
  · exact within.mempool

/-- Nothing that a user does overfills a table. -/
theorem withinTables_acts {node next : Node ssl} {action : Action} {packets : List Packet}
    (within : WithinTables node) (acts : Acts node action next packets) : WithinTables next := by
  cases acts with
  | refused | tip | added | abandoned | announced => exact ⟨within.peers, within.mempool⟩
  | sent idle made => exact withinTables_onNewTx within _
  | selected read => exact ⟨within.peers, by simp⟩

/-- Nor anything that is received. -/
theorem withinTables_reacts {node next : Node ssl} {fd : Nat} {message : Message} {packets : List Packet}
    (within : WithinTables node) (reacts : Reacts node fd message next packets) : WithinTables next := by
  cases reacts with
  | nothing | block | request | chain | ping => exact ⟨within.peers, within.mempool⟩
  | tx tx => exact withinTables_onNewTx within tx

/-- Nobody is told more than once by a broadcast. -/
theorem activeFds_le {node : Node ssl} (within : WithinTables node) : (activeFds node).length ≤ maxPeers := by
  rw [activeFds, List.length_map]
  exact (List.length_filter_le _ _).trans within.peers

/-- A block goes to every peer at most once, and needs no answer. -/
theorem broadcastBlock_le {node : Node ssl} (within : WithinTables node) (block : Block) (except : Option Nat) :
    weightOf (broadcastBlockExcept node block except) ≤ maxPeers := by
  rw [broadcastBlockExcept, weightOf_copies _ _ rfl]
  exact (List.length_filter_le _ _).trans (activeFds_le within)

/-- So does a transaction. -/
theorem broadcastTx_le {node : Node ssl} (within : WithinTables node) (tx : Tx) :
    weightOf (nodeBroadcastTx node tx) ≤ maxPeers := by
  rw [nodeBroadcastTx, weightOf_copies _ _ rfl]
  exact activeFds_le within

/-- A request and its answer. -/
theorem nodeRequestChain_le (node : Node ssl) (idx : Nat) : weightOf (nodeRequestChain node idx) ≤ 2 := by
  unfold nodeRequestChain
  split
  · split <;> simp [weightOf, Message.weight]
  · simp [weightOf]

/-- A new peer is asked for its chain and gets the mempool. -/
theorem addPeer_within {node : Node ssl} (within : WithinTables node) (fd : Nat) :
    WithinTables (addPeer node fd).1 ∧ (addPeer node fd).1.chain = node.chain ∧
      weightOf (addPeer node fd).2 ≤ 2 + mempoolSize := by
  unfold addPeer
  split_ifs with full
  · exact ⟨within, rfl, by simp [weightOf]⟩
  · refine ⟨⟨?_, within.mempool⟩, rfl, ?_⟩
    · simp only [List.length_append, List.length_singleton]
      omega
    · have asked := nodeRequestChain_le ({ node with peers := node.peers ++ [⟨fd, true⟩] } : Node ssl) node.peers.length
      have greeted : weightOf (node.mempool.map fun tx => ⟨fd, .newTx tx⟩) = node.mempool.length := by
        simp [weightOf, Function.comp_def, Message.weight]
      have entries := within.mempool
      rw [weightOf_append, onPeerConnected, greeted]
      omega

/-- Who connects asks for the chain twice, once in `add_peer` and once by
itself. -/
theorem nodeConnectPeer_within {node : Node ssl} (within : WithinTables node) (fd : Nat) :
    WithinTables (nodeConnectPeer node fd).1 ∧ (nodeConnectPeer node fd).1.chain = node.chain ∧
      weightOf (nodeConnectPeer node fd).2 ≤ 4 + mempoolSize := by
  obtain ⟨bounded, chain, weight⟩ := addPeer_within within fd
  unfold nodeConnectPeer
  generalize addPeer node fd = added at bounded chain weight ⊢
  obtain ⟨grown, packets⟩ := added
  dsimp only at bounded chain weight ⊢
  split_ifs
  · exact ⟨bounded, chain, weight.trans (by omega)⟩
  · refine ⟨bounded, chain, ?_⟩
    have again := nodeRequestChain_le grown (grown.peers.length - 1)
    rw [weightOf_append]
    omega

/-! ## What one node sends -/

/-- What an action sends is allowed for, and no chain gets shorter. -/
theorem acts_allowed (i : ι) {node next : Node ssl} {action : Action} {packets : List Packet}
    (within : WithinTables node) (acts : Acts node action next packets) :
    weightOf packets ≤ (NetEvent.act i action).allowance ∧ node.chain.length ≤ next.chain.length := by
  cases acts with
  | refused | tip | selected | abandoned => exact ⟨Nat.zero_le _, Nat.le_refl _⟩
  | sent idle made => exact ⟨broadcastTx_le within _, by rw [onNewTx_chain]⟩
  | added filled found accepted =>
    obtain ⟨-, rfl⟩ := extends_of_chainAddBlock _ _ _ _ accepted
    exact ⟨Nat.zero_le _, by simp⟩
  | announced added => exact ⟨broadcastBlock_le within _ _, Nat.le_refl _⟩

/-- A reaction sends less than it was given, unless a chain has grown: then it
tells the peers. -/
theorem reacts_paid {node next : Node ssl} {fd : Nat} {message : Message} {packets : List Packet}
    (within : WithinTables node) (reacts : Reacts node fd message next packets) :
    1 + weightOf packets + maxPeers * node.chain.length ≤ message.weight + maxPeers * next.chain.length := by
  have positive := message.weight_pos
  cases reacts with
  | nothing => simpa using positive
  | block accepted =>
    obtain ⟨-, rfl⟩ := extends_of_chainAddBlock _ _ _ _ accepted
    have told := broadcastBlock_le within ‹Block› (some fd)
    simp only [List.length_append, List.length_singleton, Nat.mul_add, Message.weight]
    omega
  | tx tx => simp [onNewTx_chain, Message.weight]
  | request | ping => simp [weightOf, Message.weight]
  | chain accepted =>
    obtain ⟨longer, -, rfl⟩ := (chainReplace_iff _ _ _ _).mp accepted
    have more := Nat.mul_le_mul_left maxPeers (Nat.le_of_lt longer)
    simp only [weightOf_nil, Message.weight]
    omega

/-! ## What waits -/

variable [DecidableEq ι]

/-- A message is put into one channel at most. -/
theorem load_post (sockets : Finset (ι × Nat)) (sender : ι) (net : Network ι ssl Message) (packet : Packet) :
    load sockets (net.post messages sender packet) ≤ load sockets net + packet.message.weight := by
  unfold Network.post
  cases far : net.remote (sender, packet.fd) with
  | none => exact Nat.le_add_right _ _
  | some target =>
    have grown (socket : ι × Nat) :
        ((Function.update net.channel target
            (net.channel target ++ (messages : Transport ssl Message).encode packet.message) socket).map
              Message.weight).sum =
          ((net.channel socket).map Message.weight).sum +
            if socket = target then packet.message.weight else 0 := by
      by_cases same : socket = target
      · subst same
        simp [messages]
      · simp [same]
    simp only [load, grown, Finset.sum_add_distrib, Finset.sum_ite_eq']
    split_ifs <;> omega

/-- Sending adds the weight of what is sent, or less if a descriptor leads
nowhere. -/
theorem load_sent (sockets : Finset (ι × Nat)) (move : Move ι ssl Message) :
    load sockets (move.post messages) ≤ load sockets move.net + weightOf move.packets := by
  obtain ⟨net, sender, packets⟩ := move
  unfold Move.post
  induction packets generalizing net with
  | nil => simp
  | cons packet rest ih =>
    have first := load_post sockets sender net packet
    have others := ih (net.post messages sender packet)
    simp only [List.foldl_cons, weightOf, List.map_cons, List.sum_cons] at others ⊢
    omega

/-- A message that is taken from a channel waits there no longer. -/
theorem load_drain (sockets : Finset (ι × Nat)) (net : Network ι ssl Message) (socket : ι × Nat)
    (message : Message) (rest : List Message) (member : socket ∈ sockets)
    (waiting : net.channel socket = message :: rest) :
    load sockets (net.drain socket rest) + message.weight = load sockets net := by
  have others : ∀ other ∈ sockets.erase socket,
      (((net.drain socket rest).channel other).map Message.weight).sum =
        ((net.channel other).map Message.weight).sum := by
    intro other there
    simp only [Network.drain, Function.update_of_ne (Finset.ne_of_mem_erase there)]
  have here : (((net.drain socket rest).channel socket).map Message.weight).sum + message.weight =
      ((net.channel socket).map Message.weight).sum := by
    simp only [Network.drain, Function.update_self, waiting, List.map_cons, List.sum_cons, Nat.add_comm]
  rw [load, load, ← Finset.add_sum_erase sockets _ member, ← Finset.add_sum_erase sockets _ member,
    Finset.sum_congr rfl others]
  omega

/-! ## What a step costs -/

variable [Fintype ι]

/-- The blocks in all chains. -/
def held {α : Type} (net : Network ι ssl α) : Nat := ∑ i, (net.nodes i).chain.length

/-- Changing one node changes the sum by the change of its chain. -/
theorem held_put {α : Type} (net : Network ι ssl α) (i : ι) (node : Node ssl) :
    held (net.put i node) + (net.nodes i).chain.length = held net + node.chain.length := by
  have others : ∀ j ∈ Finset.univ.erase i,
      ((net.put i node).nodes j).chain.length = (net.nodes j).chain.length := by
    intro j other
    rw [Network.put_other net i j node (Finset.ne_of_mem_erase other)]
  rw [held, held, ← Finset.add_sum_erase Finset.univ _ (Finset.mem_univ i),
    ← Finset.add_sum_erase Finset.univ _ (Finset.mem_univ i), Finset.sum_congr rfl others, Network.put_same]
  omega

/-- One node has changed, and what its messages weigh is paid for. -/
theorem paid_of_put (sockets : Finset (ι × Nat)) (net : Network ι ssl Message) (move : Move ι ssl Message)
    (i : ι) (node : Node ssl) (nodes : move.net.nodes = (net.put i node).nodes) (cost used allowance : Nat)
    (taken : load sockets move.net + used = load sockets net)
    (paid : cost + weightOf move.packets + maxPeers * (net.nodes i).chain.length ≤
      used + allowance + maxPeers * node.chain.length) :
    cost + load sockets (move.post messages) + maxPeers * held net ≤
      load sockets net + allowance + maxPeers * held (move.post messages) := by
  have sent := load_sent sockets move
  have same : held (move.post messages) = held (net.put i node) := by
    simp only [held, (move.post_nodes messages).1, nodes]
  have change := congrArg (maxPeers * ·) (held_put net i node)
  simp only [Nat.mul_add] at change
  rw [same]
  omega

/-- The step lemma: what is handled and what waits then is paid for by what
waited, by the allowance of the event and by the growth of the chains. -/
theorem step_paid (sockets : Finset (ι × Nat)) (net next : Network ι ssl Message) (event : NetEvent ι)
    (within : ∀ i, WithinTables (net.nodes i)) (reads : ∀ socket, event.readsFrom = some socket → socket ∈ sockets)
    (stepped : net.step messages event = some next) :
    (∀ i, WithinTables (next.nodes i)) ∧
      event.isDelivery.toNat + load sockets next + maxPeers * held net ≤
        load sockets net + event.allowance + maxPeers * held next := by
  obtain ⟨move, moved, rfl⟩ := Option.map_eq_some_iff.mp stepped
  rw [(move.post_nodes messages).1]
  cases event with
  | act i action =>
    obtain ⟨⟨node, packets⟩, acted, rfl⟩ := Option.map_eq_some_iff.mp moved
    have acts := act_acts _ _ _ _ acted
    obtain ⟨allowed, longer⟩ := acts_allowed i (within i) acts
    have more := Nat.mul_le_mul_left maxPeers longer
    refine ⟨net.forall_put i node WithinTables within (withinTables_acts (within i) acts),
      paid_of_put sockets net _ i node rfl 0 0 _ rfl ?_⟩
    dsimp only
    omega
  | deliver i fd =>
    obtain ⟨-, message, rest, waiting, rfl⟩ := move_of_deliver net move i fd moved
    have reacts := react_reacts (net.nodes i) fd message
    refine ⟨net.forall_put i _ WithinTables within (withinTables_reacts (within i) reacts),
      paid_of_put sockets net _ i (react (net.nodes i) fd message).1 rfl 1 message.weight 0 ?_ ?_⟩
    · exact load_drain sockets (net.put i _) (i, fd) message rest (reads _ rfl) waiting
    · exact reacts_paid (within i) reacts
  | connect i fd j fd' =>
    simp only [Network.move] at moved
    split_ifs at moved
    obtain rfl := Option.some.inj moved
    obtain ⟨bounded, chain, weight⟩ := nodeConnectPeer_within (within i) fd
    refine ⟨net.forall_put i _ WithinTables within bounded,
      paid_of_put sockets net _ i (nodeConnectPeer (net.nodes i) fd).1 rfl 0 0 _ rfl ?_⟩
    simp only [chain, NetEvent.allowance]
    omega
  | accept j fd' =>
    simp only [Network.move] at moved
    split_ifs at moved
    obtain rfl := Option.some.inj moved
    obtain ⟨bounded, chain, weight⟩ := addPeer_within (within j) fd'
    refine ⟨net.forall_put j _ WithinTables within bounded,
      paid_of_put sockets net _ j (addPeer (net.nodes j) fd').1 rfl 0 0 _ rfl ?_⟩
    simp only [chain, NetEvent.allowance]
    omega
  | closed i fd =>
    simp only [Network.move] at moved
    split_ifs at moved
    obtain rfl := Option.some.inj moved
    refine ⟨net.forall_put i _ WithinTables within ⟨?_, (within i).mempool⟩,
      paid_of_put sockets net _ i (peerClosed (net.nodes i) fd) rfl 0 0 _ rfl ?_⟩
    · simpa [peerClosed] using (within i).peers
    · simp [peerClosed]

/-! ## Whole runs -/

/-- In every run of a network of nodes, with plain texts and short lines, the
lines that are handled are no more than what the users' broadcasts and the
connections allow for, and `MAX_PEERS` for each block by which a chain has
grown. For each node these are less than `MAX_BLOCKS`. -/
theorem deliveries_bounded (start reached : Network ι ssl UInt8) (events : List (NetEvent ι))
    (started : start.Started)
    (every : Every (Network.step bytes) (fun net event => PlainTexts event ∧ ShortLines net event) start events)
    (ran : run (Network.step bytes) start events = some reached) :
    events.countP NetEvent.isDelivery ≤ (events.map NetEvent.allowance).sum +
        maxPeers * ∑ i, ((reached.nodes i).chain.length - (start.nodes i).chain.length) ∧
      ∀ i, (reached.nodes i).chain.length - (start.nodes i).chain.length < maxBlocks := by
  rw [← represent_quiet start started.channel] at every ran
  obtain ⟨typed, typedRan, rfl, tracked⟩ := tracked_run start.quiet reached events
    (tracked_started _ (quiet_started start started)) every ran
  -- only the sockets that the run reads from are looked at
  let sockets : Finset (ι × Nat) := (events.filterMap NetEvent.readsFrom).toFinset
  have accounts := total_le_income (Network.step messages) (fun _ event => event.isDelivery.toNat)
    (fun _ event => event.allowance) (fun net => load sockets net - maxPeers * held net)
    (fun _ event => ∀ socket, event.readsFrom = some socket → socket ∈ sockets)
    (fun net => ∀ i, WithinTables (net.nodes i))
    (fun net event next within reads stepped => (step_paid sockets net next event within reads stepped).1)
    (fun net event next within reads stepped => by
      have paid := (step_paid sockets net next event within reads stepped).2
      omega)
    start.quiet typed events (fun i => withinTables_started _ (started.nodes i))
    (every_of_mem _ _ _ _ fun event member socket reads =>
      List.mem_toFinset.mpr (List.mem_filterMap.mpr ⟨event, member, reads⟩))
    typedRan
  have empty : load sockets start.quiet = 0 := by simp [load, Network.quiet]
  rw [total_labels (Network.step messages) (fun event => event.isDelivery.toNat) _ _ _ typedRan,
    total_labels (Network.step messages) NetEvent.allowance _ _ _ typedRan, empty, sum_isDelivery] at accounts
  -- no chain has become shorter than the genesis chain of the start
  have single (i : ι) : (start.nodes i).chain.length = 1 := by
    obtain ⟨genesis, -, same⟩ := Option.map_eq_some_iff.mp (started.nodes i).chain
    rw [← same]
    rfl
  have longer (i : ι) : 1 ≤ (typed.nodes i).chain.length := by
    obtain ⟨genesis, -, first⟩ := (tracked.honest i).start
    obtain ⟨rest, same⟩ := List.head?_eq_some_iff.mp first
    simp [same]
  have gained : (∑ i, ((typed.nodes i).chain.length - (start.nodes i).chain.length)) + held start.quiet =
      held typed := by
    rw [held, held, ← Finset.sum_add_distrib]
    refine Finset.sum_congr rfl fun i _ => ?_
    have here : (start.quiet.nodes i).chain.length = (start.nodes i).chain.length := rfl
    rw [here, single]
    exact Nat.sub_add_cancel (longer i)
  constructor
  · change _ ≤ _ + maxPeers * ∑ i, ((typed.nodes i).chain.length - (start.nodes i).chain.length)
    have scaled := congrArg (maxPeers * ·) gained
    simp only [Nat.mul_add] at scaled
    omega
  · intro i
    have bound := (tracked.honest i).bounded
    have positive := longer i
    rw [single]
    change (typed.nodes i).chain.length - 1 < maxBlocks
    omega

/-- Two processes connect and exchange their chains. The bound counts the
greetings and the answers to them. -/
theorem deliveries_bounded_here : ∃ (events : List (NetEvent (Fin 2))) (reached : Network (Fin 2) stubSsl UInt8),
    run (Network.step bytes) (pair UInt8) events = some reached ∧ events.countP NetEvent.isDelivery = 4 ∧
      events.countP NetEvent.isDelivery ≤ (events.map NetEvent.allowance).sum +
        maxPeers * ∑ i, ((reached.nodes i).chain.length - ((pair UInt8).nodes i).chain.length) := by
  let events : List (NetEvent (Fin 2)) :=
    [.connect 0 3 1 4, .accept 1 4, .deliver 1 4, .deliver 0 3, .deliver 1 4, .deliver 0 3]
  have evaluated : (run (Network.step messages) (pair Message) events).isSome = true := by decide +kernel
  obtain ⟨typed, typedRan⟩ := Option.isSome_iff_exists.mp evaluated
  obtain ⟨every, ran⟩ := pair_run events typed (by decide) (by simp [events, PlainTexts]) typedRan
  exact ⟨events, typed.represent, ran, rfl,
    (deliveries_bounded (pair UInt8) typed.represent events (pair_started UInt8) every ran).1⟩

end MiniCoin
