import MiniCoin.Spreading
import Mathlib.Combinatorics.SimpleGraph.DegreeSum

/-!
# Flooding a block

The miner of a block sends it to its active peers, and a node that accepts it sends it to all
of them except the one that it came from. A node that has the block refuses it, since its tip
has the same index. So every node sends the block at most once, and when nothing is under way,
every neighbour of a node that has sent it has it, too.
-/

namespace MiniCoin

open ByteStrings Runs

variable {ι : Type} {ssl : OpenSSL} {α : Type}

/-! ## What is counted -/

/-- The messages that are counted. -/
def isNewBlock : Message → Bool
  | .newBlock _ => true
  | _ => false

variable [DecidableEq ι]

/-- `MSG_NEW_BLOCK` messages that a step sends, counted for the whole
network. -/
def blocksSent (net : Network ι ssl UInt8) (event : NetEvent ι) : Nat :=
  match net.move bytes event with
  | none => 0
  | some move => move.packets.countP fun packet => isNewBlock packet.message

/-- Whether the node sends blocks in a step. -/
def forwards (i : ι) (net : Network ι ssl UInt8) (event : NetEvent ι) : Nat :=
  match net.move bytes event with
  | none => 0
  | some move => if move.sender = i ∧ ∃ packet ∈ move.packets, isNewBlock packet.message then 1 else 0

/-- Whether the chain of the node changes in a step. -/
def appends (i : ι) (net : Network ι ssl UInt8) (event : NetEvent ι) : Nat :=
  match net.step bytes event with
  | none => 0
  | some next => if (next.nodes i).chain = (net.nodes i).chain then 0 else 1

/-- The origin broadcasts, users send, and lines are delivered. -/
def FloodEvent (origin : ι) : NetEvent ι → Prop
  | .act i .mineBroadcast => i = origin
  | .act _ (.send _ _ _) | .deliver _ _ => True
  | _ => False

/-! ## The invariant -/

/-- The node has the block and has sent it. No node does so twice. -/
def Told (origin : ι) (block : Block) (grown : Blockchain) (net : Network ι ssl α) (i : ι) : Prop :=
  (net.nodes i).chain = grown ∧ (i = origin → (net.nodes i).mining ≠ .added block)

instance (origin : ι) (block : Block) (grown : Blockchain) (net : Network ι ssl α) :
    DecidablePred (Told origin block grown net) := fun _ => inferInstanceAs (Decidable (_ ∧ (_ → _)))

/-- Payments and copies of the block are under way, the copies from nodes that
have it. A node that has sent the block has only neighbours that have it or will
get it. -/
structure Floods (graph : SimpleGraph ι) (fd : ι → ι → Nat) (chain : Blockchain) (block : Block)
    (origin : ι) (net : Network ι ssl Message) : Prop where
  wired : Wired graph fd net
  follows : Extends ssl.sha256 chain block
  plain : block.Plain
  node : ∀ i, (net.nodes i).chain = chain ∨ (net.nodes i).chain = chain ++ [block]
  mined : (net.nodes origin).chain = chain ++ [block]
  stage : ∀ added, (net.nodes origin).mining = .added added → added = block
  waiting : ∀ socket, ∀ message ∈ net.channel socket,
    (message = .newBlock block ∧
      ∃ j, graph.Adj socket.1 j ∧ socket.2 = fd socket.1 j ∧ (net.nodes j).chain = chain ++ [block]) ∨
        ((∃ tx, message = .newTx tx) ∧ Faithful ssl message)
  covered : ∀ i j, Told origin block (chain ++ [block]) net i → graph.Adj i j →
    (net.nodes j).chain = chain ++ [block] ∨ .newBlock block ∈ net.channel (j, fd j i)

/-- The forms of a step of the flood: no block is sent or accepted, or a node
that has not sent the block has it and sends it. -/
inductive FloodStep (origin : ι) (block : Block) (grown : Blockchain) (net : Network ι ssl Message)
    (move : Move ι ssl Message) : Prop where
  | kept (chains : ∀ k, (move.net.nodes k).chain = (net.nodes k).chain)
      (minings : ∀ k, (move.net.nodes k).mining = (net.nodes k).mining)
      (silent : ∀ packet ∈ move.packets, isNewBlock packet.message = false)
  | told (i : ι) (sender : move.sender = i) (before : ¬ Told origin block grown net i)
      (after : Told origin block grown move.net i)
      (few : move.packets.length ≤ (activeFds (net.nodes i)).length)
      (others : ∀ k, k ≠ i → move.net.nodes k = net.nodes k)

variable {graph : SimpleGraph ι} {fd : ι → ι → Nat} {chain : Blockchain} {block : Block} {origin : ι}
  {net : Network ι ssl Message}

omit [DecidableEq ι] in
theorem told_congr {β : Type} {grown : Blockchain} {one : Network ι ssl α} {other : Network ι ssl β}
    (i : ι) (chains : (other.nodes i).chain = (one.nodes i).chain)
    (minings : (other.nodes i).mining = (one.nodes i).mining) :
    Told origin block grown other i ↔ Told origin block grown one i := by
  rw [Told, Told, chains, minings]

/-! ## One node -/

omit [DecidableEq ι] in
/-- A block is not accepted twice. -/
theorem not_extends_twice (sha : Sha256) (chain : Blockchain) (block : Block) :
    ¬ Extends sha (chain ++ [block]) block := by
  rintro ⟨-, last, tip, index, -⟩
  rw [List.getLast?_concat, Option.some.injEq] at tip
  subst tip
  simp at index

/-- A node that has the block refuses it and sends nothing. -/
theorem react_refused (node : Node ssl) (n : Nat) (has : node.chain = chain ++ [block]) :
    react node n (.newBlock block) = (node, []) := by
  cases accepted : chainAddBlock ssl.sha256 node.chain block with
  | none => simp [react, accepted]
  | some grown =>
    obtain ⟨follows, -⟩ := extends_of_chainAddBlock _ _ _ _ accepted
    rw [has] at follows
    exact absurd follows (not_extends_twice _ _ _)

/-- A node without it appends it, and sends it to all peers but the one it came
from. -/
theorem react_accepted (node : Node ssl) (n : Nat) (old : node.chain = chain)
    (follows : Extends ssl.sha256 chain block) :
    react node n (.newBlock block) =
      ({ node with chain := chain ++ [block] }, broadcastBlockExcept node block (some n)) := by
  have accepted := chainAddBlock_of_extends _ _ _ follows
  simp only [react, old, accepted]

/-- Whoever a node sends the block to. -/
theorem mem_broadcast (node : Node ssl) (block : Block) (except : Option Nat) (packet : Packet) :
    packet ∈ broadcastBlockExcept node block except ↔
      packet.fd ∈ activeFds node ∧ some packet.fd ≠ except ∧ packet.message = .newBlock block := by
  simp only [broadcastBlockExcept, List.mem_map, List.mem_filter, decide_eq_true_eq]
  constructor
  · rintro ⟨n, ⟨active, other⟩, rfl⟩
    exact ⟨active, other, rfl⟩
  · rintro ⟨active, other, same⟩
    exact ⟨packet.fd, ⟨active, other⟩, by rw [← same]⟩

/-- One message for each active peer at most. -/
theorem broadcast_length (node : Node ssl) (block : Block) (except : Option Nat) :
    (broadcastBlockExcept node block except).length ≤ (activeFds node).length := by
  rw [broadcastBlockExcept, List.length_map]
  exact List.length_filter_le _ _

/-! ## The step lemma -/

omit [DecidableEq ι] in
/-- Nodes keep their chains, and no copy of the block gets lost on its way to a
node that needs it. -/
theorem floods_kept (floods : Floods graph fd chain block origin net) (next : Network ι ssl Message)
    (wired : Wired graph fd next) (chains : ∀ k, (next.nodes k).chain = (net.nodes k).chain)
    (minings : ∀ k, (next.nodes k).mining = (net.nodes k).mining)
    (fewer : ∀ socket, ∀ message ∈ next.channel socket, message ∈ net.channel socket ∨
      ((∃ tx, message = .newTx tx) ∧ Faithful ssl message))
    (comes : ∀ socket, .newBlock block ∈ net.channel socket → .newBlock block ∈ next.channel socket ∨
      (net.nodes socket.1).chain = chain ++ [block]) :
    Floods graph fd chain block origin next := by
  refine ⟨wired, floods.follows, floods.plain, fun k => ?_, ?_, ?_, fun socket message member => ?_,
    fun k j told adjacent => ?_⟩
  · rw [chains]
    exact floods.node k
  · rw [chains]
    exact floods.mined
  · rw [minings]
    exact floods.stage
  · simp only [chains]
    rcases fewer socket message member with old | payment
    · exact floods.waiting socket message old
    · exact Or.inr payment
  · rw [Told, chains, minings] at told
    rw [chains]
    rcases floods.covered k j told adjacent with there | waits
    · exact Or.inl there
    · exact (comes (j, fd j k) waits).symm

/-- A payment changes the mempool only. -/
theorem put_onNewTx_same (net : Network ι ssl α) (i : ι) (tx : Tx) (k : ι) :
    ((net.put i (onNewTx (net.nodes i) tx)).nodes k).chain = (net.nodes k).chain ∧
      ((net.put i (onNewTx (net.nodes i) tx)).nodes k).mining = (net.nodes k).mining := by
  by_cases same : k = i
  · subst same
    rw [Network.put_same]
    exact ⟨onNewTx_chain _ _, onNewTx_mining _ _⟩
  · rw [Network.put_other net i k _ same]
    exact ⟨rfl, rfl⟩

/-- A user sends. -/
theorem floods_sent (floods : Floods graph fd chain block origin net) (i : ι) (receiver : Token)
    (amount fee : UInt64) (tx : Tx) (made : doSendTx (net.nodes i) receiver amount fee = some tx) :
    Floods graph fd chain block origin (Move.post messages
      ⟨net.put i (onNewTx (net.nodes i) tx), i, nodeBroadcastTx (net.nodes i) tx⟩) := by
  have nodes := (Move.post_nodes messages (⟨net.put i (onNewTx (net.nodes i) tx), i,
    nodeBroadcastTx (net.nodes i) tx⟩ : Move ι ssl Message)).1
  refine floods_kept floods _ (wired_post floods.wired i _ _ _ rfl rfl (onNewTx_peers _ _))
    (fun k => ?_) (fun k => ?_) (fun socket message member => ?_) fun socket waits => ?_
  · rw [nodes]
    exact (put_onNewTx_same net i tx k).1
  · rw [nodes]
    exact (put_onNewTx_same net i tx k).2
  · rcases (mem_post_iff _ _ _ _ _).mp member with old | ⟨packet, listed, -, rfl⟩
    · exact Or.inl old
    · obtain ⟨n, -, rfl⟩ := List.mem_map.mp listed
      exact Or.inr ⟨⟨tx, rfl⟩, faithful_sent (net.nodes i) receiver amount fee tx made⟩
  · exact Or.inl ((mem_post_iff _ _ _ _ _).mpr (Or.inl waits))

/-- What remains in the channels after a delivery. -/
theorem mem_drain_iff (i : ι) (n : Nat) (first : Message) (rest : List Message)
    (waits : net.channel (i, n) = first :: rest) (socket : ι × Nat) (message : Message) :
    message ∈ net.channel socket ↔
      message ∈ (net.drain (i, n) rest).channel socket ∨ (socket = (i, n) ∧ message = first) := by
  by_cases here : socket = (i, n)
  · subst here
    simp [Network.drain, waits, or_comm]
  · simp [Network.drain, here]

/-- A payment arrives. -/
theorem floods_paid (floods : Floods graph fd chain block origin net) (i : ι) (n : Nat) (tx : Tx)
    (rest : List Message) (waits : net.channel (i, n) = .newTx tx :: rest) :
    Floods graph fd chain block origin (Move.post messages
      ⟨(net.put i (onNewTx (net.nodes i) tx)).drain (i, n) rest, i, []⟩) := by
  refine floods_kept floods _ (wired_post floods.wired i _ _ _ rfl rfl (onNewTx_peers _ _))
    (fun k => (put_onNewTx_same net i tx k).1) (fun k => (put_onNewTx_same net i tx k).2)
    (fun socket message member => ?_) fun socket comes => ?_
  · exact Or.inl ((mem_drain_iff i n _ rest waits socket message).mpr (Or.inl member))
  · rcases (mem_drain_iff i n _ rest waits socket _).mp comes with later | ⟨-, same⟩
    · exact Or.inl later
    · cases same

/-- A copy of the block arrives at a node that has it. -/
theorem floods_refused (floods : Floods graph fd chain block origin net) (i : ι) (n : Nat)
    (rest : List Message) (waits : net.channel (i, n) = .newBlock block :: rest)
    (has : (net.nodes i).chain = chain ++ [block]) :
    Floods graph fd chain block origin (net.drain (i, n) rest) := by
  refine floods_kept floods _ (floods.wired.congr (fun _ => rfl) rfl) (fun _ => rfl) (fun _ => rfl)
    (fun socket message member => ?_) fun socket comes => ?_
  · exact Or.inl ((mem_drain_iff i n _ rest waits socket message).mpr (Or.inl member))
  · rcases (mem_drain_iff i n _ rest waits socket _).mp comes with later | ⟨rfl, -⟩
    · exact Or.inl later
    · exact Or.inr has

/-- A node that has the block now, and sends it to all neighbours but one that
has it. -/
theorem floods_told (floods : Floods graph fd chain block origin net) (i : ι) (node : Node ssl)
    (before : Network ι ssl Message) (except : Option Nat)
    (nodes : before.nodes = (net.put i node).nodes) (remote : before.remote = net.remote)
    (fewer : ∀ socket message, message ∈ before.channel socket → message ∈ net.channel socket)
    (kept : ∀ socket message, socket.1 ≠ i → message ∈ net.channel socket →
      message ∈ before.channel socket)
    (peers : node.peers = (net.nodes i).peers) (has : node.chain = chain ++ [block])
    (stage : i = origin → ∀ added, node.mining ≠ .added added)
    (knows : ∀ j, graph.Adj i j → some (fd i j) = except → (net.nodes j).chain = chain ++ [block]) :
    Floods graph fd chain block origin
      (Move.post messages ⟨before, i, broadcastBlockExcept (net.nodes i) block except⟩) := by
  obtain ⟨postNodes, -⟩ := Move.post_nodes messages
    (⟨before, i, broadcastBlockExcept (net.nodes i) block except⟩ : Move ι ssl Message)
  have after : (Move.post messages ⟨before, i, broadcastBlockExcept (net.nodes i) block except⟩).nodes =
      (net.put i node).nodes := postNodes.trans nodes
  have waits (socket : ι × Nat) (message : Message) :
      message ∈ (Move.post messages
        ⟨before, i, broadcastBlockExcept (net.nodes i) block except⟩).channel socket ↔
          message ∈ before.channel socket ∨
            ((∃ j, graph.Adj i j ∧ some (fd i j) ≠ except ∧ socket = (j, fd j i)) ∧
              message = .newBlock block) := by
    rw [mem_post_iff, remote]
    refine or_congr Iff.rfl ⟨?_, ?_⟩
    · rintro ⟨packet, member, far, rfl⟩
      obtain ⟨active, other, same⟩ := (mem_broadcast _ _ _ packet).mp member
      obtain ⟨j, adjacent, fdSame, rfl⟩ :=
        (mem_activeFds_remote floods.wired i packet.fd socket).mp ⟨active, far⟩
      rw [fdSame] at other
      exact ⟨⟨j, adjacent, other, rfl⟩, same⟩
    · rintro ⟨⟨j, adjacent, other, rfl⟩, rfl⟩
      obtain ⟨active, far⟩ := (mem_activeFds_remote floods.wired i (fd i j) (j, fd j i)).mpr
        ⟨j, adjacent, rfl, rfl⟩
      exact ⟨⟨fd i j, .newBlock block⟩, (mem_broadcast _ _ _ _).mpr ⟨active, other, rfl⟩, far, rfl⟩
  have keeps (k : ι) (there : (net.nodes k).chain = chain ++ [block]) :
      ((net.put i node).nodes k).chain = chain ++ [block] := by
    by_cases same : k = i
    · subst same
      rw [Network.put_same, has]
    · rw [Network.put_other net i k node same, there]
  refine ⟨wired_post floods.wired i node _ before nodes remote peers, floods.follows, floods.plain,
    fun k => ?_, ?_, fun added => ?_, fun socket message member => ?_, fun k j told adjacent => ?_⟩
  · rw [after]
    by_cases same : k = i
    · subst same
      rw [Network.put_same]
      exact Or.inr has
    · rw [Network.put_other net i k node same]
      exact floods.node k
  · rw [after]
    exact keeps origin floods.mined
  · rw [after]
    by_cases same : origin = i
    · subst same
      rw [Network.put_same]
      exact fun here => absurd here (stage rfl added)
    · rw [Network.put_other net i origin node same]
      exact floods.stage added
  · rw [after]
    rcases (waits socket message).mp member with old | ⟨⟨j, adjacent, -, rfl⟩, rfl⟩
    · rcases floods.waiting socket message (fewer _ _ old) with ⟨same, j, adjacent, far, there⟩ | payment
      · exact Or.inl ⟨same, j, adjacent, far, keeps j there⟩
      · exact Or.inr payment
    · exact Or.inl ⟨rfl, i, adjacent.symm, rfl, by rw [Network.put_same, has]⟩
  · rw [after]
    obtain ⟨told, notAdded⟩ := told
    rw [after] at told notAdded
    by_cases same : k = i
    · subst same
      by_cases skipped : some (fd k j) = except
      · exact Or.inl (keeps j (knows j adjacent skipped))
      · exact Or.inr ((waits _ _).mpr (Or.inr ⟨⟨j, adjacent, skipped, rfl⟩, rfl⟩))
    · rw [Network.put_other net i k node same] at told notAdded
      rcases floods.covered k j ⟨told, notAdded⟩ adjacent with there | comes
      · exact Or.inl (keeps j there)
      · by_cases near : j = i
        · subst near
          exact Or.inl (by rw [Network.put_same, has])
        · exact Or.inr ((waits _ _).mpr (Or.inl (kept _ _ near comes)))

/-- A copy of the block arrives at a node that needs it. -/
theorem floods_accepted (floods : Floods graph fd chain block origin net) (i : ι) (n : Nat)
    (rest : List Message) (waits : net.channel (i, n) = .newBlock block :: rest)
    (old : (net.nodes i).chain = chain) (node : Node ssl)
    (made : node = { net.nodes i with chain := chain ++ [block] }) (j : ι) (adjacent : graph.Adj i j)
    (near : n = fd i j) (there : (net.nodes j).chain = chain ++ [block]) :
    Floods graph fd chain block origin (Move.post messages ⟨(net.put i node).drain (i, n) rest, i,
      broadcastBlockExcept (net.nodes i) block (some n)⟩) ∧
    FloodStep origin block (chain ++ [block]) net
      ⟨(net.put i node).drain (i, n) rest, i, broadcastBlockExcept (net.nodes i) block (some n)⟩ := by
  have new : (net.nodes i).chain ≠ chain ++ [block] := by simp [old]
  have notOrigin : i ≠ origin := fun same => new (same ▸ floods.mined)
  have has : node.chain = chain ++ [block] := by rw [made]
  constructor
  · refine floods_told floods i node _ (some n) rfl rfl (fun socket message member => ?_)
      (fun socket message other member => ?_) (by rw [made]) has
      (fun same => absurd same notOrigin) (fun k adjacentK same => ?_)
    · exact (mem_drain_iff i n _ rest waits socket message).mpr (Or.inl member)
    · rcases (mem_drain_iff i n _ rest waits socket message).mp member with later | ⟨rfl, -⟩
      · exact later
      · exact absurd rfl other
    · obtain rfl : j = k := floods.wired.distinct i j k adjacent adjacentK
        (near.symm.trans (Option.some.inj same).symm)
      exact there
  · refine .told i rfl (fun told => new told.1) ⟨?_, fun same => absurd same notOrigin⟩
      (broadcast_length _ _ _) fun k other => Network.put_other net i k node other
    change ((net.put i node).nodes i).chain = _
    rw [Network.put_same, has]

/-- The miner of the block sends it. -/
theorem floods_announced (floods : Floods graph fd chain block origin net)
    (stage : (net.nodes origin).mining = .added block) :
    Floods graph fd chain block origin (Move.post messages
      ⟨net.put origin { net.nodes origin with mining := .idle }, origin,
        broadcastBlockExcept (net.nodes origin) block none⟩) ∧
    FloodStep origin block (chain ++ [block]) net
      ⟨net.put origin { net.nodes origin with mining := .idle }, origin,
        broadcastBlockExcept (net.nodes origin) block none⟩ := by
  constructor
  · exact floods_told floods origin { net.nodes origin with mining := .idle } _ none rfl rfl
      (fun _ _ member => member) (fun _ _ _ member => member) rfl floods.mined
      (fun _ _ => by simp) (by simp)
  · refine .told origin rfl (fun told => told.2 rfl stage) ⟨?_, fun _ => ?_⟩ (broadcast_length _ _ _)
      fun k other => Network.put_other net origin k _ other
    · rw [Network.put_same]
      exact floods.mined
    · rw [Network.put_same]
      simp

/-- The step lemma. -/
theorem floods_move (floods : Floods graph fd chain block origin net) (event : NetEvent ι)
    (kind : FloodEvent origin event) (move : Move ι ssl Message)
    (moved : net.move messages event = some move) :
    Floods graph fd chain block origin (move.post messages) ∧
      FloodStep origin block (chain ++ [block]) net move := by
  cases event with
  | act i action =>
    obtain ⟨⟨node, packets⟩, acted, rfl⟩ := Option.map_eq_some_iff.mp moved
    cases act_acts _ _ _ _ acted with
    | refused =>
      simp only [Network.put_self]
      exact ⟨floods, .kept (fun _ => rfl) (fun _ => rfl) (by simp)⟩
    | @sent receiver amount fee tx idle made =>
      refine ⟨floods_sent floods i receiver amount fee tx made, ?_⟩
      refine .kept (fun k => (put_onNewTx_same net i tx k).1)
        (fun k => (put_onNewTx_same net i tx k).2) fun packet listed => ?_
      obtain ⟨n, -, rfl⟩ := List.mem_map.mp listed
      rfl
    | @announced added stage =>
      obtain rfl : i = origin := kind
      obtain rfl := floods.stage added stage
      exact floods_announced floods stage
    | tip | selected | added | abandoned => exact kind.elim
  | deliver i n =>
    obtain ⟨active, message, rest, waits, rfl⟩ := move_of_deliver net move i n moved
    rcases floods.waiting (i, n) message (by simp [waits]) with
      ⟨rfl, j, adjacent, near, there⟩ | ⟨⟨tx, rfl⟩, -⟩
    · rcases floods.node i with old | has
      · rw [react_accepted (net.nodes i) n old floods.follows]
        exact floods_accepted floods i n rest waits old _ rfl j adjacent near there
      · rw [react_refused (net.nodes i) n has, Network.put_self]
        exact ⟨floods_refused floods i n rest waits has,
          .kept (fun _ => rfl) (fun _ => rfl) (by simp)⟩
    · exact ⟨floods_paid floods i n tx rest waits, .kept (fun k => (put_onNewTx_same net i tx k).1)
        (fun k => (put_onNewTx_same net i tx k).2) (by simp [react])⟩
  | connect | accept | closed => exact kind.elim

/-! ## The network of bytes -/

/-- The bytes under way are copies of the line of the block. -/
def Flooded (graph : SimpleGraph ι) (fd : ι → ι → Nat) (chain : Blockchain) (block : Block) (origin : ι)
    (net : Network ι ssl UInt8) : Prop :=
  ∃ typed : Network ι ssl Message, typed.represent = net ∧ Floods graph fd chain block origin typed

omit [DecidableEq ι] in
/-- What is under way can be read from the stream as it was sent. -/
theorem floods_faithful (floods : Floods graph fd chain block origin net) :
    ∀ socket, ∀ message ∈ net.channel socket, Faithful ssl message := by
  intro socket message waits
  rcases floods.waiting socket message waits with ⟨rfl, -⟩ | ⟨-, faithful⟩
  · refine faithful_plain _ floods.plain ?_
    have length := newBlock_length block floods.plain.safe.unquoted
    have size : maxMsgSize = 1048576 := rfl
    omega
  · exact faithful

/-- The step lemma over bytes, from the one over whole messages. -/
theorem flooded_step {net next : Network ι ssl UInt8} (flooded : Flooded graph fd chain block origin net)
    (event : NetEvent ι) (kind : FloodEvent origin event) (stepped : net.step bytes event = some next) :
    Flooded graph fd chain block origin next ∧
      ∃ (typed : Network ι ssl Message) (move : Move ι ssl Message), typed.represent = net ∧
        Floods graph fd chain block origin typed ∧ net.move bytes event = some move.represent ∧ next.nodes = move.net.nodes ∧
          FloodStep origin block (chain ++ [block]) typed move := by
  obtain ⟨typed, rfl, floods⟩ := flooded
  obtain ⟨bytesMove, moved, rfl⟩ := Option.map_eq_some_iff.mp stepped
  have agree := move_faithful typed event (floods_faithful floods)
  rw [agree] at moved ⊢
  obtain ⟨move, typedMoved, rfl⟩ := Option.map_eq_some_iff.mp moved
  obtain ⟨after, step⟩ := floods_move floods event kind move typedMoved
  refine ⟨⟨move.post messages, move.represent_post, after⟩, typed, move, rfl, floods, moved, ?_, step⟩
  exact (move.represent.post_nodes bytes).1

/-! ## What the flood costs -/

section

variable [Fintype ι]

/-- The weights of the nodes that have not sent the block. It falls with each
node that forwards, and bounds what is still to come. -/
def outstanding (origin : ι) (block : Block) (grown : Blockchain) (weight : ι → Nat)
    (net : Network ι ssl α) : Nat :=
  ∑ i, if Told origin block grown net i then 0 else weight i

/-- A node that sends the block uses up its weight. -/
theorem outstanding_told {β : Type} {grown : Blockchain} (weight : ι → Nat) (one : Network ι ssl α)
    (other : Network ι ssl β) (i : ι) (before : ¬ Told origin block grown one i)
    (after : Told origin block grown other i) (others : ∀ k, k ≠ i → other.nodes k = one.nodes k) :
    weight i + outstanding origin block grown weight other = outstanding origin block grown weight one := by
  rw [outstanding, outstanding, ← Finset.add_sum_erase _ _ (Finset.mem_univ i),
    ← Finset.add_sum_erase _ (fun k => if Told origin block grown one k then 0 else weight k)
      (Finset.mem_univ i), if_pos after, if_neg before, Nat.zero_add]
  congr 1
  refine Finset.sum_congr rfl fun k member => ?_
  have same := others k (Finset.ne_of_mem_erase member)
  simp only [told_congr k (congrArg Node.chain same) (congrArg Node.mining same)]

/-- What is outstanding depends on the chains and on the mining stages only. -/
theorem outstanding_kept {β : Type} {grown : Blockchain} (weight : ι → Nat) (one : Network ι ssl α)
    (other : Network ι ssl β) (chains : ∀ k, (other.nodes k).chain = (one.nodes k).chain)
    (minings : ∀ k, (other.nodes k).mining = (one.nodes k).mining) :
    outstanding origin block grown weight other = outstanding origin block grown weight one := by
  refine Finset.sum_congr rfl fun k _ => ?_
  simp only [told_congr k (chains k) (minings k)]

/-- At most everything is outstanding. -/
theorem outstanding_le {grown : Blockchain} (weight : ι → Nat) (one : Network ι ssl α) :
    outstanding origin block grown weight one ≤ ∑ i, weight i :=
  Finset.sum_le_sum fun i _ => by split <;> omega

variable {bytesNet next : Network ι ssl UInt8}

/-- A step costs at most the weight that it uses up, if it costs nothing unless
a node sends the block, and then at most the weight of this node. -/
theorem pays_outstanding (weight : ι → Nat) (cost : Network ι ssl UInt8 → NetEvent ι → Nat)
    (flooded : Flooded graph fd chain block origin bytesNet) (event : NetEvent ι)
    (kind : FloodEvent origin event) (stepped : bytesNet.step bytes event = some next)
    (bound : ∀ (typed : Network ι ssl Message) (move : Move ι ssl Message), typed.represent = bytesNet →
      bytesNet.move bytes event = some move.represent → Wired graph fd typed →
        ((∀ packet ∈ move.packets, isNewBlock packet.message = false) → cost bytesNet event = 0) ∧
        (move.packets.length ≤ (activeFds (typed.nodes move.sender)).length →
          cost bytesNet event ≤ weight move.sender)) :
    cost bytesNet event + outstanding origin block (chain ++ [block]) weight next ≤
      outstanding origin block (chain ++ [block]) weight bytesNet := by
  obtain ⟨-, typed, move, rfl, floods, moved, nodes, step⟩ := flooded_step flooded event kind stepped
  obtain ⟨free, paid⟩ := bound typed move rfl moved floods.wired
  cases step with
  | kept chains minings silent =>
    have same : outstanding origin block (chain ++ [block]) weight next =
        outstanding origin block (chain ++ [block]) weight typed.represent :=
      outstanding_kept weight typed.represent next (fun k => by rw [nodes]; exact chains k)
        (fun k => by rw [nodes]; exact minings k)
    rw [free silent, same, Nat.zero_add]
  | told i sender before after few others =>
    subst sender
    have told : Told origin block (chain ++ [block]) next move.sender :=
      (told_congr move.sender (by rw [nodes]) (by rw [nodes])).mpr after
    have used := outstanding_told weight typed.represent next move.sender before told
      (fun k other => by rw [nodes]; exact others k other)
    rw [← used]
    exact Nat.add_le_add_right (paid few) _

/-- A step sends the block to neighbours of a node that has not sent it
before. -/
theorem pays_blocksSent [DecidableRel graph.Adj] (flooded : Flooded graph fd chain block origin bytesNet)
    (event : NetEvent ι) (kind : FloodEvent origin event) (stepped : bytesNet.step bytes event = some next) :
    blocksSent bytesNet event + outstanding origin block (chain ++ [block]) (graph.degree ·) next ≤
      outstanding origin block (chain ++ [block]) (graph.degree ·) bytesNet := by
  refine pays_outstanding (graph.degree ·) blocksSent flooded event kind stepped
    fun typed move same moved wired => ⟨fun silent => ?_, fun few => ?_⟩
  · rw [blocksSent, moved]
    exact List.countP_eq_zero.mpr fun packet listed => by simp [silent packet listed]
  · rw [blocksSent, moved]
    exact List.countP_le_length.trans (few.trans (activeFds_length_le wired move.sender))

/-- A node that sends the block has not sent it before. -/
theorem pays_forwards (k : ι) (flooded : Flooded graph fd chain block origin bytesNet)
    (event : NetEvent ι) (kind : FloodEvent origin event) (stepped : bytesNet.step bytes event = some next) :
    forwards k bytesNet event +
        outstanding origin block (chain ++ [block]) (fun i => if i = k then 1 else 0) next ≤
      outstanding origin block (chain ++ [block]) (fun i => if i = k then 1 else 0) bytesNet := by
  refine pays_outstanding (fun i => if i = k then 1 else 0) (forwards k) flooded event kind stepped
    fun typed move same moved wired => ⟨fun silent => ?_, fun _ => ?_⟩
  · rw [forwards, moved]
    refine if_neg fun sends => ?_
    obtain ⟨-, packet, listed, isBlock⟩ := sends
    rw [silent packet listed] at isBlock
    cases isBlock
  · simp only [forwards, moved]
    split
    · next sends => rw [if_pos (show move.sender = k from sends.1)]
    · exact Nat.zero_le _

end

/-- Whether the node lacks the block. -/
def lacks (grown : Blockchain) (k : ι) (net : Network ι ssl UInt8) : Nat :=
  if (net.nodes k).chain = grown then 0 else 1

/-- A node that appends the block has not appended it before. -/
theorem pays_appends {bytesNet next : Network ι ssl UInt8} (k : ι)
    (flooded : Flooded graph fd chain block origin bytesNet) (event : NetEvent ι)
    (kind : FloodEvent origin event) (stepped : bytesNet.step bytes event = some next) :
    appends k bytesNet event + lacks (chain ++ [block]) k next ≤ lacks (chain ++ [block]) k bytesNet := by
  obtain ⟨-, typed, move, rfl, floods, moved, nodes, step⟩ := flooded_step flooded event kind stepped
  simp only [appends, stepped, lacks, nodes]
  change (if (move.net.nodes k).chain = (typed.nodes k).chain then 0 else 1) +
    (if (move.net.nodes k).chain = chain ++ [block] then 0 else 1) ≤
      if (typed.nodes k).chain = chain ++ [block] then 0 else 1
  cases step with
  | kept chains => rw [chains k, if_pos rfl, Nat.zero_add]
  | told i sender before after few others =>
    by_cases same : k = i
    · subst same
      rw [after.1, if_pos rfl]
      by_cases has : (typed.nodes k).chain = chain ++ [block]
      · rw [if_pos has.symm, if_pos has]
      · rw [if_neg (Ne.symm has), if_neg has]
    · rw [others k same, if_pos rfl, Nat.zero_add]

/-! ## Whole floods -/

/-- Nodes with the same chain are connected, and nothing is under way. A process
that has run appends a block that it has mined, in whose texts there are no
quotes, backslashes and braces. -/
structure FloodStart (graph : SimpleGraph ι) (fd : ι → ι → Nat) (chain : Blockchain) (block : Block)
    (origin : ι) (start appended : Network ι ssl UInt8) : Prop where
  wired : Wired graph fd start
  channel : ∀ socket, start.channel socket = []
  same : ∀ i, (start.nodes i).chain = chain
  process : ∃ first past, Started first ∧ (∀ early ∈ past, LineEvent early) ∧
    run nodeNext first past = some (start.nodes origin)
  appends : start.step bytes (.act origin .mineAdd) = some appended
  stage : (appended.nodes origin).mining = .added block
  prevHash : SafeText block.prevHash.bytes
  txs : ∀ tx ∈ block.listed, tx.Safe

/-- The step in which a mined block is appended. -/
theorem step_mineAdd (start appended : Network ι ssl UInt8)
    (stepped : start.step bytes (.act origin .mineAdd) = some appended)
    (stage : (appended.nodes origin).mining = .added block) :
    Accepts (start.nodes origin) block (.action .mineAdd) ∧
      start.move bytes (.act origin .mineAdd) = some ⟨appended, origin, []⟩ ∧
      appended = start.put origin
        { start.nodes origin with chain := (start.nodes origin).chain ++ [block], mining := .added block } := by
  obtain ⟨move, moved, rfl⟩ := Option.map_eq_some_iff.mp stepped
  have form := moved
  obtain ⟨⟨node, packets⟩, acted, rfl⟩ := Option.map_eq_some_iff.mp form
  rw [(Move.post_nodes bytes _).1, Network.put_same] at stage
  cases act_acts _ _ _ _ acted with
  | @added filled mined attempts grown selected found accepted =>
    obtain rfl : mined = block := Mining.added.inj stage
    obtain ⟨follows, rfl⟩ := extends_of_chainAddBlock _ _ _ _ accepted
    exact ⟨⟨filled, attempts, selected, found, follows⟩, moved, rfl⟩
  | abandoned => cases stage

theorem SafeText.plain {text : List UInt8} (safe : SafeText text) (noNewline : 10 ∉ text) :
    PlainText text := by
  intro c member
  obtain ⟨noQuote, noBackslash, noOpen, noClose⟩ := safe c member
  exact ⟨noQuote, noBackslash, noOpen, noClose, fun same => noNewline (same ▸ member)⟩

/-- The block that is flooded is read as it was written. -/
theorem FloodStart.plain {start appended : Network ι ssl UInt8}
    (begins : FloodStart graph fd chain block origin start appended) : block.Plain := by
  obtain ⟨first, past, started, lines, ran⟩ := begins.process
  have holds := inNode_run_lines first _ past started lines ran
  obtain ⟨accepts, -⟩ := step_mineAdd start appended begins.appends begins.stage
  have oneLine := accepted_oneLine _ block (.action .mineAdd) holds trivial accepts
  have range := accepted_countInRange _ block _ holds accepts
  obtain ⟨filled, attempts, selected, found, -⟩ := accepts
  have before : lineContents.Filled ssl filled := by
    simpa [Contents.InMining, selected] using holds.mining
  obtain ⟨-, valid⟩ := blockMine_some _ _ _ _ found
  refine ⟨begins.prevHash.plain oneLine.prevHash, plain_hash _ block valid, fun tx member => ?_, range, ?_⟩
  · exact (begins.txs tx member).plain (oneLine.txs tx member)
  · obtain ⟨known, mempool, wallet, begun, -, -, rfl⟩ := before
    exact blockMine_compact _ _ block attempts found (fillBlock_compact _ _ _ _ _)

/-- The invariant holds where the origin has appended the block and told
nobody. -/
theorem flooded_start (start appended : Network ι ssl UInt8)
    (begins : FloodStart graph fd chain block origin start appended) :
    Flooded graph fd chain block origin appended := by
  obtain ⟨accepts, -, rfl⟩ := step_mineAdd start appended begins.appends begins.stage
  obtain ⟨-, -, -, -, follows⟩ := accepts
  rw [begins.same] at follows
  generalize made : ({ start.nodes origin with
    chain := (start.nodes origin).chain ++ [block], mining := .added block } : Node ssl) = node at begins ⊢
  have has : node.chain = chain ++ [block] := by rw [← made, begins.same]
  have stage : node.mining = .added block := by rw [← made]
  have peers : node.peers = (start.nodes origin).peers := by rw [← made]
  have other (i : ι) (different : i ≠ origin) : ((start.put origin node).nodes i).chain = chain := by
    rw [Network.put_other start origin i node different, begins.same]
  refine ⟨(start.put origin node).quiet, represent_quiet _ begins.channel, ?_, follows, begins.plain,
    fun i => ?_, ?_, fun added => ?_, by simp [Network.quiet], fun i j told _ => ?_⟩
  · refine begins.wired.congr (fun i => ?_) rfl
    change ((start.put origin node).nodes i).peers = _
    by_cases same : i = origin
    · subst same
      rw [Network.put_same, peers]
    · rw [Network.put_other start origin i node same]
  · by_cases same : i = origin
    · subst same
      exact Or.inr (by simp [Network.quiet, has])
    · exact Or.inl (other i same)
  · simp [Network.quiet, has]
  · simp [Network.quiet, stage, eq_comm]
  · obtain ⟨there, notAdded⟩ := told
    by_cases same : i = origin
    · subst same
      exact absurd (by simp [Network.quiet, stage]) (notAdded rfl)
    · have old := other i same
      rw [show (start.put origin node).nodes i = (start.put origin node).quiet.nodes i from rfl,
        there] at old
      simp at old

/-- What a flood costs, the step in which the block is appended included. -/
theorem total_flood {start appended reached : Network ι ssl UInt8} {events : List (NetEvent ι)}
    (begins : FloodStart graph fd chain block origin start appended)
    (kind : ∀ event ∈ events, FloodEvent origin event)
    (ran : run (Network.step bytes) appended events = some reached)
    (cost : Network ι ssl UInt8 → NetEvent ι → Nat) (potential : Network ι ssl UInt8 → Nat)
    (pays : ∀ net next, Flooded graph fd chain block origin net → ∀ event, FloodEvent origin event →
      net.step bytes event = some next → cost net event + potential next ≤ potential net) :
    total (Network.step bytes) cost start (.act origin .mineAdd :: events) ≤
      cost start (.act origin .mineAdd) + potential appended := by
  rw [total_cons _ cost start appended _ events begins.appends]
  refine Nat.add_le_add_left (total_le_potential (Network.step bytes) cost potential
    (FloodEvent origin) (Flooded graph fd chain block origin) (fun net event next holds kind stepped => ?_)
    (fun net event next holds => pays net next holds event) appended reached events
    (flooded_start start appended begins) kind ran) _
  exact (flooded_step holds event kind stepped).1

/-- A block that a node of a connected graph appends and broadcasts is appended
and sent by every node at most once, takes at most two messages for each
connection, and is at the tip of every chain when nothing is under way. -/
theorem floods_once [Fintype ι] [DecidableRel graph.Adj] (start appended reached : Network ι ssl UInt8)
    (events : List (NetEvent ι)) (connected : graph.Connected)
    (begins : FloodStart graph fd chain block origin start appended)
    (kind : ∀ event ∈ events, FloodEvent origin event)
    (ran : run (Network.step bytes) appended events = some reached) :
    (∀ i, total (Network.step bytes) (appends i) start (.act origin .mineAdd :: events) ≤ 1) ∧
    (∀ i, total (Network.step bytes) (forwards i) start (.act origin .mineAdd :: events) ≤ 1) ∧
    total (Network.step bytes) blocksSent start (.act origin .mineAdd :: events) ≤
      2 * graph.edgeFinset.card ∧
    ((∀ i j, graph.Adj i j → reached.channel (i, fd i j) = []) →
      (reached.nodes origin).mining ≠ .added block → ∀ i, (reached.nodes i).chain = chain ++ [block]) := by
  obtain ⟨-, moved, grown⟩ := step_mineAdd start appended begins.appends begins.stage
  refine ⟨fun i => ?_, fun i => ?_, ?_, fun silent sent => ?_⟩
  · refine (total_flood begins kind ran (appends i) (lacks (chain ++ [block]) i)
      fun net next => pays_appends i).trans ?_
    rw [appends, begins.appends, lacks, grown]
    by_cases same : i = origin
    · subst same
      simp [begins.same]
    · simp [Network.put_other start origin i _ same, begins.same]
  · refine (total_flood begins kind ran (forwards i) _ fun net next => pays_forwards i).trans ?_
    have least : outstanding origin block (chain ++ [block]) (fun k => if k = i then 1 else 0) appended ≤
        ∑ k, if k = i then 1 else 0 := outstanding_le _ appended
    simpa [forwards, moved] using least
  · refine (total_flood begins kind ran blocksSent _ fun net next => pays_blocksSent).trans ?_
    rw [← graph.sum_degrees_eq_twice_card_edges]
    simpa [blocksSent, moved] using outstanding_le (graph.degree ·) appended
  · have flooded : Flooded graph fd chain block origin reached :=
      run_invariant (Network.step bytes) (fun _ event => FloodEvent origin event) _
        (fun net event next holds kind stepped => (flooded_step holds event kind stepped).1)
        appended reached events (flooded_start start appended begins)
        (every_of_mem _ _ appended events kind) ran
    obtain ⟨typed, rfl, floods⟩ := flooded
    refine forall_of_closed graph connected _ (fun i j adjacent has => ?_) origin floods.mined
    rcases floods.covered i j ⟨has, fun same => same ▸ sent⟩ adjacent with there | waits
    · exact there
    · have faithful := floods_faithful floods _ _ waits
      have text := List.flatMap_eq_nil_iff.mp (silent j i adjacent.symm) _ waits
      rw [faithful.text] at text
      simp at text

/-! ## An example -/

/-- A process gets three peers and starts to mine. -/
def preparing : List Event :=
  [.accept 1, .accept 2, .accept 3, .action (.mineTip 192), .action .mineSelect]

/-- This process and three fresh ones, each connected to the others. -/
def allJoined (node : Node stubSsl) : Network (Fin 4) stubSsl UInt8 :=
  wire ⊤ fun i => if i = 0 then node else freshNode (stubWallet i.val.toUInt8)

/-- The others accept the block and send it to each other, which they refuse. -/
def flooding : List (NetEvent (Fin 4)) :=
  [.act 0 .mineBroadcast, .deliver 1 0, .deliver 2 0, .deliver 2 1, .deliver 3 1, .deliver 3 0,
    .deliver 3 2, .deliver 0 3, .deliver 1 2, .deliver 2 3]

/-- Four nodes, all joined with each other, so that most copies meet a node with
the block. -/
theorem floods_once_here : ∃ start appended reached : Network (Fin 4) stubSsl UInt8,
    FloodStart ⊤ (fun _ j => j.val) [genesisBlock] firstBlock 0 start appended ∧
      run (Network.step bytes) appended flooding = some reached ∧
      (∀ i, total (Network.step bytes) (appends i) start (.act 0 .mineAdd :: flooding) ≤ 1) ∧
      (∀ i, total (Network.step bytes) (forwards i) start (.act 0 .mineAdd :: flooding) ≤ 1) ∧
      total (Network.step bytes) blocksSent start (.act 0 .mineAdd :: flooding) ≤
        2 * (⊤ : SimpleGraph (Fin 4)).edgeFinset.card ∧
      ∀ i, (reached.nodes i).chain = [genesisBlock, firstBlock] := by
  have evaluated : ((run nodeNext (freshNode (stubWallet 0)) preparing).bind fun node =>
      ((allJoined node).step bytes (.act 0 .mineAdd)).bind fun appended =>
        (run (Network.step bytes) appended flooding).map fun reached =>
          (node.peers, node.chain, (appended.nodes 0).mining, (reached.nodes 0).mining,
            decide (∀ i j : Fin 4, reached.channel (i, j.val) = []))) =
      some ([⟨1, true⟩, ⟨2, true⟩, ⟨3, true⟩], [genesisBlock], .added firstBlock, .idle, true) := by decide +kernel
  obtain ⟨node, ran, evaluated⟩ := Option.bind_eq_some_iff.mp evaluated
  obtain ⟨appended, adds, evaluated⟩ := Option.bind_eq_some_iff.mp evaluated
  obtain ⟨reached, floods, facts⟩ := Option.map_eq_some_iff.mp evaluated
  simp only [Prod.mk.injEq, decide_eq_true_eq] at facts
  obtain ⟨peers, chain, stage, idle, silent⟩ := facts
  have first : (allJoined node).nodes 0 = node := by
    rw [show (allJoined node).nodes 0 = { node with peers := [⟨1, true⟩, ⟨2, true⟩, ⟨3, true⟩] } from rfl, ← peers]
  have safe : firstBlock.Safe := firstBlock_plain.safe
  have begins : FloodStart ⊤ (fun _ j => j.val) [genesisBlock] firstBlock 0 (allJoined node) appended := by
    refine ⟨wired_wire ⊤ _, fun _ => rfl, fun i => ?_, ?_, adds, stage, safe.prevHash, safe.txs⟩
    · by_cases here : i = 0
      · rw [here, first, chain]
      · simp [allJoined, wire, here, freshNode]
    · rw [first]
      exact ⟨freshNode (stubWallet 0), preparing, ⟨chainInit_sha256, rfl, rfl, rfl⟩, by simp [preparing, LineEvent], ran⟩
  obtain ⟨once, sentOnce, few, everywhere⟩ := floods_once (allJoined node) appended reached flooding
    SimpleGraph.connected_top begins (by simp [flooding, FloodEvent]) floods
  exact ⟨_, appended, reached, begins, floods, once, sentOnce, few,
    everywhere (fun i j _ => silent i j) (by simp [idle])⟩

end MiniCoin
