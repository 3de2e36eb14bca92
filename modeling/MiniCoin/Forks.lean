import MiniCoin.ChainSync
import MiniCoin.OptimisticMining

/-!
# Forks between two nodes

A node judges a new block by its own tip only, and a block that does not fit is forgotten.
When both nodes have mined on one tip, their chains differ but have the same length; what one
of them mines after that never fits the other one, which stays behind. It does not if every
block is mined before the chains have parted.
-/

namespace MiniCoin

open ByteStrings Runs

variable {ssl : OpenSSL}

/-! ## Two chains and the blocks that wait -/

/-- The chain after a block has been handled: appended or as before. -/
def accept (sha : Sha256) (chain : Blockchain) (block : Block) : Blockchain :=
  (chainAddBlock sha chain block).getD chain

/-- The chain after all of them have been handled, in the order in which they
wait. -/
def catchUp (sha : Sha256) (chain : Blockchain) (blocks : List Block) : Blockchain :=
  blocks.foldl (accept sha) chain

/-- A block that follows the tip is appended. -/
theorem accept_of_extends (sha : Sha256) (chain : Blockchain) (block : Block)
    (follows : Extends sha chain block) : accept sha chain block = chain ++ [block] := by
  rw [accept, chainAddBlock_of_extends _ _ _ follows]
  rfl

/-- Accepting never shortens a chain. -/
theorem accept_length (sha : Sha256) (chain : Blockchain) (block : Block) :
    chain.length ≤ (accept sha chain block).length := by
  cases accepted : chainAddBlock sha chain block with
  | none => simp [accept, accepted]
  | some grown =>
    obtain ⟨-, rfl⟩ := extends_of_chainAddBlock _ _ _ _ accepted
    simp [accept, accepted]

/-- A block with the index of a block that the chain already has is refused. -/
theorem accept_stale (sha : Sha256) (chain : Blockchain) (block : Block) (honest : Honest sha chain)
    (stale : block.index.toNat < chain.length) : accept sha chain block = chain := by
  cases accepted : chainAddBlock sha chain block with
  | none => simp [accept, accepted]
  | some grown =>
    obtain ⟨⟨room, last, tip, index, -⟩, -⟩ := extends_of_chainAddBlock _ _ _ _ accepted
    have bound : chain.length < 10000 := room
    have position := honest.index (chain.length - 1) last (by
      rw [← List.getLast?_eq_getElem?]
      exact tip)
    have one : (1 : UInt32).toNat = 1 := rfl
    rw [index, UInt32.toNat_add, position, one] at stale
    omega

/-- Blocks at heights that the chain has reached are refused one after the
other. -/
theorem catchUp_stale (sha : Sha256) (chain : Blockchain) (blocks : List Block)
    (honest : Honest sha chain) (stale : ∀ block ∈ blocks, block.index.toNat < chain.length) :
    catchUp sha chain blocks = chain := by
  induction blocks with
  | nil => rfl
  | cons block rest ih =>
    have here := accept_stale sha chain block honest (stale block (by simp))
    rw [catchUp, List.foldl_cons, here]
    exact ih fun other member => stale other (by simp [member])

/-- Whatever arrives, the chain is only extended. -/
theorem catchUp_extends (sha : Sha256) (chain : Blockchain) (blocks : List Block) :
    chain <+: catchUp sha chain blocks := by
  induction blocks generalizing chain with
  | nil => exact List.prefix_rfl
  | cons block rest ih =>
    refine List.IsPrefix.trans ?_ (ih (accept sha chain block))
    cases accepted : chainAddBlock sha chain block with
    | none => simp [accept, accepted]
    | some grown =>
      obtain ⟨-, rfl⟩ := extends_of_chainAddBlock _ _ _ _ accepted
      simp [accept, accepted]

/-- What waits for a node are blocks of the other one. The one that is behind
catches up by reading them, or the chains have the same length. -/
structure Balanced (sha : Sha256) (chains : Bool → Blockchain) (pending : Bool → List Block) : Prop where
  honest : ∀ i, Honest sha (chains i)
  sent : ∀ i, ∀ block ∈ pending i, block.index.toNat < (chains !i).length
  balance : (∃ i, catchUp sha (chains !i) (pending !i) = chains i) ∨
    (chains false).length = (chains true).length

/-- The chains have not parted, or the other node is one block ahead. In both
cases the new block is not in competition with another one for its place. -/
def Unparted (own other : Blockchain) : Prop := other <+: own ∨ ∃ block, other = own ++ [block]

variable {sha : Sha256} {chains : Bool → Blockchain} {pending : Bool → List Block}

/-- With nothing under way the two chains have one length. -/
theorem Balanced.lengths (balanced : Balanced sha chains pending) (quiet : ∀ i, pending i = []) :
    (chains false).length = (chains true).length := by
  rcases balanced.balance with ⟨i, caught⟩ | same
  · rw [quiet] at caught
    change chains (!i) = chains i at caught
    cases i with
    | false => exact congrArg List.length caught.symm
    | true => exact congrArg List.length caught
  · exact same

/-- When the two are level and one is a part of the other, they are equal, and
all that is under way is stale. -/
theorem Balanced.same_length (balanced : Balanced sha chains pending) (i : Bool)
    (same : (chains i).length = (chains !i).length) (part : chains (!i) <+: chains i) :
    catchUp sha (chains !i) (pending !i) = chains i := by
  have equal : chains (!i) = chains i := part.eq_of_length same.symm
  have stale := balanced.sent !i
  rw [Bool.not_not, same] at stale
  rw [catchUp_stale sha _ _ (balanced.honest !i) stale, equal]

/-- A block mined before the chains have parted keeps the balance. -/
theorem Balanced.mined (balanced : Balanced sha chains pending) (i : Bool) (block : Block)
    (follows : Extends sha (chains i) block) (honest : Honest sha (chains i ++ [block]))
    (unparted : Unparted (chains i) (chains !i)) :
    Balanced sha (Function.update chains i (chains i ++ [block]))
      (Function.update pending (!i) (pending (!i) ++ [block])) := by
  have position : block.index.toNat = (chains i).length := honest.index _ block (by simp)
  refine ⟨fun j => ?_, fun j other member => ?_, ?_⟩
  · by_cases same : j = i
    · subst same
      simpa using honest
    · simpa [same] using balanced.honest j
  · by_cases same : j = !i
    · subst same
      rw [Function.update_self] at member
      rw [Bool.not_not, Function.update_self, List.length_append, List.length_singleton]
      rcases List.mem_append.mp member with old | new
      · have before := balanced.sent _ other old
        rw [Bool.not_not] at before
        omega
      · obtain rfl := List.mem_singleton.mp new
        omega
    · rw [Function.update_of_ne same] at member
      have near : j = i := by cases i <;> cases j <;> simp_all
      subst near
      simpa [not_ne] using balanced.sent j other member
  · have caught (reaches : catchUp sha (chains !i) (pending !i) = chains i) :
        catchUp sha (Function.update chains i (chains i ++ [block]) !i)
          (Function.update pending (!i) (pending (!i) ++ [block]) !i) =
            Function.update chains i (chains i ++ [block]) i := by
      have split : catchUp sha (chains !i) (pending (!i) ++ [block]) =
          accept sha (catchUp sha (chains !i) (pending !i)) block := List.foldl_concat ..
      rw [Function.update_of_ne (not_ne i), Function.update_self, Function.update_self, split, reaches]
      exact accept_of_extends sha _ _ follows
    rcases unparted with part | ⟨other, ahead⟩
    · refine Or.inl ⟨i, caught ?_⟩
      rcases balanced.balance with ⟨j, reaches⟩ | same
      · by_cases near : j = i
        · subst near
          exact reaches
        · obtain rfl : j = !i := by cases i <;> cases j <;> simp_all
          have long := (catchUp_extends sha (chains !(!i)) (pending !(!i))).length_le
          rw [reaches, Bool.not_not] at long
          exact balanced.same_length i (Nat.le_antisymm long part.length_le) part
      · refine balanced.same_length i ?_ part
        cases i with
        | false => exact same
        | true => exact same.symm
    · refine Or.inr ?_
      have length := congrArg List.length ahead
      rw [List.length_append, List.length_singleton] at length
      cases i with
      | false => simpa using length.symm
      | true => simpa using length

/-- Reading a block keeps the balance. -/
theorem Balanced.read (balanced : Balanced sha chains pending) (i : Bool) (block : Block)
    (rest : List Block) (first : pending i = block :: rest)
    (honest : Honest sha (accept sha (chains i) block)) :
    Balanced sha (Function.update chains i (accept sha (chains i) block))
      (Function.update pending i rest) := by
  have longer := accept_length sha (chains i) block
  have index := balanced.sent i block (by simp [first])
  refine ⟨fun j => ?_, fun j other member => ?_, ?_⟩
  · by_cases same : j = i
    · subst same
      simpa using honest
    · simpa [same] using balanced.honest j
  · by_cases same : j = i
    · subst same
      rw [Function.update_self] at member
      rw [Function.update_of_ne (not_ne j)]
      exact balanced.sent j other (by simp [first, member])
    · rw [Function.update_of_ne same] at member
      obtain rfl : i = !j := by cases i <;> cases j <;> simp_all
      rw [Function.update_self]
      exact lt_of_lt_of_le (balanced.sent j other member) longer
  · rcases balanced.balance with ⟨j, reaches⟩ | same
    · refine Or.inl ⟨j, ?_⟩
      by_cases near : j = i
      · subst near
        have long := (catchUp_extends sha (chains !j) (pending !j)).length_le
        rw [reaches] at long
        rw [Function.update_of_ne (not_ne j), Function.update_of_ne (not_ne j), Function.update_self,
          accept_stale sha _ _ (balanced.honest j) (lt_of_lt_of_le index long), reaches]
      · obtain rfl : i = !j := by cases i <;> cases j <;> simp_all
        rw [first] at reaches
        rw [Function.update_self, Function.update_self, Function.update_of_ne near]
        exact reaches
    · refine Or.inr ?_
      have stale : accept sha (chains i) block = chains i := by
        refine accept_stale sha _ _ (balanced.honest i) ?_
        cases i with
        | false => exact same ▸ index
        | true => exact same ▸ index
      rw [stale, Function.update_eq_self]
      exact same

/-! ## Two connected nodes -/

/-- Mining and deliveries. -/
def MinesOrDelivers : NetEvent Bool → Prop
  | .act _ (.send _ _ _) => False
  | .act _ _ | .deliver _ _ => True
  | .connect _ _ _ _ | .accept _ _ | .closed _ _ => False

/-- Two processes that have just started and have each other as their only
peers. -/
structure JustJoined (fd : Bool → Nat) (net : Network Bool ssl UInt8) : Prop where
  joined : Joined fd net
  chain : ∀ i, chainInit ssl.sha256 = some (net.nodes i).chain
  mempool : ∀ i, (net.nodes i).mempool = []
  mining : ∀ i, (net.nodes i).mining = .idle
  channel : ∀ socket, net.channel socket = []

/-- A mined block that still fits the own chain is added before the chains have
parted. -/
def MinesUnparted (net : Network Bool ssl UInt8) : NetEvent Bool → Prop
  | .act i .mineAdd => ∀ filled last, (net.nodes i).mining = .selected filled →
    (net.nodes i).chain.getLast? = some last → filled.index = last.index + 1 →
      Unparted (net.nodes i).chain (net.nodes !i).chain
  | _ => True

/-- Nothing is under way, and no added block is still to be sent. Before that
the lengths may differ, because one side has not heard of the block yet. -/
structure Settled (fd : Bool → Nat) (net : Network Bool ssl UInt8) : Prop where
  channel : ∀ i, net.channel (i, fd i) = []
  sent : ∀ i block, (net.nodes i).mining ≠ .added block

/-- The block that a node still has to send. -/
def unsent : Mining → List Block
  | .added block => [block]
  | _ => []

/-- The state of the two nodes: their chains differ by the blocks that are
under way or still to be sent, and by nothing else. This is the invariant of
the runs. -/
structure Balancing (fd : Bool → Nat) (pending : Bool → List Block) (net : Network Bool ssl Message) :
    Prop where
  tracked : Tracked net
  joined : Joined fd net.represent
  waiting : ∀ i, ∃ blocks, net.channel (i, fd i) = blocks.map .newBlock ∧
    pending i = blocks ++ unsent (net.nodes !i).mining
  balanced : Balanced ssl.sha256 (fun i => (net.nodes i).chain) pending

variable {fd : Bool → Nat} {net next : Network Bool ssl Message}

/-- Two nodes that have just been joined with one chain satisfy the
invariant. -/
theorem balancing_start (start : Network Bool ssl UInt8) (begins : JustJoined fd start) :
    Balancing fd (fun _ => []) start.quiet := by
  have contents (contents : Contents) (lawful : contents.Lawful ssl) :
      contents.InNetwork start.quiet := by
    refine ⟨fun i => ⟨lawful.started _ (begins.chain i), ?_, ?_⟩, by simp [Network.quiet]⟩
    · simp [Network.quiet, begins.mempool i]
    · rw [show start.quiet.nodes = start.nodes from rfl, begins.mining i]
      trivial
  have tracked : Tracked start.quiet :=
    ⟨⟨contents _ (lawful_plain ssl), by simp [Network.quiet]⟩, contents _ (lawful_supply ssl)⟩
  refine ⟨tracked, ?_, fun i => ⟨[], rfl, ?_⟩, fun i => tracked.honest i, by simp, Or.inr ?_⟩
  · rw [represent_quiet start begins.channel]
    exact begins.joined
  · rw [show start.quiet.nodes = start.nodes from rfl, begins.mining]
    rfl
  · have same := (begins.chain false).symm.trans (begins.chain true)
    exact congrArg List.length (Option.some.inj same)

/-- A node does not send a block back to its only peer. -/
theorem react_only (node : Node ssl) (fd : Nat) (block : Block) (peers : node.peers = [⟨fd, true⟩]) :
    react node fd (.newBlock block) =
      ({ node with chain := accept ssl.sha256 node.chain block }, []) := by
  cases accepted : chainAddBlock ssl.sha256 node.chain block with
  | none => simp [react, accept, accepted]
  | some chain => simp [react, accept, accepted, broadcastBlockExcept, activeFds, peers]

/-- A delivery reads the first waiting block. -/
theorem balancing_delivers (balancing : Balancing fd pending net) (i : Bool) (fd' : Nat)
    (move : Move Bool ssl Message) (moved : net.move messages (.deliver i fd') = some move) :
    ∃ (block : Block) (rest : List Block),
      net.channel (i, fd i) = .newBlock block :: rest.map .newBlock ∧
      move = ⟨(net.put i { net.nodes i with chain := accept ssl.sha256 (net.nodes i).chain block }).drain
        (i, fd i) (rest.map .newBlock), i, []⟩ := by
  have peers : (net.nodes i).peers = [⟨fd i, true⟩] := balancing.joined.peers i
  have active : activeFds (net.nodes i) = [fd i] := by simp [activeFds, peers]
  simp only [Network.move] at moved
  split at moved
  · next member =>
    rw [active] at member
    obtain rfl := List.mem_singleton.mp member
    obtain ⟨blocks, channel, -⟩ := balancing.waiting i
    cases blocks with
    | nil => simp [channel, messages] at moved
    | cons block rest =>
      rw [List.map_cons] at channel
      simp only [channel, messages, react_only _ _ _ peers, Option.map_some, Option.some.injEq] at moved
      exact ⟨block, rest, channel, moved.symm⟩
  · cases moved

/-- Nothing is typed in. -/
theorem plain_of_kind (event : NetEvent Bool) (kind : MinesOrDelivers event) : PlainTexts event := by
  cases event with
  | act i action =>
    cases action with
    | send => exact kind.elim
    | mineTip | mineSelect | mineAdd | mineBroadcast => trivial
  | deliver => trivial
  | connect | accept | closed => exact kind.elim

/-- Lines of blocks fit the buffer. -/
theorem balancing_short (balancing : Balancing fd pending net) (event : NetEvent Bool)
    (kind : MinesOrDelivers event) : PlainTexts event ∧ ShortLines net.represent event := by
  have plain := plain_of_kind event kind
  refine ⟨plain, fun move moved packet member => ?_⟩
  have readable := balancing.tracked.readable
  rw [move_represent net event readable.deliverable] at moved
  obtain ⟨typed, typedMoved, rfl⟩ := Option.map_eq_some_iff.mp moved
  obtain ⟨-, texts⟩ := Contents.inNetwork_move (lawful_plain ssl) net event typed readable.plain
    (sends_plain net event plain) typedMoved
  have noChain : ∀ chain, packet.message ≠ .chainResponse chain := by
    intro chain same
    cases event with
    | act i action =>
      obtain ⟨⟨node, packets⟩, acted, rfl⟩ := Option.map_eq_some_iff.mp typedMoved
      cases act_acts _ _ _ _ acted with
      | sent | announced =>
        obtain ⟨fd, -, rfl⟩ := List.mem_map.mp member
        cases same
      | refused | tip | selected | added | abandoned => simp [Move.represent] at member
    | deliver i fd' =>
      obtain ⟨block, rest, -, rfl⟩ := balancing_delivers balancing i fd' typed typedMoved
      simp [Move.represent] at member
    | connect | accept | closed => exact kind.elim
  have length := text_length packet.message ((inMessage_plain _).mp (texts packet member)) 0
    fun chain same => absurd same (noChain chain)
  have size : maxMsgSize = 1048576 := rfl
  omega

/-- The chains after a change of one node. -/
theorem chains_put (net : Network Bool ssl Message) (i : Bool) (node : Node ssl) :
    (fun j => ((net.put i node).nodes j).chain) =
      Function.update (fun j => (net.nodes j).chain) i node.chain := by
  funext j
  by_cases same : j = i
  · subst same
    simp
  · simp [Network.put_other net i j node same, same]

/-- The peers stay connected. -/
theorem joined_put (joined : Joined fd net.represent) (i : Bool) (node : Node ssl)
    (peers : node.peers = (net.nodes i).peers) : Joined fd (net.put i node).represent := by
  refine ⟨fun j => ?_, joined.remote⟩
  change ((net.put i node).nodes j).peers = _
  by_cases same : j = i
  · subst same
    rw [Network.put_same, peers]
    exact joined.peers j
  · rw [Network.put_other net i j node same]
    exact joined.peers j

/-- A delivery keeps the balance. -/
theorem balancing_deliver (balancing : Balancing fd pending net) (tracked : Tracked next) (i : Bool)
    (fd' : Nat) (stepped : net.step messages (.deliver i fd') = some next) :
    ∃ later, Balancing fd later next := by
  obtain ⟨move, moved, rfl⟩ := Option.map_eq_some_iff.mp stepped
  obtain ⟨block, rest, first, rfl⟩ := balancing_delivers balancing i fd' move moved
  obtain ⟨blocks, channel, pends⟩ := balancing.waiting i
  obtain rfl : blocks = block :: rest := by
    rw [channel, ← List.map_cons] at first
    exact (List.map_injective_iff.mpr fun _ _ same => Message.newBlock.inj same) first
  have honest := tracked.honest i
  obtain ⟨node, made⟩ : ∃ node, node = { net.nodes i with
    chain := accept ssl.sha256 (net.nodes i).chain block } := ⟨_, rfl⟩
  have chain : node.chain = accept ssl.sha256 (net.nodes i).chain block := by rw [made]
  have peers : node.peers = (net.nodes i).peers := by rw [made]
  have stage : node.mining = (net.nodes i).mining := by rw [made]
  rw [← made] at tracked honest ⊢
  change Honest ssl.sha256 ((net.put i node).nodes i).chain at honest
  rw [Network.put_same, chain] at honest
  have joined := joined_put balancing.joined i node peers
  refine ⟨Function.update pending i (rest ++ unsent (net.nodes !i).mining), tracked,
    ⟨joined.peers, joined.remote⟩, fun j => ?_, ?_⟩
  · change ∃ blocks, ((net.put i node).drain (i, fd i) (rest.map .newBlock)).channel (j, fd j) = _ ∧
      Function.update pending i (rest ++ unsent (net.nodes !i).mining) j =
        blocks ++ unsent ((net.put i node).nodes !j).mining
    by_cases same : j = i
    · subst same
      refine ⟨rest, by simp [Network.drain], ?_⟩
      rw [Function.update_self, Network.put_other net j (!j) node (not_ne j)]
    · obtain ⟨others, waits, pending'⟩ := balancing.waiting j
      obtain rfl : i = !j := by cases i <;> cases j <;> simp_all
      have other : (j, fd j) ≠ (!j, fd !j) := fun equal => same (congrArg Prod.fst equal)
      refine ⟨others, by simpa [Network.drain, Network.put, other] using waits, ?_⟩
      rw [Function.update_of_ne same, Network.put_same, stage]
      exact pending'
  · change Balanced ssl.sha256 (fun j => ((net.put i node).nodes j).chain) _
    rw [chains_put, chain]
    exact balancing.balanced.read i block _ (by rw [pends]; rfl) honest

/-- An action other than `do_send` keeps the balance. -/
theorem balancing_act (balancing : Balancing fd pending net) (tracked : Tracked next) (i : Bool)
    (action : Action) (kind : MinesOrDelivers (.act i action))
    (unparted : MinesUnparted net.represent (.act i action))
    (stepped : net.step messages (.act i action) = some next) : ∃ later, Balancing fd later next := by
  obtain ⟨move, moved, rfl⟩ := Option.map_eq_some_iff.mp stepped
  obtain ⟨⟨node, packets⟩, acted, rfl⟩ := Option.map_eq_some_iff.mp moved
  have acts := act_acts _ _ _ _ acted
  have quiet (nothing : packets = []) (peers : node.peers = (net.nodes i).peers)
      (chain : node.chain = (net.nodes i).chain)
      (none : unsent node.mining = unsent (net.nodes i).mining) :
      Balancing fd pending (Move.post messages ⟨net.put i node, i, packets⟩) := by
    subst nothing
    refine ⟨tracked, joined_put balancing.joined i node peers, fun j => ?_, ?_⟩
    · obtain ⟨others, waits, pends⟩ := balancing.waiting j
      refine ⟨others, waits, pends.trans (congrArg _ ?_)⟩
      change _ = unsent ((net.put i node).nodes !j).mining
      by_cases same : (!j) = i
      · subst same
        rw [Network.put_same, none]
      · rw [Network.put_other net i _ node same]
    · change Balanced ssl.sha256 (fun j => ((net.put i node).nodes j).chain) _
      rw [chains_put, chain, Function.update_eq_self]
      exact balancing.balanced
  cases acts with
  | refused | sent => exact kind.elim
  | tip idle => exact ⟨pending, quiet rfl rfl rfl (by rw [idle]; rfl)⟩
  | selected read => exact ⟨pending, quiet rfl rfl rfl (by rw [read]; rfl)⟩
  | abandoned filled => exact ⟨pending, quiet rfl rfl rfl (by rw [filled]; rfl)⟩
  | @added filled mined attempts chain stage found accepted =>
    obtain ⟨follows, rfl⟩ := extends_of_chainAddBlock _ _ _ _ accepted
    have apart : Unparted (net.nodes i).chain (net.nodes !i).chain := by
      obtain ⟨-, last, tip, index, -⟩ := follows
      refine unparted filled last stage tip ?_
      rw [← index, (blockMine_sameContent found).index]
    have honest : Honest ssl.sha256 ((net.nodes i).chain ++ [mined]) := by
      have after := tracked.honest i
      change Honest ssl.sha256 ((net.put i _).nodes i).chain at after
      rwa [Network.put_same] at after
    refine ⟨Function.update pending (!i) (pending (!i) ++ [mined]), tracked,
      joined_put balancing.joined i _ rfl, fun j => ?_, ?_⟩
    · obtain ⟨others, waits, pends⟩ := balancing.waiting j
      refine ⟨others, waits, ?_⟩
      change _ = others ++ unsent ((net.put i _).nodes !j).mining
      by_cases same : j = !i
      · subst same
        rw [Bool.not_not, stage, show unsent (.selected filled) = [] from rfl, List.append_nil] at pends
        rw [Function.update_self, Bool.not_not, Network.put_same, pends]
        rfl
      · have near : (!j) ≠ i := fun equal => same (by rw [← equal, Bool.not_not])
        rw [Function.update_of_ne same, Network.put_other net i _ _ near, pends]
    · change Balanced ssl.sha256 (fun j => ((net.put i _).nodes j).chain) _
      rw [chains_put]
      exact balancing.balanced.mined i mined follows honest apart
  | @announced block added =>
    have peers : (net.nodes i).peers = [⟨fd i, true⟩] := balancing.joined.peers i
    have only : broadcastBlockExcept (net.nodes i) block none = [⟨fd i, .newBlock block⟩] := by
      simp [broadcastBlockExcept, activeFds, peers]
    obtain ⟨idle, made⟩ : ∃ idle, idle = { net.nodes i with mining := .idle } := ⟨_, rfl⟩
    rw [only, ← made] at tracked ⊢
    have kept := joined_put balancing.joined i idle (by rw [made])
    have connected : ∀ j, (net.put i idle).remote (j, fd j) = some (!j, fd !j) := kept.remote
    obtain ⟨nodes, remote, channel⟩ := post_channel messages connected i (.newBlock block)
    refine ⟨pending, tracked, ⟨fun j => ?_, fun j => ?_⟩, fun j => ?_, ?_⟩
    · change (((net.put i idle).post messages i ⟨fd i, .newBlock block⟩).nodes j).peers = _
      rw [nodes]
      exact kept.peers j
    · change ((net.put i idle).post messages i ⟨fd i, .newBlock block⟩).remote (j, fd j) = _
      rw [remote]
      exact kept.remote j
    · obtain ⟨others, waits, pends⟩ := balancing.waiting j
      change ∃ blocks, ((net.put i idle).post messages i ⟨fd i, .newBlock block⟩).channel (j, fd j) = _ ∧
        _ = blocks ++ unsent (((net.put i idle).post messages i ⟨fd i, .newBlock block⟩).nodes !j).mining
      rw [nodes, channel j]
      change ∃ blocks, net.channel (j, fd j) ++ _ = _ ∧ _
      rw [waits, pends]
      by_cases same : j = !i
      · subst same
        refine ⟨others ++ [block], by simp [messages], ?_⟩
        rw [Bool.not_not, Network.put_same, added, made]
        simp [unsent]
      · have near : (!j) ≠ i := fun equal => same (by rw [← equal, Bool.not_not])
        exact ⟨others, by simp [same], by rw [Network.put_other net i _ _ near]⟩
    · change Balanced ssl.sha256
        (fun j => (((net.put i idle).post messages i ⟨fd i, .newBlock block⟩).nodes j).chain) _
      rw [nodes, chains_put, made, Function.update_eq_self]
      exact balancing.balanced

/-! ## Runs -/

/-- The run lemma. -/
theorem balancing_run (start : Network Bool ssl Message) (reached : Network Bool ssl UInt8)
    (events : List (NetEvent Bool)) (balancing : Balancing fd pending start)
    (kind : ∀ event ∈ events, MinesOrDelivers event)
    (every : Every (Network.step bytes) MinesUnparted start.represent events)
    (ran : run (Network.step bytes) start.represent events = some reached) :
    ∃ typed later, typed.represent = reached ∧ Balancing fd later typed := by
  induction events generalizing start pending with
  | nil => exact ⟨start, pending, Option.some.inj ran, balancing⟩
  | cons event rest ih =>
    obtain ⟨next, stepped, later⟩ := (run_cons _ _ _ _ _).mp ran
    have here := kind event (by simp)
    obtain ⟨typed, typedRan, rfl, tracked⟩ := tracked_run start next [event] balancing.tracked
      ⟨balancing_short balancing event here, fun _ _ => trivial⟩
      ((run_cons _ _ _ _ _).mpr ⟨next, stepped, rfl⟩)
    obtain ⟨same, typedStepped, ends⟩ := (run_cons _ _ _ _ _).mp typedRan
    obtain rfl := Option.some.inj ends
    have kept : ∃ after, Balancing fd after same := by
      cases event with
      | act i action => exact balancing_act balancing tracked i action here every.1 typedStepped
      | deliver i fd' => exact balancing_deliver balancing tracked i fd' typedStepped
      | connect | accept | closed => exact here.elim
    obtain ⟨after, balancingAfter⟩ := kept
    exact ih same balancingAfter (fun other member => kind other (by simp [member]))
      (every.2 _ stepped) later

/-- If every block is mined before the chains have parted, two connected
processes have chains of the same length whenever nothing is under way. Where
two blocks compete for one place, the condition fails. -/
theorem lengths_agree (fd : Bool → Nat) (start reached : Network Bool ssl UInt8)
    (events : List (NetEvent Bool)) (begins : JustJoined fd start)
    (kind : ∀ event ∈ events, MinesOrDelivers event)
    (every : Every (Network.step bytes) MinesUnparted start events)
    (ran : run (Network.step bytes) start events = some reached) (settled : Settled fd reached) :
    (reached.nodes false).chain.length = (reached.nodes true).chain.length := by
  rw [← represent_quiet start begins.channel] at every ran
  obtain ⟨typed, later, rfl, balancing⟩ := balancing_run start.quiet reached events
    (balancing_start start begins) kind every ran
  refine balancing.balanced.lengths fun i => ?_
  obtain ⟨blocks, channel, pends⟩ := balancing.waiting i
  have empty : blocks = [] := by
    have silent : (typed.channel (i, fd i)).flatMap Message.text = [] := settled.channel i
    refine List.eq_nil_iff_forall_not_mem.mpr fun block member => ?_
    have waits : .newBlock block ∈ typed.channel (i, fd i) := by
      rw [channel]
      exact List.mem_map_of_mem member
    obtain ⟨plain, -⟩ := balancing.tracked.readable.deliverable (i, fd i) _ waits
    have text := List.flatMap_eq_nil_iff.mp silent _ waits
    rw [plain.text.1] at text
    simp at text
  have sent : unsent (typed.nodes !i).mining = [] := by
    cases stage : (typed.nodes !i).mining with
    | idle | tipRead | selected => rfl
    | added block => exact absurd stage (settled.sent (!i) block)
  rw [pends, empty, sent]
  rfl

/-! ## Examples -/

/-- Two connected processes at their start. -/
def newPair : Network Bool stubSsl UInt8 := connected fun _ => [genesisBlock]

/-- The pair of the example has just been joined. -/
theorem newPair_joined : JustJoined (fun _ => 0) newPair :=
  ⟨connected_joined _, fun _ => chainInit_sha256, fun _ => rfl, fun _ => rfl, fun _ => rfl⟩

/-- A short run of the two is evaluated on messages. -/
theorem newPair_run (events : List (NetEvent Bool)) (reached : Network Bool stubSsl Message)
    (few : events.length ≤ 149) (kind : ∀ event ∈ events, MinesOrDelivers event)
    (ran : run (Network.step messages) newPair.quiet events = some reached) :
    run (Network.step bytes) newPair events = some reached.represent := by
  have begins := balancing_start newPair newPair_joined
  have plain (event : NetEvent Bool) (member : event ∈ events) : PlainTexts event :=
    plain_of_kind event (kind event member)
  have every := shortLines_of_few_steps 1 newPair.quiet events begins.tracked.readable
    ⟨fun _ => Nat.le_refl 1, by simp [Network.quiet]⟩ (by omega) plain
  obtain ⟨agree, -⟩ := run_represent _ (fun _ _ both => both.1) (fun _ _ both => both.2)
    newPair.quiet events begins.tracked.readable every
  rw [represent_quiet newPair newPair_joined.channel] at agree
  rw [agree, ran]
  rfl

/-- A process mines a block. -/
def mine (i : Bool) (time : Int64) : List (NetEvent Bool) :=
  [.act i (.mineTip time), .act i .mineSelect, .act i .mineAdd]

/-- A state of whole messages with nothing under way is settled as a state of
bytes. -/
theorem settled_represent (typed : Network Bool stubSsl Message)
    (empty : typed.channel (false, 0) = [] ∧ typed.channel (true, 0) = [])
    (idle : (typed.nodes false).mining = .idle ∧ (typed.nodes true).mining = .idle) :
    Settled (fun _ => 0) typed.represent := by
  constructor
  · intro i
    change (typed.channel (i, 0)).flatMap Message.text = []
    cases i with
    | false => rw [empty.1]; rfl
    | true => rw [empty.2]; rfl
  · intro i block
    change (typed.nodes i).mining ≠ _
    cases i with
    | false => simp [idle.1]
    | true => simp [idle.2]

/-- Both processes mine before they have read the block of the other one; then
the first one mines again. -/
def forking : List (NetEvent Bool) :=
  mine false 192 ++ mine true 372 ++ [.act false .mineBroadcast, .act true .mineBroadcast,
    .deliver true 0, .deliver false 0] ++ mine false 248 ++ [.act false .mineBroadcast, .deliver true 0]

/-- The run consists of mining and of deliveries only. -/
theorem kind_forking : ∀ event ∈ forking, MinesOrDelivers event := by
  simp [forking, mine, MinesOrDelivers]

/-- Then everything has been handled, and the second process is one block
behind: it refuses the block, as it has another one in front of it, and it does
not ask for the longer chain. -/
theorem fork_persists : ∃ reached : Network Bool stubSsl UInt8,
    JustJoined (fun _ => 0) newPair ∧ (∀ event ∈ forking, MinesOrDelivers event) ∧
      run (Network.step bytes) newPair forking = some reached ∧ Settled (fun _ => 0) reached ∧
      (reached.nodes false).chain.length = 3 ∧ (reached.nodes true).chain.length = 2 := by
  have evaluated : (run (Network.step messages) newPair.quiet forking).map (fun net =>
      ((net.channel (false, 0), net.channel (true, 0)),
        ((net.nodes false).mining, (net.nodes true).mining),
        (net.nodes false).chain.length, (net.nodes true).chain.length)) =
      some (([], []), (.idle, .idle), 3, 2) := by decide +kernel
  obtain ⟨typed, typedRan, facts⟩ := Option.map_eq_some_iff.mp evaluated
  simp only [Prod.mk.injEq] at facts
  obtain ⟨empty, idle, lengths⟩ := facts
  exact ⟨typed.represent, newPair_joined, kind_forking,
    newPair_run forking typed (by decide) kind_forking typedRan, settled_represent typed empty idle,
    lengths⟩

/-- One process mines, and the other one gets the block. -/
def following : List (NetEvent Bool) := mine false 192 ++ [.act false .mineBroadcast, .deliver true 0]

/-- In this run nobody mines while the chains have parted. -/
theorem unparted_following : Every (Network.step bytes) MinesUnparted newPair following := by
  refine ⟨trivial, fun begun tip => ⟨trivial, fun filled selects => ⟨?_, fun _ _ =>
    ⟨trivial, fun _ _ => ⟨trivial, fun _ _ => trivial⟩⟩⟩⟩⟩
  rintro - - - - -
  have ran : run (Network.step bytes) newPair [.act false (.mineTip 192), .act false .mineSelect] =
      some filled := (run_cons _ _ _ _ _).mpr ⟨begun, tip, (run_cons _ _ _ _ _).mpr ⟨filled, selects, rfl⟩⟩
  have evaluated : (run (Network.step bytes) newPair
      [.act false (.mineTip 192), .act false .mineSelect]).map (fun net =>
        decide ((net.nodes true).chain = (net.nodes false).chain)) = some true := by decide +kernel
  rw [ran, Option.map_some, Option.some.injEq, decide_eq_true_eq] at evaluated
  exact Or.inl (by rw [Bool.not_false, evaluated])

/-- One process mines the second block, and the other one gets it. -/
theorem lengths_agree_here : ∃ reached : Network Bool stubSsl UInt8,
    (reached.nodes false).chain.length = 2 ∧
      (reached.nodes false).chain.length = (reached.nodes true).chain.length := by
  have evaluated : (run (Network.step messages) newPair.quiet following).map (fun net =>
      ((net.channel (false, 0), net.channel (true, 0)),
        ((net.nodes false).mining, (net.nodes true).mining), (net.nodes false).chain.length)) =
      some (([], []), (.idle, .idle), 2) := by decide +kernel
  obtain ⟨typed, typedRan, facts⟩ := Option.map_eq_some_iff.mp evaluated
  simp only [Prod.mk.injEq] at facts
  obtain ⟨empty, idle, length⟩ := facts
  have kind : ∀ event ∈ following, MinesOrDelivers event := by simp [following, mine, MinesOrDelivers]
  exact ⟨typed.represent, length, lengths_agree (fun _ => 0) newPair typed.represent following
    newPair_joined kind unparted_following (newPair_run following typed (by decide) kind typedRan)
    (settled_represent typed empty idle)⟩

end MiniCoin
