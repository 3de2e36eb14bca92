import MiniCoin.MinedBlocks
import MiniCoin.Networks

/-!
# What a network contains

Properties of transactions, blocks and chains that hold of all that the nodes store and of
all that is under way. If what `do_send`, `do_mine` and `chain_init` create has them, and
appending an accepted block to a chain keeps them, then they hold in every reachable state:
the nodes only pass on what they have.
-/

namespace MiniCoin

open ByteStrings Runs

variable {ι : Type} {ssl : OpenSSL}

/-- A property of transactions, one of blocks and one of chains. Most invariants
of a network speak of what is stored and under way, and they are instances of
this. -/
structure Contents where
  tx : Tx → Prop
  block : Block → Prop
  chain : Blockchain → Prop

namespace Contents

/-- A block as `do_mine` begins it, on the tip of some chain. -/
def Begun (contents : Contents) (block : Block) : Prop :=
  ∃ tips last time, contents.chain tips ∧ tips.getLast? = some last ∧ block = blockAfter last time

/-- A block as `do_mine` fills it, from some chain and some mempool. -/
def Filled (contents : Contents) (ssl : OpenSSL) (block : Block) : Prop :=
  ∃ (chain : Blockchain) (mempool : List Tx) (wallet : Wallet ssl) (begun : Block),
    contents.Begun begun ∧ (∀ tx ∈ mempool, contents.tx tx) ∧
      block = fillBlock ssl.sha256 chain mempool wallet.address begun

/-- The properties hold at the start, of what is mined and of chains that are
extended. -/
structure Lawful (contents : Contents) (ssl : OpenSSL) : Prop where
  started : ∀ chain, chainInit ssl.sha256 = some chain → contents.chain chain
  extended : ∀ chain block, contents.chain chain → contents.block block →
    Extends ssl.sha256 chain block → contents.chain (chain ++ [block])
  mined : ∀ filled attempts block, contents.Filled ssl filled →
    blockMine ssl.sha256 filled = some (attempts, block) → contents.block block

/-- The property follows the block through the stages of `do_mine`. -/
def InMining (contents : Contents) (ssl : OpenSSL) : Mining → Prop
  | .idle => True
  | .tipRead block => contents.Begun block
  | .selected block => contents.Filled ssl block
  | .added block => contents.block block

/-- What a node stores has the properties: its chain, the entries of its mempool
and the block that it is mining. -/
structure InNode (contents : Contents) (node : Node ssl) : Prop where
  chain : contents.chain node.chain
  mempool : ∀ tx ∈ node.mempool, contents.tx tx
  mining : contents.InMining ssl node.mining

/-- What a message carries has the property of its kind. -/
def InMessage (contents : Contents) : Message → Prop
  | .newBlock block => contents.block block
  | .newTx tx => contents.tx tx
  | .chainResponse chain => contents.chain chain
  | .requestChain | .ping | .pong => True

/-- The properties hold in all nodes and of all messages under way. One step is
examined once, for all properties. -/
structure InNetwork (contents : Contents) (net : Network ι ssl Message) : Prop where
  nodes : ∀ i, contents.InNode (net.nodes i)
  channels : ∀ socket, ∀ message ∈ net.channel socket, contents.InMessage message

/-- The transactions that users send have the property. It is the only condition
on a step that the invariants need. -/
def Sends (contents : Contents) (net : Network ι ssl Message) : NetEvent ι → Prop
  | .act i (.send receiver amount fee) =>
    ∀ tx, doSendTx (net.nodes i) receiver amount fee = some tx → contents.tx tx
  | _ => True

variable {contents : Contents} {node next : Node ssl} {packets : List Packet}

/-- A new transaction in the mempool has the property if it had it before. -/
theorem inNode_onNewTx (holds : contents.InNode node) (tx : Tx) (new : contents.tx tx) :
    contents.InNode (onNewTx node tx) := by
  refine ⟨by rw [onNewTx_chain]; exact holds.chain, fun other member => ?_,
    by rw [onNewTx_mining]; exact holds.mining⟩
  rcases mem_onNewTx node tx other member with old | ⟨-, rfl⟩
  · exact holds.mempool other old
  · exact new

/-- What an action leaves and sends. -/
theorem inNode_acts (lawful : contents.Lawful ssl) (holds : contents.InNode node) {action : Action}
    (acts : Acts node action next packets)
    (sends : ∀ receiver amount fee, action = .send receiver amount fee →
      ∀ tx, doSendTx node receiver amount fee = some tx → contents.tx tx) :
    contents.InNode next ∧ ∀ packet ∈ packets, contents.InMessage packet.message := by
  cases acts with
  | refused receiver amount fee made => exact ⟨holds, by simp⟩
  | sent idle made =>
    have new := sends _ _ _ rfl _ made
    refine ⟨inNode_onNewTx holds _ new, fun packet member => ?_⟩
    obtain ⟨fd, -, rfl⟩ := List.mem_map.mp member
    exact new
  | tip idle tip => exact ⟨⟨holds.chain, holds.mempool, _, _, _, holds.chain, tip, rfl⟩, by simp⟩
  | @selected block read =>
    have begun : contents.Begun block := by simpa [InMining, read] using holds.mining
    exact ⟨⟨holds.chain, by simp, _, _, _, _, begun, holds.mempool, rfl⟩, by simp⟩
  | @added block mined attempts chain filled found accepted =>
    have before : contents.Filled ssl block := by simpa [InMining, filled] using holds.mining
    have new := lawful.mined block attempts mined before found
    obtain ⟨follows, rfl⟩ := extends_of_chainAddBlock _ _ _ _ accepted
    exact ⟨⟨lawful.extended _ _ holds.chain new follows, holds.mempool, new⟩, by simp⟩
  | abandoned filled found stale => exact ⟨⟨holds.chain, holds.mempool, trivial⟩, by simp⟩
  | @announced block added =>
    have mined : contents.block block := by simpa [InMining, added] using holds.mining
    refine ⟨⟨holds.chain, holds.mempool, trivial⟩, fun packet member => ?_⟩
    obtain ⟨fd, -, rfl⟩ := List.mem_map.mp member
    exact mined

/-- What a reaction leaves and sends. -/
theorem inNode_reacts (lawful : contents.Lawful ssl) (holds : contents.InNode node) {fd : Nat}
    {message : Message} (carried : contents.InMessage message)
    (reacts : Reacts node fd message next packets) :
    contents.InNode next ∧ ∀ packet ∈ packets, contents.InMessage packet.message := by
  cases reacts with
  | nothing message => exact ⟨holds, by simp⟩
  | block accepted =>
    obtain ⟨follows, rfl⟩ := extends_of_chainAddBlock _ _ _ _ accepted
    refine ⟨⟨lawful.extended _ _ holds.chain carried follows, holds.mempool, holds.mining⟩,
      fun packet member => ?_⟩
    obtain ⟨fd, -, rfl⟩ := List.mem_map.mp member
    exact carried
  | tx tx => exact ⟨inNode_onNewTx holds tx carried, by simp⟩
  | request =>
    refine ⟨holds, fun packet member => ?_⟩
    obtain rfl := List.mem_singleton.mp member
    exact holds.chain
  | chain accepted =>
    obtain ⟨-, -, rfl⟩ := (chainReplace_iff _ _ _ _).mp accepted
    exact ⟨⟨carried, holds.mempool, holds.mining⟩, by simp⟩
  | ping => exact ⟨holds, by simp [InMessage]⟩

/-- A greeting sends what the node stores already. -/
theorem inMessage_greeting (holds : contents.InNode node) (packet : Packet)
    (greeting : Greeting node packet) : contents.InMessage packet.message := by
  rcases greeting with request | ⟨tx, member, resent⟩
  · rw [request]
    trivial
  · rw [resent]
    exact holds.mempool tx member

/-- At the start there is the genesis chain only. -/
theorem inNetwork_started (lawful : contents.Lawful ssl) (net : Network ι ssl Message)
    (started : net.Started) : contents.InNetwork net where
  nodes i := by
    have node := started.nodes i
    exact ⟨lawful.started _ node.chain, by simp [node.mempool], by rw [node.mining]; trivial⟩
  channels socket message member := by simp [started.channel socket] at member

variable [DecidableEq ι]

/-- The step lemma. -/
theorem inNetwork_move (lawful : contents.Lawful ssl) (net : Network ι ssl Message)
    (event : NetEvent ι) (move : Move ι ssl Message) (holds : contents.InNetwork net)
    (sends : contents.Sends net event) (moved : net.move messages event = some move) :
    contents.InNetwork move.net ∧ ∀ packet ∈ move.packets, contents.InMessage packet.message := by
  obtain ⟨nodes, channels, sent⟩ := forall_move contents.InNode contents.InMessage net event move
    holds.nodes holds.channels
    (by
      rintro i action node packets rfl acts
      refine inNode_acts lawful (holds.nodes i) acts ?_
      rintro receiver amount fee rfl
      exact sends)
    (fun i fd message rest node packets _ waiting reacts => inNode_reacts lawful (holds.nodes i)
      (holds.channels (i, fd) message (by simp [waiting])) reacts)
    (fun i table => ⟨(holds.nodes i).chain, (holds.nodes i).mempool, (holds.nodes i).mining⟩)
    (fun i packet greeting => inMessage_greeting (holds.nodes i) packet greeting) moved
  exact ⟨⟨nodes, channels⟩, sent⟩

/-- Every step keeps the properties, if what users send has them. -/
theorem inNetwork_step (lawful : contents.Lawful ssl) (net next : Network ι ssl Message)
    (event : NetEvent ι) (holds : contents.InNetwork net) (sends : contents.Sends net event)
    (stepped : net.step messages event = some next) : contents.InNetwork next := by
  obtain ⟨move, moved, rfl⟩ := Option.map_eq_some_iff.mp stepped
  obtain ⟨before, sent⟩ := inNetwork_move lawful net event move holds sends moved
  constructor
  · rw [(move.post_nodes messages).1]
    exact before.nodes
  · intro socket message waits
    rcases move.mem_post socket message waits with old | ⟨packet, member, rfl⟩
    · exact before.channels socket message old
    · exact sent packet member

end Contents

end MiniCoin
