import MiniCoin.Nodes
import MiniCoin.Runs

/-!
# What one step of a node can do

The inversion lemmas of `Nodes`: every reaction to a message, every action and every
change of the peer table has one of the forms listed here, with its guards and with
what it sends. Results about runs are case analyses on these forms.

`handle_message` first reads a message from the line and then reacts to it.
`decode` is the reading part and `react` the other, so that the effect of arbitrary
bytes is the effect of some message or none.
-/

namespace MiniCoin

open ByteStrings

variable {ssl : OpenSSL}

/-! ## Messages -/

/-- The message that `handle_message` finds in a line, if it finds one it acts
on. -/
def decode (raw : List UInt8) : Option Message :=
  let (type, payload) := protocolParseMsg (cstr raw)
  if type = MsgType.newBlock.code then (payload.bind protocolDeserializeBlock).map .newBlock
  else if type = MsgType.newTx.code then
    match payload.map protocolDeserializeTx with
    | some (0, tx) => some (.newTx tx)
    | _ => none
  else if type = MsgType.requestChain.code then some .requestChain
  else if type = MsgType.chainResponse.code then
    (payload.bind protocolDeserializeChain).map .chainResponse
  else if type = MsgType.ping.code then some .ping
  else none

/-- What `handle_message` does with a message that it could read. It is the same
function with the parsing taken off. -/
def react (node : Node ssl) (peerFd : Nat) : Message → Node ssl × List Packet
  | .newBlock block =>
    match chainAddBlock ssl.sha256 node.chain block with
    | none => (node, [])
    | some chain =>
      ({ node with chain := chain }, broadcastBlockExcept node block (some peerFd))
  | .newTx tx => (onNewTx node tx, [])
  | .requestChain => (node, [⟨peerFd, .chainResponse node.chain⟩])
  | .chainResponse other =>
    match chainReplace ssl.sha256 node.chain other with
    | none => (node, [])
    | some chain => ({ node with chain := chain }, [])
  | .ping => (node, [⟨peerFd, .pong⟩])
  | .pong => (node, [])

/-- Handling a line is reacting to what can be read from it. -/
theorem handleMessage_eq (node : Node ssl) (peerFd : Nat) (raw : List UInt8) :
    handleMessage node peerFd raw =
      match decode raw with
      | none => (node, [])
      | some message => react node peerFd message := by
  unfold handleMessage decode
  obtain ⟨type, payload⟩ := protocolParseMsg (cstr raw)
  simp only
  split_ifs with newBlock newTx request response ping
  · cases payload.bind protocolDeserializeBlock with
    | none => rfl
    | some block => rfl
  · cases payload.map protocolDeserializeTx with
    | none => rfl
    | some parsed =>
      obtain ⟨code, tx⟩ := parsed
      by_cases accepted : code = 0
      · subst accepted
        rfl
      · simp [accepted]
  · rfl
  · cases payload.bind protocolDeserializeChain with
    | none => rfl
    | some other => rfl
  · rfl
  · rfl

/-- The forms of a reaction. A refused message changes nothing and is answered
with nothing. -/
inductive Reacts (node : Node ssl) (fd : Nat) : Message → Node ssl → List Packet → Prop where
  | nothing (message : Message) : Reacts node fd message node []
  | block {block : Block} {chain : Blockchain}
      (accepted : chainAddBlock ssl.sha256 node.chain block = some chain) :
      Reacts node fd (.newBlock block) { node with chain := chain }
        (broadcastBlockExcept node block (some fd))
  | tx (tx : Tx) : Reacts node fd (.newTx tx) (onNewTx node tx) []
  | request : Reacts node fd .requestChain node [⟨fd, .chainResponse node.chain⟩]
  | chain {other chain : Blockchain}
      (accepted : chainReplace ssl.sha256 node.chain other = some chain) :
      Reacts node fd (.chainResponse other) { node with chain := chain } []
  | ping : Reacts node fd .ping node [⟨fd, .pong⟩]

/-- The reaction to a message is one of these cases, and each case names the
branch of the source. -/
theorem react_reacts (node : Node ssl) (fd : Nat) (message : Message) :
    Reacts node fd message (react node fd message).1 (react node fd message).2 := by
  cases message with
  | newBlock block =>
    cases accepted : chainAddBlock ssl.sha256 node.chain block with
    | none =>
      simp only [react, accepted]
      exact .nothing _
    | some chain =>
      simp only [react, accepted]
      exact .block accepted
  | newTx tx => exact .tx tx
  | requestChain => exact .request
  | chainResponse other =>
    cases accepted : chainReplace ssl.sha256 node.chain other with
    | none =>
      simp only [react, accepted]
      exact .nothing _
    | some chain =>
      simp only [react, accepted]
      exact .chain accepted
  | ping => exact .ping
  | pong => exact .nothing _

/-! ## The mempool -/

/-- A transaction does not touch the chain. -/
theorem onNewTx_chain (node : Node ssl) (tx : Tx) : (onNewTx node tx).chain = node.chain := by
  unfold onNewTx
  split <;> rfl

/-- Nor the block that is being mined. -/
theorem onNewTx_mining (node : Node ssl) (tx : Tx) : (onNewTx node tx).mining = node.mining := by
  unfold onNewTx
  split <;> rfl

/-- Nor the peers. -/
theorem onNewTx_peers (node : Node ssl) (tx : Tx) : (onNewTx node tx).peers = node.peers := by
  unfold onNewTx
  split <;> rfl

/-- Whatever is in the mempool now was there before or is the transaction, for
which there was room. -/
theorem mem_onNewTx (node : Node ssl) (tx other : Tx)
    (member : other ∈ (onNewTx node tx).mempool) :
    other ∈ node.mempool ∨ (node.mempool.length < mempoolSize ∧ other = tx) := by
  unfold onNewTx at member
  split at member
  · next room =>
    rcases List.mem_append.mp member with old | new
    · exact Or.inl old
    · exact Or.inr ⟨room, List.mem_singleton.mp new⟩
  · exact Or.inl member

/-! ## Actions -/

/-- The block that `do_mine` starts from: the next index, the hash of the tip
and the time. -/
def blockAfter (last : Block) (time : Int64) : Block :=
  { Block.zero with
    index := last.index + 1
    timestamp := time
    prevHash := last.hash }

/-- The forms of an action that the interface allows. A payment can be made only
while nothing is mined, as one thread does both. -/
inductive Acts (node : Node ssl) : Action → Node ssl → List Packet → Prop where
  | refused (receiver : Token) (amount fee : UInt64)
      (made : doSendTx node receiver amount fee = none) :
      Acts node (.send receiver amount fee) node []
  | sent {receiver : Token} {amount fee : UInt64} {tx : Tx} (idle : node.mining = .idle)
      (made : doSendTx node receiver amount fee = some tx) :
      Acts node (.send receiver amount fee) (onNewTx node tx) (nodeBroadcastTx node tx)
  | tip {time : Int64} {last : Block} (idle : node.mining = .idle)
      (tip : node.chain.getLast? = some last) :
      Acts node (.mineTip time) { node with mining := .tipRead (blockAfter last time) } []
  | selected {block : Block} (read : node.mining = .tipRead block) :
      Acts node .mineSelect
        { node with
          mempool := []
          mining := .selected
            (fillBlock ssl.sha256 node.chain node.mempool node.wallet.address block) } []
  | added {block mined : Block} {attempts : UInt64} {chain : Blockchain}
      (filled : node.mining = .selected block)
      (found : blockMine ssl.sha256 block = some (attempts, mined))
      (accepted : chainAddBlock ssl.sha256 node.chain mined = some chain) :
      Acts node .mineAdd { node with chain := chain, mining := .added mined } []
  | abandoned {block mined : Block} {attempts : UInt64} (filled : node.mining = .selected block)
      (found : blockMine ssl.sha256 block = some (attempts, mined))
      (stale : chainAddBlock ssl.sha256 node.chain mined = none) :
      Acts node .mineAdd { node with mining := .idle } []
  | announced {block : Block} (added : node.mining = .added block) :
      Acts node .mineBroadcast { node with mining := .idle } (broadcastBlockExcept node block none)

/-- What the user does is one of these cases. -/
theorem act_acts (node next : Node ssl) (action : Action) (packets : List Packet)
    (stepped : act node action = some (next, packets)) : Acts node action next packets := by
  cases action with
  | send receiver amount fee =>
    by_cases idle : node.mining = .idle
    · cases made : doSendTx node receiver amount fee with
      | none =>
        simp only [act, idle, if_true, doSend, made, Option.some.injEq, Prod.mk.injEq] at stepped
        obtain ⟨rfl, rfl⟩ := stepped
        exact .refused receiver amount fee made
      | some tx =>
        simp only [act, idle, if_true, doSend, made, Option.some.injEq, Prod.mk.injEq] at stepped
        obtain ⟨rfl, rfl⟩ := stepped
        have samePackets : nodeBroadcastTx (onNewTx node tx) tx = nodeBroadcastTx node tx := by
          simp only [nodeBroadcastTx, activeFds, onNewTx_peers]
        rw [samePackets]
        exact .sent idle made
    · simp [act, idle] at stepped
  | mineTip time =>
    by_cases idle : node.mining = .idle
    · cases tip : node.chain.getLast? with
      | none => simp [act, idle, mineTip, chainLastBlock, tip] at stepped
      | some last =>
        simp only [act, idle, if_true, mineTip, chainLastBlock, tip, Option.map_some,
          Option.some.injEq, Prod.mk.injEq] at stepped
        obtain ⟨rfl, rfl⟩ := stepped
        exact .tip idle tip
    · simp [act, idle] at stepped
  | mineSelect =>
    cases stage : node.mining with
    | tipRead block =>
      simp only [act, mineSelect, stage, Option.map_some, Option.some.injEq,
        Prod.mk.injEq] at stepped
      obtain ⟨rfl, rfl⟩ := stepped
      exact .selected stage
    | idle | selected | added => simp [act, mineSelect, stage] at stepped
  | mineAdd =>
    cases stage : node.mining with
    | selected block =>
      cases found : blockMine ssl.sha256 block with
      | none => simp [act, mineAdd, stage, found] at stepped
      | some result =>
        obtain ⟨attempts, mined⟩ := result
        cases accepted : chainAddBlock ssl.sha256 node.chain mined with
        | none =>
          simp only [act, mineAdd, stage, found, accepted, Option.map_some, Option.some.injEq,
            Prod.mk.injEq] at stepped
          obtain ⟨rfl, rfl⟩ := stepped
          exact .abandoned stage found accepted
        | some chain =>
          simp only [act, mineAdd, stage, found, accepted, Option.map_some, Option.some.injEq,
            Prod.mk.injEq] at stepped
          obtain ⟨rfl, rfl⟩ := stepped
          exact .added stage found accepted
    | idle | tipRead | added => simp [act, mineAdd, stage] at stepped
  | mineBroadcast =>
    cases stage : node.mining with
    | added block =>
      simp only [act, mineBroadcast, stage, Option.some.injEq, Prod.mk.injEq] at stepped
      obtain ⟨rfl, rfl⟩ := stepped
      exact .announced stage
    | idle | tipRead | selected => simp [act, mineBroadcast, stage] at stepped

/-! ## The peer table -/

/-- What a change of the peer table sends: requests for a chain and mempool
entries. -/
def Greeting (node : Node ssl) (packet : Packet) : Prop :=
  packet.message = .requestChain ∨ ∃ tx ∈ node.mempool, packet.message = .newTx tx

/-- A request of the chain is all that is sent to a slot. -/
theorem nodeRequestChain_greeting (node : Node ssl) (idx : Nat) :
    ∀ packet ∈ nodeRequestChain node idx, packet.message = .requestChain := by
  intro packet member
  unfold nodeRequestChain at member
  split at member
  · split at member <;> simp_all
  · simp at member

/-- A new peer changes the table of peers only. It is greeted with a request of
its chain and with the transactions that wait here. -/
theorem addPeer_greets (node : Node ssl) (fd : Nat) :
    (∃ peers, (addPeer node fd).1 = { node with peers := peers }) ∧
      ∀ packet ∈ (addPeer node fd).2, Greeting node packet := by
  unfold addPeer
  split
  · exact ⟨⟨node.peers, rfl⟩, by simp⟩
  · refine ⟨⟨_, rfl⟩, fun packet member => ?_⟩
    rcases List.mem_append.mp member with request | resent
    · exact Or.inl (nodeRequestChain_greeting _ _ packet request)
    · obtain ⟨tx, inMempool, rfl⟩ := List.mem_map.mp resent
      exact Or.inr ⟨tx, inMempool, rfl⟩

/-- The same on the side that connects. -/
theorem nodeConnectPeer_greets (node : Node ssl) (fd : Nat) :
    (∃ peers, (nodeConnectPeer node fd).1 = { node with peers := peers }) ∧
      ∀ packet ∈ (nodeConnectPeer node fd).2, Greeting node packet := by
  obtain ⟨kept, greeting⟩ := addPeer_greets node fd
  unfold nodeConnectPeer
  generalize addPeer node fd = added at kept greeting ⊢
  obtain ⟨grown, packets⟩ := added
  dsimp only at kept greeting ⊢
  split
  · exact ⟨kept, greeting⟩
  · refine ⟨kept, fun packet member => ?_⟩
    rcases List.mem_append.mp member with early | request
    · exact greeting packet early
    · exact Or.inl (nodeRequestChain_greeting _ _ packet request)

/-! ## One node at large -/

/-- The forms of a step of a node: a line that is ignored or reacted to, an
action, or a change of the table of peers. -/
inductive Steps (node : Node ssl) : Event → Node ssl → List Packet → Prop where
  | ignored {fd : Nat} {line : List UInt8} (unread : decode line = none) :
      Steps node (.receive fd line) node []
  | reacted {fd : Nat} {line : List UInt8} {message : Message} {next : Node ssl}
      {packets : List Packet} (read : decode line = some message)
      (reacts : Reacts node fd message next packets) : Steps node (.receive fd line) next packets
  | acted {action : Action} {next : Node ssl} {packets : List Packet}
      (acts : Acts node action next packets) : Steps node (.action action) next packets
  | peers {event : Event} (peers : List Peer) {packets : List Packet}
      (greeting : ∀ packet ∈ packets, Greeting node packet) :
      Steps node event { node with peers := peers } packets

/-- Every step of a node is one of these cases, so proofs about runs need not
unfold the node. -/
theorem nodeStep_steps (node next : Node ssl) (event : Event) (packets : List Packet)
    (stepped : nodeStep node event = some (next, packets)) : Steps node event next packets := by
  cases event with
  | action action => exact .acted (act_acts node next action packets stepped)
  | receive fd line =>
    simp only [nodeStep, handleMessage_eq, Option.some.injEq] at stepped
    cases read : decode line with
    | none =>
      simp only [read, Prod.mk.injEq] at stepped
      obtain ⟨rfl, rfl⟩ := stepped
      exact .ignored read
    | some message =>
      simp only [read] at stepped
      have reacts := react_reacts node fd message
      rw [stepped] at reacts
      exact .reacted read reacts
  | accept fd =>
    obtain ⟨⟨peers, kept⟩, greeting⟩ := addPeer_greets node fd
    rw [Option.some.inj stepped] at kept greeting
    obtain rfl := kept
    exact .peers peers greeting
  | connect fd =>
    obtain ⟨⟨peers, kept⟩, greeting⟩ := nodeConnectPeer_greets node fd
    rw [Option.some.inj stepped] at kept greeting
    obtain rfl := kept
    exact .peers peers greeting
  | closed fd =>
    simp only [nodeStep, Option.some.injEq, Prod.mk.injEq] at stepped
    obtain ⟨rfl, rfl⟩ := stepped
    exact .peers _ (by simp)

end MiniCoin
