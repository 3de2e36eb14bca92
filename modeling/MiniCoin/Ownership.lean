import MiniCoin.ChainSafety

/-!
# Who can spend

`do_send` signs what it sends, and `wallet_verify_tx` would recognise it. No function
calls `wallet_verify_tx`, so a received transaction is stored whether it verifies or
not. All stored transactions verify exactly as long as all received ones that are
stored do; the miner adds none of its own except the coinbase transaction.
-/

namespace MiniCoin

open ByteStrings Runs

variable {ssl : OpenSSL}

/-- Only the coinbase transaction does without a signature of its sender. It is
`wallet_verify_tx` that decides. -/
def Authorised (ssl : OpenSSL) (tx : Tx) : Prop :=
  tx.sender ≠ coinbaseAddr → walletVerifyTx ssl tx = true

/-- Every transaction in the mempool and in the blocks after block 0 is
authorised. -/
def OwnersSpend (node : Node ssl) : Prop :=
  (∀ tx ∈ node.mempool, Authorised ssl tx) ∧
    ∀ block ∈ node.chain.tail, ∀ tx ∈ block.listed, Authorised ssl tx

/-- So is every transaction of the block that is being mined. -/
def MinesAuthorised (node : Node ssl) : Prop :=
  ∀ block ∈ node.mining.block, ∀ tx ∈ block.listed, Authorised ssl tx

/-- What a received message would store is authorised. Neither `on_new_tx` nor
`chain_add_block` asks for it. -/
def StoresAuthorised (node : Node ssl) : Message → Prop
  | .newTx tx => node.mempool.length < mempoolSize → Authorised ssl tx
  | .newBlock block =>
    Extends ssl.sha256 node.chain block → ∀ tx ∈ block.listed, Authorised ssl tx
  | .chainResponse other =>
    node.chain.length < other.length → chainValidate ssl.sha256 other = true →
      ∀ block ∈ other.tail, ∀ tx ∈ block.listed, Authorised ssl tx
  | _ => True

/-- What stands behind the first block of a longer chain is old or new. -/
theorem mem_tail_append (chain : Blockchain) (block other : Block)
    (member : other ∈ (chain ++ [block]).tail) : other ∈ chain.tail ∨ other = block := by
  cases chain with
  | nil => simp at member
  | cons first rest => simpa using member

/-- What the wallet of a node signs is authorised. -/
theorem doSendTx_authorised (accepts : ∀ key message sig, ssl.digestSign key message = some sig →
      ssl.digestVerify (ssl.rawPublicKey key).toList sig.toList message = true)
    (node : Node ssl) (receiver : Token) (amount fee : UInt64) (tx : Tx)
    (made : doSendTx node receiver amount fee = some tx) : Authorised ssl tx := by
  intro notCoinbase
  obtain ⟨-, -, signed⟩ := doSendTx_some node receiver amount fee tx made
  exact walletSignTx_verifies accepts node.wallet _ tx rfl signed

/-- The transactions that the miner puts into a block come from the mempool,
except the coinbase transaction. -/
theorem fillBlock_authorised (node : Node ssl) (block : Block) (owners : OwnersSpend node) :
    ∀ tx ∈ (fillBlock ssl.sha256 node.chain node.mempool node.wallet.address block).listed,
      Authorised ssl tx := by
  intro tx member
  rw [fillBlock_listed] at member
  rcases List.mem_cons.mp member with rfl | selected
  · exact fun notCoinbase => absurd rfl notCoinbase
  · exact owners.1 tx ((selectTxs_sublist _ _).subset selected)

/-- A block of authorised payments keeps the invariant, wherever it came
from. -/
theorem ownersSpend_append (node : Node ssl) (chain : Blockchain) (block : Block)
    (mining : Mining) (owners : OwnersSpend node)
    (authorised : ∀ tx ∈ block.listed, Authorised ssl tx)
    (accepted : chainAddBlock ssl.sha256 node.chain block = some chain) :
    OwnersSpend { node with chain := chain, mining := mining } := by
  obtain ⟨-, rfl⟩ := extends_of_chainAddBlock _ _ _ _ accepted
  refine ⟨owners.1, fun other member => ?_⟩
  rcases mem_tail_append _ _ _ member with old | rfl
  · exact owners.2 other old
  · exact authorised

/-- A payment that finds the mempool full is dropped, and needs no
authorisation. -/
theorem ownersSpend_onNewTx (node : Node ssl) (tx : Tx) (owners : OwnersSpend node)
    (authorised : node.mempool.length < mempoolSize → Authorised ssl tx) :
    OwnersSpend (onNewTx node tx) := by
  refine ⟨fun other member => ?_, ?_⟩
  · rcases mem_onNewTx node tx other member with old | ⟨room, rfl⟩
    · exact owners.1 other old
    · exact authorised room
  · rw [onNewTx_chain]
    exact owners.2

/-- The step lemma: authorised storage stays authorised, and so does the mined
block. -/
theorem ownersSpend_step (accepts : ∀ key message sig, ssl.digestSign key message = some sig →
      ssl.digestVerify (ssl.rawPublicKey key).toList sig.toList message = true)
    (node next : Node ssl) (event : Event) (owners : OwnersSpend node)
    (mines : MinesAuthorised node) (received : Receives StoresAuthorised node event)
    (stepped : nodeNext node event = some next) : OwnersSpend next ∧ MinesAuthorised next := by
  obtain ⟨packets, steps⟩ := nodeNext_steps node next event stepped
  cases steps with
  | ignored unread => exact ⟨owners, mines⟩
  | peers peers greeting => exact ⟨owners, mines⟩
  | reacted read reacts =>
    have stores := received _ read
    cases reacts with
    | nothing | request | ping => exact ⟨owners, mines⟩
    | block accepted =>
      have authorised := stores (extends_of_chainAddBlock _ _ _ _ accepted).1
      exact ⟨ownersSpend_append node _ _ node.mining owners authorised accepted, mines⟩
    | tx tx =>
      refine ⟨ownersSpend_onNewTx node tx owners stores, ?_⟩
      rwa [MinesAuthorised, onNewTx_mining]
    | chain accepted =>
      obtain ⟨longer, valid, rfl⟩ := (chainReplace_iff _ _ _ _).mp accepted
      exact ⟨⟨owners.1, stores longer ((chainValidate_iff _ _).mpr valid)⟩, mines⟩
  | acted acts =>
    cases acts with
    | refused => exact ⟨owners, mines⟩
    | sent idle made =>
      refine ⟨ownersSpend_onNewTx node _ owners fun _ => doSendTx_authorised accepts _ _ _ _ _ made, ?_⟩
      rwa [MinesAuthorised, onNewTx_mining]
    | tip idle tip =>
      refine ⟨owners, fun block member => ?_⟩
      obtain rfl := Option.some.inj member
      simp [blockAfter, Block.listed, Block.count, Block.zero]
    | selected read =>
      refine ⟨⟨by simp, owners.2⟩, fun block member => ?_⟩
      obtain rfl := Option.some.inj member
      exact fillBlock_authorised node _ owners
    | added filled found accepted =>
      have authorised := mines _ (by rw [filled]; rfl)
      rw [← (blockMine_sameContent found).listed] at authorised
      refine ⟨ownersSpend_append node _ _ _ owners authorised accepted, fun block member => ?_⟩
      exact Option.some.inj member ▸ authorised
    | abandoned | announced => exact ⟨owners, by simp [MinesAuthorised, Mining.block]⟩

/-- Conversely, if a received message leaves only authorised transactions in the
store, then what it stored was authorised. -/
theorem storesAuthorised_of_next (node : Node ssl) (event : Event)
    (kept : ∀ next, nodeNext node event = some next → OwnersSpend next) :
    Receives StoresAuthorised node event := by
  cases event with
  | receive fd line =>
    intro message read
    have after : OwnersSpend (react node fd message).1 :=
      kept _ (by simp [nodeNext, nodeStep, handleMessage_eq, read])
    cases message with
    | newTx tx =>
      intro room
      exact after.1 tx (by simp [react, onNewTx, room])
    | newBlock block =>
      intro follows
      obtain ⟨-, last, tip, -⟩ := id follows
      simp only [react, chainAddBlock_of_extends _ _ _ follows] at after
      refine after.2 block ?_
      cases chain : node.chain with
      | nil => simp [chain] at tip
      | cons first rest => simp
    | chainResponse other =>
      intro longer valid
      have taken : chainReplace ssl.sha256 node.chain other = some other :=
        (chainReplace_iff _ _ _ _).mpr ⟨longer, (chainValidate_iff _ _).mp valid, rfl⟩
      simp only [react, taken] at after
      exact after.2
    | requestChain | ping | pong => trivial
  | action | accept | connect | closed => trivial

/-- In a run of a process every stored transaction is authorised exactly as long
as everything that received messages store is. -/
theorem owners_spend_iff (accepts : ∀ key message sig, ssl.digestSign key message = some sig →
      ssl.digestVerify (ssl.rawPublicKey key).toList sig.toList message = true)
    (start : Node ssl) (events : List Event) (started : Started start) :
    Throughout nodeNext OwnersSpend start events ↔
      Every nodeNext (Receives StoresAuthorised) start events := by
  obtain ⟨genesis, created, chain⟩ := Option.map_eq_some_iff.mp started.chain
  have owners : OwnersSpend start := ⟨by simp [started.mempool], by simp [← chain]⟩
  have mines : MinesAuthorised start := by simp [MinesAuthorised, started.mining, Mining.block]
  refine throughout_iff_every nodeNext OwnersSpend MinesAuthorised _ ?_ ?_ start events owners mines
  · intro node event owners mines
    constructor
    · intro received next stepped
      exact (ownersSpend_step accepts node next event owners mines received stepped).1
    · exact storesAuthorised_of_next node event
  · intro node event next owners mines received stepped
    exact (ownersSpend_step accepts node next event owners mines received stepped).2

/-- A transaction without a signature, from a sender that is no key. -/
def unsignedLine : List UInt8 :=
  ascii "\x7b\"type\":1,\"payload\":\x7b\"sender\":\"x\",\"receiver\":\"y\",\"amount\":1\x7d\x7d"

/-- The line puts a transaction that does not verify into the mempool. -/
theorem owners_do_not_only_spend : Started (freshNode (stubWallet 0)) ∧
    ¬ Throughout nodeNext OwnersSpend (freshNode (stubWallet 0)) [.receive 5 unsignedLine] := by
  refine ⟨stubNode_started 0, fun owners => ?_⟩
  have last := ((throughout_single _ _ _ _).mp owners).2 _ (nodeNext_receive _ _ _)
  have stored : ∃ tx ∈ (handleMessage (freshNode (stubWallet 0)) 5 unsignedLine).1.mempool,
      tx.sender ≠ coinbaseAddr ∧ walletVerifyTx stubSsl tx = false := by decide +kernel
  obtain ⟨tx, member, notCoinbase, fails⟩ := stored
  have verifies := last.1 tx member notCoinbase
  rw [fails] at verifies
  cases verifies

theorem owners_spend_iff_here :
    Throughout nodeNext OwnersSpend (freshNode (stubWallet 0)) [.receive 5 unsignedLine] ↔
      Every nodeNext (Receives StoresAuthorised) (freshNode (stubWallet 0))
        [.receive 5 unsignedLine] :=
  owners_spend_iff stubSsl_accepts (freshNode (stubWallet 0)) _ (stubNode_started 0)

end MiniCoin
