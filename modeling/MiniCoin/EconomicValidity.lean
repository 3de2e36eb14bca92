import MiniCoin.ChainSafety
import MiniCoin.Tampering

/-!
# Economic validity of received blocks

A block is economically valid on a chain if its first transaction is the only coinbase
transaction and pays the reward and the fees, the other transactions pay the minimum
fee, and no sender is taken below zero when they are applied in order. Amounts and
balances are read as integers.

`do_mine` builds such blocks from a well funded mempool. Nothing is checked on
receipt: as long as a node accepts any block, it also accepts an invalid one.
-/

namespace MiniCoin

open ByteStrings Runs

variable {ssl : OpenSSL}

/-- What a transaction adds to the balance of an address, as an integer without
wrapping. -/
def gain (addr : CText addrLen) (tx : Tx) : Int :=
  (if tx.receiver = addr then (tx.amount.toNat : Int) else 0) -
    (if tx.sender = addr then (tx.amount.toNat : Int) + tx.fee.toNat else 0)

/-- What the transactions of an address cost it in all. -/
def spending (addr : CText addrLen) (txs : List Tx) : Int :=
  ((txs.filter fun tx => tx.sender = addr).map fun tx => (tx.amount.toNat : Int) + tx.fee.toNat).sum

/-- The rules for the transactions of a block that extends a chain: one reward
and in the first place, of the right amount, minimum fees, and no sender who
spends more than it has at that point of the block. -/
structure SoundTransactions (chain : Blockchain) (reward : Tx) (rest : List Tx) : Prop where
  coinbase : reward.sender = coinbaseAddr
  only : ∀ tx ∈ rest, tx.sender ≠ coinbaseAddr
  amount : reward.amount.toNat = miningReward.toNat + (rest.map (·.fee.toNat)).sum
  fees : ∀ tx ∈ rest, minTxFee ≤ tx.fee
  solvent : ∀ before tx after, rest = before ++ tx :: after →
    0 ≤ (chainGetBalance chain tx.sender).toInt +
      ((reward :: (before ++ [tx])).map (gain tx.sender)).sum

/-- The first transaction is the only coinbase and pays the reward with the
fees, and no sender goes below zero at any point of the block. This is the
purpose stated by the documentation, and `chain_add_block` checks none of it. -/
def EconomicallyValid (chain : Blockchain) (block : Block) : Prop :=
  ∃ reward rest, block.listed = reward :: rest ∧ SoundTransactions chain reward rest

/-! ## What the miner builds -/

/-- A mempool whose entries pay the minimum fee and whose senders can pay for
all of their entries together, with numbers that do not wrap. -/
structure WellFunded (chain : Blockchain) (mempool : List Tx) : Prop where
  senders : ∀ tx ∈ mempool, tx.sender ≠ coinbaseAddr
  fees : ∀ tx ∈ mempool, minTxFee ≤ tx.fee
  covered : ∀ tx ∈ mempool, spending tx.sender mempool ≤ (chainGetBalance chain tx.sender).toInt
  noWrap : miningReward.toNat + (mempool.map (·.fee.toNat)).sum < 2 ^ 64

/-- Fewer transactions spend no more. `do_mine` takes a part of the mempool, so
what covers the whole covers the part. -/
theorem spending_sublist (addr : CText addrLen) (part whole : List Tx) (sub : part.Sublist whole) :
    spending addr part ≤ spending addr whole := by
  refine ((sub.filter _).map _).sum_le_sum fun cost member => ?_
  obtain ⟨tx, -, rfl⟩ := List.mem_map.mp member
  omega

/-- An address never loses more than it spends. -/
theorem neg_spending_le_gain (addr : CText addrLen) (txs : List Tx) :
    -spending addr txs ≤ (txs.map (gain addr)).sum := by
  induction txs with
  | nil => simp [spending]
  | cons tx rest ih =>
    simp only [spending, List.filter_cons, List.map_cons, List.sum_cons, gain] at ih ⊢
    split_ifs at ih ⊢ <;> simp_all <;> omega

/-- Adding fees one by one gives their sum as long as it does not wrap. -/
theorem foldl_fees (txs : List Tx) (total : UInt64)
    (noWrap : total.toNat + (txs.map (·.fee.toNat)).sum < 2 ^ 64) :
    (txs.foldl (fun sum tx => sum + tx.fee) total).toNat =
      total.toNat + (txs.map (·.fee.toNat)).sum := by
  induction txs generalizing total with
  | nil => simp
  | cons tx rest ih =>
    simp only [List.map_cons, List.sum_cons] at noWrap ⊢
    have step : (total + tx.fee).toNat = total.toNat + tx.fee.toNat := by
      rw [UInt64.toNat_add]
      exact Nat.mod_eq_of_lt (by omega)
    rw [List.foldl_cons, ih _ (by omega), step]
    omega

/-- From a well funded mempool `do_mine` selects transactions that obey the
rules, together with the coinbase transaction that it creates for them. -/
theorem sound_of_wellFunded (sha : Sha256) (chain : Blockchain) (mempool : List Tx)
    (minerAddr : CText addrLen) (funded : WellFunded chain mempool) :
    SoundTransactions chain (coinbaseTx sha minerAddr (selectTxs chain mempool))
      (selectTxs chain mempool) := by
  have sub := selectTxs_sublist chain mempool
  have fewer : ((selectTxs chain mempool).map (·.fee.toNat)).sum ≤ (mempool.map (·.fee.toNat)).sum :=
    (sub.map _).sum_le_sum fun _ _ => Nat.zero_le _
  have noWrap := funded.noWrap
  refine ⟨rfl, fun tx member => funded.senders tx (sub.subset member), ?_,
    fun tx member => funded.fees tx (sub.subset member), ?_⟩
  · change (miningReward + (selectTxs chain mempool).foldl (fun sum tx => sum + tx.fee) 0).toNat = _
    have zero : (0 : UInt64).toNat = 0 := rfl
    have fees := foldl_fees (selectTxs chain mempool) 0 (by omega)
    rw [UInt64.toNat_add, fees, zero, Nat.zero_add]
    exact Nat.mod_eq_of_lt (by omega)
  · intro before tx after split
    have inSelection : tx ∈ selectTxs chain mempool := by simp [split]
    have covered := funded.covered tx (sub.subset inSelection)
    have whole := spending_sublist tx.sender _ _ sub
    have taken : (before ++ [tx]).Sublist (selectTxs chain mempool) := by
      rw [split, List.append_cons before tx after]
      exact List.sublist_append_left _ _
    have part := spending_sublist tx.sender _ _ taken
    have lost := neg_spending_le_gain tx.sender (before ++ [tx])
    have notReward : coinbaseAddr ≠ tx.sender :=
      (funded.senders tx (sub.subset inSelection)).symm
    have rewardGain : 0 ≤ gain tx.sender (coinbaseTx sha minerAddr (selectTxs chain mempool)) := by
      have sender : (coinbaseTx sha minerAddr (selectTxs chain mempool)).sender = coinbaseAddr := rfl
      rw [gain, sender, if_neg notReward]
      split <;> omega
    rw [List.map_cons, List.sum_cons]
    omega

/-- A block that lists what `do_mine` selects on this chain from a well funded
mempool, after the coinbase transaction for it. -/
def MinedFromFunds (sha : Sha256) (chain : Blockchain) (block : Block) : Prop :=
  ∃ minerAddr mempool template, WellFunded chain mempool ∧
    block.listed = (fillBlock sha chain mempool minerAddr template).listed

/-- What `do_mine` fills from a funded mempool is economically valid. The
balance test of each entry against the unchanged chain is enough here, since the
sender can pay for all entries. -/
theorem economicallyValid_of_mined (sha : Sha256) (chain : Blockchain) (block : Block)
    (mined : MinedFromFunds sha chain block) : EconomicallyValid chain block := by
  obtain ⟨minerAddr, mempool, template, funded, listed⟩ := mined
  refine ⟨_, _, ?_, sound_of_wellFunded sha chain mempool minerAddr funded⟩
  rw [listed, fillBlock_listed]

/-! ## What a node accepts -/

/-- The received blocks that would be accepted were mined on the chain before
them from a well funded mempool. Block 0 of a chain is not asked about. -/
def ReceivesMined (node : Node ssl) : Message → Prop
  | .newBlock block =>
    Extends ssl.sha256 node.chain block → MinedFromFunds ssl.sha256 node.chain block
  | .chainResponse other =>
    node.chain.length < other.length → chainValidate ssl.sha256 other = true →
      ∀ before block after, other = before ++ block :: after → before ≠ [] →
        MinedFromFunds ssl.sha256 before block
  | _ => True

/-- The received blocks that are accepted are economically valid on the chain
before them. -/
def AcceptsValid (node : Node ssl) : Message → Prop
  | .newBlock block =>
    chainAddBlock ssl.sha256 node.chain block ≠ none → EconomicallyValid node.chain block
  | .chainResponse other =>
    chainReplace ssl.sha256 node.chain other ≠ none →
      ∀ before block after, other = before ++ block :: after → before ≠ [] →
        EconomicallyValid before block
  | _ => True

/-- A receiver that gets such blocks only accepts valid blocks only, through
both of its acceptance paths. -/
theorem acceptsValid_of_mined (node : Node ssl) (message : Message)
    (mined : ReceivesMined node message) : AcceptsValid node message := by
  cases message with
  | newBlock block =>
    intro accepted
    obtain ⟨grown, taken⟩ := Option.ne_none_iff_exists'.mp accepted
    obtain ⟨follows, -⟩ := extends_of_chainAddBlock _ _ _ _ taken
    exact economicallyValid_of_mined _ _ _ (mined follows)
  | chainResponse other =>
    intro accepted before block after split nonempty
    obtain ⟨replaced, taken⟩ := Option.ne_none_iff_exists'.mp accepted
    obtain ⟨longer, valid, -⟩ := (chainReplace_iff _ _ _ _).mp taken
    have valid' := (chainValidate_iff _ _).mpr valid
    exact economicallyValid_of_mined _ _ _ (mined longer valid' before block after split nonempty)
  | newTx | requestChain | ping | pong => trivial

/-- In every run in which the peers' blocks were mined from funds, every
accepted block is economically valid. The own blocks are so by what `do_mine`
selects, as long as the mempool is covered by the chain. -/
theorem accepted_blocks_valid (start : Node ssl) (events : List Event)
    (mined : Every nodeNext (Receives ReceivesMined) start events) :
    Every nodeNext (Receives AcceptsValid) start events := by
  refine every_mono nodeNext _ _ (fun node event received => ?_) start events mined
  cases event with
  | receive fd line =>
    exact fun message read => acceptsValid_of_mined node message (received message read)
  | action | accept | connect | closed => trivial

/-- Whenever some block would be accepted, an economically invalid one would be
too: the reward is not part of what is hashed. -/
theorem accepts_invalid (sha : Sha256) (chain : Blockchain) (block : Block)
    (inBounds : block.InBounds) (accepted : Extends sha chain block) :
    ∃ invalid, Extends sha chain invalid ∧ invalid.InBounds ∧ ¬ EconomicallyValid chain invalid := by
  by_cases valid : EconomicallyValid chain block
  · obtain ⟨reward, rest, listed, sound⟩ := valid
    let forged : Block :=
      { block with transactions := block.transactions.set 0 { reward with amount := reward.amount + 1 } }
    have relisted : forged.listed = { reward with amount := reward.amount + 1 } :: rest :=
      listed_set_zero block _ reward rest listed
    have computed : blockComputeHash sha forged = blockComputeHash sha block :=
      blockComputeHash_congr sha block forged rfl (by rw [relisted, listed]; rfl)
    obtain ⟨room, last, tip, index, prev, valid⟩ := accepted
    have forgedValid : blockValidate sha forged = true := by
      rw [blockValidate, computed]
      exact valid
    refine ⟨forged, ⟨room, last, tip, index, prev, forgedValid⟩, inBounds, ?_⟩
    rintro ⟨other, rest', listed', sound'⟩
    rw [relisted] at listed'
    obtain ⟨rfl, rfl⟩ := List.cons.inj listed'
    have more := sound'.amount
    rw [← sound.amount] at more
    have same : reward.amount + 1 = reward.amount := UInt64.toNat_inj.mp more
    simp at same
  · exact ⟨block, accepted, inBounds, valid⟩

/-! ## Examples -/

/-- A block with a reward of 9999 on the genesis block. Its links and its hash
are right. -/
def overRewardedBlock : Block :=
  { blockAfter genesisBlock 167 with
    txCount := 1
    transactions := fillSlots
      [{ coinbaseTx Sha2.sha256 (stubWallet 0).address [] with
        amount := 9999
        txHash := CText.ofBytes
          (ascii "76ec3d07fb8e21b4e709beeacd769978d49ce00ad6ab4427c5cac75331034822") }]
    hash := CText.ofBytes (ascii "0042009ff3cf0bbd84b24b8d2fdee8eef2b34c4c0d1dbc1ee6c4238b5a258e52") }

theorem overRewardedBlock_plain : overRewardedBlock.Plain where
  prevHash := by decide +kernel
  hash := by decide +kernel
  txs := by decide +kernel
  range := by decide +kernel
  compact := by decide +kernel

/-- A process that has just started accepts it: `chain_add_block` looks at the
hash and the links, and not at the transactions. -/
theorem accepts_over_rewarded : Started (freshNode (stubWallet 0)) ∧
    ¬ Every nodeNext (Receives AcceptsValid) (freshNode (stubWallet 0))
      [.receive 5 (Message.newBlock overRewardedBlock).line] := by
  refine ⟨stubNode_started 0, fun every => ?_⟩
  have read : decode (Message.newBlock overRewardedBlock).line = some (.newBlock overRewardedBlock) :=
    decode_plain _ overRewardedBlock_plain (by simp)
  have accepted : chainAddBlock stubSsl.sha256 (freshNode (stubWallet 0)).chain overRewardedBlock ≠
      none := by decide +kernel
  obtain ⟨reward, rest, listed, sound⟩ := every.1 _ read accepted
  have single : overRewardedBlock.listed = [overRewardedBlock.transactions[0]] := by decide +kernel
  rw [single] at listed
  obtain ⟨rfl, rfl⟩ := List.cons.inj listed
  have amount := sound.amount
  revert amount
  decide +kernel

theorem firstBlock_plain : firstBlock.Plain where
  prevHash := by decide +kernel
  hash := by decide +kernel
  txs := by decide +kernel
  range := by decide +kernel
  compact := by decide +kernel

/-- The first miner pays one coin, with a fee of one coin. -/
def firstPayment : Tx :=
  (doSendTx { freshNode (stubWallet 0) with chain := [genesisBlock, firstBlock] } payee 1 1).getD Tx.zero

/-- The block in which it is mined. -/
def payingBlock : Block :=
  { fillBlock Sha2.sha256 [genesisBlock, firstBlock] [firstPayment] (stubWallet 0).address
      (blockAfter firstBlock 291) with
    hash := CText.ofBytes (ascii "005a02f3552050bc80dd94695ab5c22bcd5426b6d49a81cc29bb9840421efff4") }

theorem payingBlock_plain : payingBlock.Plain where
  prevHash := by decide +kernel
  hash := by decide +kernel
  txs := by decide +kernel
  range := by decide +kernel
  compact := by decide +kernel

/-- A process receives the block with the payment, and it is accepted. The payer
has the reward of an earlier block, which covers amount and fee. -/
theorem accepted_blocks_valid_here :
    let node : Node stubSsl := { freshNode (stubWallet 1) with chain := [genesisBlock, firstBlock] }
    payingBlock.listed.length = 2 ∧ chainAddBlock stubSsl.sha256 node.chain payingBlock ≠ none ∧
      Every nodeNext (Receives AcceptsValid) node [.receive 5 (Message.newBlock payingBlock).line] := by
  intro node
  refine ⟨by decide +kernel, by decide +kernel, accepted_blocks_valid node _ ⟨?_, fun _ _ => trivial⟩⟩
  intro message read
  rw [decode_plain (.newBlock payingBlock) payingBlock_plain (by simp)] at read
  obtain rfl := Option.some.inj read
  have funded : WellFunded [genesisBlock, firstBlock] [firstPayment] :=
    ⟨by decide +kernel, by decide +kernel, by decide +kernel, by decide +kernel⟩
  exact fun _ => ⟨(stubWallet 0).address, [firstPayment], blockAfter firstBlock 291, funded, rfl⟩

end MiniCoin
