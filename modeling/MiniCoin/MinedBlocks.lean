import MiniCoin.Transitions

/-!
# What `do_send` and `do_mine` build

`do_send` signs a transaction that pays the minimum fee and that the balance covers.
The transactions that `do_mine` selects are affordable mempool entries in mempool
order, at most nine of them. The block it fills lists the coinbase transaction and
then the selected ones, and mining changes nothing but the nonce and the stored hash.
-/

namespace MiniCoin

open ByteStrings

variable {ssl : OpenSSL}

/-! ## Sending -/

/-- The checks that a sent transaction passed, and how it was made. -/
theorem doSendTx_some (node : Node ssl) (receiver : Token) (amount fee : UInt64) (tx : Tx)
    (made : doSendTx node receiver amount fee = some tx) :
    minTxFee ≤ fee ∧
      (amount + fee).toInt64 ≤ chainGetBalance node.chain node.wallet.address ∧
      walletSignTx node.wallet (txCreate ssl.sha256 node.wallet.address
        (CText.ofBytes receiver.bytes) amount fee) = some tx := by
  unfold doSendTx at made
  dsimp only at made
  split_ifs at made with low poor
  exact ⟨UInt64.not_lt.mp low, Int64.not_lt.mp poor, made⟩

/-! ## Selection -/

/-- The loop takes entries that pass the balance test until no slot is left. -/
theorem selectLoop_eq (chain : Blockchain) (slots : Nat) (mempool : List Tx) :
    selectLoop chain slots mempool = (mempool.filter (affordable chain)).take slots := by
  fun_induction selectLoop chain slots mempool with
  | case1 mempool => rw [List.take_zero]
  | case2 slots => rfl
  | case3 slots tx rest paid ih => rw [List.filter_cons_of_pos paid, List.take_succ_cons, ih]
  | case4 slots tx rest unpaid ih => rw [List.filter_cons_of_neg unpaid, ih]

/-- The first nine affordable entries of the mempool are selected. -/
theorem selectTxs_eq (chain : Blockchain) (mempool : List Tx) :
    selectTxs chain mempool = (mempool.filter (affordable chain)).take 9 :=
  selectLoop_eq chain 9 mempool

/-- The selection is a part of the mempool, in its order. -/
theorem selectTxs_sublist (chain : Blockchain) (mempool : List Tx) :
    (selectTxs chain mempool).Sublist mempool :=
  selectTxs_eq chain mempool ▸ (List.take_sublist 9 _).trans List.filter_sublist

/-- One slot stays free for the coinbase. -/
theorem selectTxs_length (chain : Blockchain) (mempool : List Tx) :
    (selectTxs chain mempool).length ≤ 9 := selectTxs_eq chain mempool ▸ List.length_take_le 9 _

/-! ## Filling -/

/-- The transaction count of a filled block as a number. -/
theorem fillBlock_count (sha : Sha256) (chain : Blockchain) (mempool : List Tx)
    (minerAddr : CText addrLen) (block : Block) :
    (fillBlock sha chain mempool minerAddr block).txCount.toInt =
      (selectTxs chain mempool).length + 1 := by
  have few := selectTxs_length chain mempool
  simp only [fillBlock]
  rw [Int32.toInt_ofNat_of_lt (by omega)]
  simp

/-- The block lists the coinbase transaction and the selected ones. -/
theorem fillBlock_listed (sha : Sha256) (chain : Blockchain) (mempool : List Tx)
    (minerAddr : CText addrLen) (block : Block) :
    (fillBlock sha chain mempool minerAddr block).listed =
      coinbaseTx sha minerAddr (selectTxs chain mempool) :: selectTxs chain mempool := by
  have few := selectTxs_length chain mempool
  have count : (fillBlock sha chain mempool minerAddr block).count =
      (coinbaseTx sha minerAddr (selectTxs chain mempool) :: selectTxs chain mempool).length := by
    simp only [Block.count, fillBlock_count, List.length_cons]
    omega
  rw [Block.listed, count]
  exact fillSlots_take _ (by simp only [List.length_cons, maxTxPerBlock]; omega)

/-- What `do_mine` fills fits the array. -/
theorem fillBlock_inBounds (sha : Sha256) (chain : Blockchain) (mempool : List Tx)
    (minerAddr : CText addrLen) (block : Block) :
    (fillBlock sha chain mempool minerAddr block).InBounds := by
  have few := selectTxs_length chain mempool
  rw [Block.InBounds, fillBlock_count]
  simp only [maxTxPerBlock]
  omega

/-! ## Mining -/

/-- Mining keeps all that was filled in. Only the nonce and the hash are written
by `block_mine`. -/
structure SameContent (block mined : Block) : Prop where
  index : mined.index = block.index
  timestamp : mined.timestamp = block.timestamp
  transactions : mined.transactions = block.transactions
  txCount : mined.txCount = block.txCount
  prevHash : mined.prevHash = block.prevHash

/-- Mining changes nonce and hash, and the transactions stay. -/
theorem SameContent.listed {block mined : Block} (same : SameContent block mined) :
    mined.listed = block.listed := by
  simp only [Block.listed, Block.count, same.transactions, same.txCount]

/-- A mined block has as many transactions as before mining. -/
theorem SameContent.inBounds {block mined : Block} (same : SameContent block mined)
    (inBounds : block.InBounds) : mined.InBounds := by
  rw [Block.InBounds, same.txCount]
  exact inBounds

/-- `block_mine` writes the nonce and the hash, and nothing else. -/
theorem blockMine_sameContent {sha : Sha256} {block mined : Block} {attempts : UInt64}
    (found : blockMine sha block = some (attempts, mined)) : SameContent block mined := by
  obtain ⟨⟨nonce, hash, rfl⟩, -⟩ := blockMine_some sha block mined attempts found
  exact ⟨rfl, rfl, rfl, rfl, rfl⟩

/-- The block that `do_mine` appends is the one that it filled, with a nonce and
a hash. -/
theorem mined_block {node filled after : Node ssl} {mined : Block}
    (selects : mineSelect node = some filled) (adds : mineAdd filled = some after)
    (accepted : after.mining = .added mined) :
    ∃ begun, SameContent (fillBlock ssl.sha256 node.chain node.mempool node.wallet.address begun)
        mined ∧ after.chain = node.chain ++ [mined] := by
  cases act_acts filled after .mineAdd [] (by simp [act, adds]) with
  | abandoned => cases accepted
  | added stage found added =>
    cases accepted
    cases act_acts node filled .mineSelect [] (by simp [act, selects]) with
    | selected read =>
      cases stage
      exact ⟨_, blockMine_sameContent found, (extends_of_chainAddBlock _ _ _ _ added).2⟩

/-- The block that is being mined, at any stage of `do_mine`. -/
def Mining.block : Mining → Option Block
  | .idle => none
  | .tipRead block | .selected block | .added block => some block

end MiniCoin
