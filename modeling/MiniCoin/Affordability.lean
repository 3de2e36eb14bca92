import MiniCoin.Balances
import MiniCoin.GenesisBlock
import MiniCoin.MinedBlocks

/-!
# What the balance tests admit

`do_mine` and `do_send` compare a signed balance with a cost that is added up unsigned and
then cast to a signed number. From `2 ^ 63` on the cast cost is not the cost, and a test may
pass that should not. The coinbase amount is an unsigned sum of the reward and the fees.

`do_mine` tests each mempool entry on its own against the chain, but takes up to nine
together. The entries of one sender may each be covered and still overdraw the account.
-/

namespace MiniCoin

open ByteStrings Residues

variable {ssl : OpenSSL}

/-! ## The comparison -/

/-- The comparison of `do_mine` and `do_send`: the sum in 64 bits without sign,
converted to a signed number, against the signed balance. -/
def covers (balance : Int64) (amount fee : UInt64) : Bool := (amount + fee).toInt64 ≤ balance

/-- The test of `do_mine` is that comparison. -/
theorem affordable_eq (chain : Blockchain) (tx : Tx) :
    affordable chain tx = covers (chainGetBalance chain tx.sender) tx.amount tx.fee := rfl

/-- The test of `do_send` is the same comparison, after the test of the fee. -/
theorem doSendTx_eq (node : Node ssl) (receiver : Token) (amount fee : UInt64) :
    doSendTx node receiver amount fee =
      if fee < minTxFee then none
      else if covers (chainGetBalance node.chain node.wallet.address) amount fee then
        walletSignTx node.wallet (txCreate ssl.sha256 node.wallet.address
          (CText.ofBytes receiver.bytes) amount fee)
      else none := by
  have swap (balance cost : Int64) : (balance < cost) = ¬ (cost ≤ balance) := by
    rw [Int64.not_le]
  simp only [doSendTx, covers, swap, decide_eq_true_eq, ite_not]

/-- The cast cost is the cost modulo `2 ^ 64`, in the signed range. -/
theorem toInt_cost (amount fee : UInt64) :
    (amount + fee).toInt64.toInt = ((amount.toNat : Int) + fee.toNat).bmod (2 ^ 64) := by
  rw [toInt_toInt64, UInt64.toNat_add, Int.natCast_mod, Nat.cast_add]
  exact Int.emod_bmod _ _

/-- The cost is below `2 ^ 63`, or the signed number that it wraps to is above
the balance. -/
def CostInRange (balance : Int) (cost : Nat) : Prop :=
  cost < 2 ^ 63 ∨ (cost < 3 * 2 ^ 63 ∧ balance < cost - 2 ^ 64) ∨
    (3 * 2 ^ 63 ≤ cost ∧ balance < cost - 2 ^ 65)

/-- The comparison admits only costs that the balance covers, exactly if no
excessive cost wraps to a covered one. -/
theorem covers_exact_iff (balance : Int64) (amount fee : UInt64) :
    (covers balance amount fee = true → (amount.toNat + fee.toNat : Int) ≤ balance.toInt) ↔
      CostInRange balance.toInt (amount.toNat + fee.toNat) := by
  have lower := balance.le_toInt
  have upper := balance.toInt_lt
  have amountBound := amount.toNat_lt
  have feeBound := fee.toNat_lt
  have test : covers balance amount fee = true ↔
      ((amount.toNat : Int) + fee.toNat).bmod (2 ^ 64) ≤ balance.toInt := by
    rw [covers, decide_eq_true_eq, Int64.le_iff_toInt_le, toInt_cost]
  rw [test, CostInRange, Int.bmod_def]
  omega

/-! ## The coinbase amount -/

/-- The sum of the fees, without wrapping. The code adds them in 64 bits. -/
def feeSum (txs : List Tx) : Nat := (txs.map fun tx => tx.fee.toNat).sum

/-- As a residue, the sum of the fees is what the code adds up. -/
theorem cast_feeSum (txs : List Tx) :
    ((feeSum txs : Nat) : Word) = (txs.map fun tx => unsigned tx.fee).sum := by
  induction txs with
  | nil => simp [feeSum]
  | cons tx rest ih =>
    have split : feeSum (tx :: rest) = tx.fee.toNat + feeSum rest := by simp [feeSum]
    rw [split, Nat.cast_add, ih, List.map_cons, List.sum_cons]
    rfl

/-- The coinbase amount is the true sum, wrapped once at 64 bits. -/
theorem coinbase_amount (sha : Sha256) (minerAddr : CText addrLen) (txs : List Tx) :
    (coinbaseTx sha minerAddr txs).amount.toNat = (50 + feeSum txs) % 2 ^ 64 := by
  have bound := (coinbaseTx sha minerAddr txs).amount.toNat_lt
  have residue : unsigned (coinbaseTx sha minerAddr txs).amount = ((50 + feeSum txs : Nat) : Word) := by
    change unsigned (miningReward + txs.foldl (fun total tx => total + tx.fee) 0) = _
    have reward : unsigned miningReward = 50 := rfl
    have zero : unsigned 0 = 0 := rfl
    rw [unsigned_add, unsigned_foldl_fees, reward, zero, zero_add, Nat.cast_add, cast_feeSum]
    rfl
  have congruent := (ZMod.natCast_eq_natCast_iff' _ _ _).mp residue
  rwa [Nat.mod_eq_of_lt bound] at congruent

/-- Slot 0 of a filled block. -/
theorem fillBlock_slot (sha : Sha256) (chain : Blockchain) (mempool : List Tx)
    (minerAddr : CText addrLen) (begun : Block) :
    (fillBlock sha chain mempool minerAddr begun).transactions[0] =
      coinbaseTx sha minerAddr (selectTxs chain mempool) := by
  simp [fillBlock, fillSlots]

/-! ## Exact checks -/

/-- The balance tests of `do_mine` and `do_send` admit only costs that the
balance covers, and the block of `do_mine` pays the reward and the fees of its
transactions. -/
structure ChecksExact (node : Node ssl) (tx : Tx) (amount fee : UInt64) (begun : Block) : Prop where
  mine : affordable node.chain tx = true →
    (tx.amount.toNat + tx.fee.toNat : Int) ≤ (chainGetBalance node.chain tx.sender).toInt
  send : covers (chainGetBalance node.chain node.wallet.address) amount fee = true →
    (amount.toNat + fee.toNat : Int) ≤ (chainGetBalance node.chain node.wallet.address).toInt
  coinbase : (fillBlock ssl.sha256 node.chain node.mempool node.wallet.address
      begun).transactions[0].amount.toNat =
    50 + feeSum (selectTxs node.chain node.mempool)

/-- The checks are exact exactly if no excessive cost wraps to a covered one
and the fees of the first nine affordable mempool entries leave room for the
reward. -/
theorem checksExact_iff (node : Node ssl) (tx : Tx) (amount fee : UInt64) (begun : Block) :
    ChecksExact node tx amount fee begun ↔
      CostInRange (chainGetBalance node.chain tx.sender).toInt (tx.amount.toNat + tx.fee.toNat) ∧
        CostInRange (chainGetBalance node.chain node.wallet.address).toInt
          (amount.toNat + fee.toNat) ∧
        50 + feeSum ((node.mempool.filter (affordable node.chain)).take 9) < 2 ^ 64 := by
  have mine := covers_exact_iff (chainGetBalance node.chain tx.sender) tx.amount tx.fee
  have send := covers_exact_iff (chainGetBalance node.chain node.wallet.address) amount fee
  have coinbase : (fillBlock ssl.sha256 node.chain node.mempool node.wallet.address
      begun).transactions[0].amount.toNat = 50 + feeSum (selectTxs node.chain node.mempool) ↔
        50 + feeSum ((node.mempool.filter (affordable node.chain)).take 9) < 2 ^ 64 := by
    rw [fillBlock_slot, coinbase_amount, selectTxs_eq]
    omega
  constructor
  · rintro ⟨mineExact, sendExact, coinbaseExact⟩
    exact ⟨mine.mp mineExact, send.mp sendExact, coinbase.mp coinbaseExact⟩
  · rintro ⟨mineRange, sendRange, room⟩
    exact ⟨mine.mpr mineRange, send.mpr sendRange, coinbase.mpr room⟩

/-- A transaction whose cost wraps to zero: the largest amount, and a fee of
one. -/
def freeTx : Tx := { Tx.zero with sender := (stubWallet 1).address, amount := 18446744073709551615, fee := 1 }

/-- A process that has just started, and whose balance is zero, finds it
affordable: the sum of amount and fee wraps to zero in 64 bits. -/
theorem checks_inexact : ¬ ChecksExact (freshNode (stubWallet 0)) freeTx 0 1 Block.zero := by
  intro exact
  have admitted : affordable (freshNode (stubWallet 0)).chain freeTx = true := by decide +kernel
  have covered := exact.mine admitted
  revert covered
  decide +kernel

end MiniCoin
