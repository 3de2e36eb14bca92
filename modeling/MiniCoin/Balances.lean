import MiniCoin.Chains
import MiniCoin.Residues
import Mathlib.Data.Set.Finite.List

/-!
# Balances as sums

`chain_get_balance` folds over all listed transactions of a chain with wrapping
arithmetic. As a residue the result is the sum over these transactions of what each
credits to the address minus what it debits. Summed over all addresses only the fees
are missing: what one address receives another one pays.
-/

namespace MiniCoin

open ByteStrings Residues

/-- There are finitely many strings that fit into an array. -/
instance finite_text (size : Nat) : Finite (CText size) := by
  have : Finite UInt8 := Finite.of_injective UInt8.toFin fun _ _ same => UInt8.toFin_inj.mp same
  have short : {bytes : List UInt8 | bytes.length < size}.Finite := List.finite_length_lt _ _
  have : Finite {bytes : List UInt8 // bytes.length < size} := short
  refine Finite.of_injective
    (fun text : CText size => (⟨text.bytes, text.bound⟩ : {bytes : List UInt8 // bytes.length < size}))
    fun left right same => CText.ext (congrArg Subtype.val same)

/-- All transactions of a chain, in the order in which `chain_get_balance`
visits them. -/
def chainTxs (chain : Blockchain) : List Tx := chain.flatMap Block.listed

/-- What a transaction changes at an address, as a residue. Sender and receiver
may be the same. -/
def transfer (addr : CText addrLen) (tx : Tx) : Word :=
  (if tx.receiver = addr then unsigned tx.amount else 0) -
    (if tx.sender = addr then unsigned tx.amount + unsigned tx.fee else 0)

theorem signed_balanceStep (addr : CText addrLen) (balance : Int64) (tx : Tx) :
    signed (balanceStep addr balance tx) = signed balance + transfer addr tx := by
  unfold balanceStep transfer
  split <;> split <;> simp <;> ring

theorem signed_foldl_balanceStep (addr : CText addrLen) (balance : Int64) (txs : List Tx) :
    signed (txs.foldl (balanceStep addr) balance) =
      signed balance + (txs.map (transfer addr)).sum := by
  induction txs generalizing balance with
  | nil => simp
  | cons tx rest ih =>
    rw [List.foldl_cons, ih, signed_balanceStep, List.map_cons, List.sum_cons]
    ring

/-- The balance is the sum of the transfers. -/
theorem signed_chainGetBalance (chain : Blockchain) (addr : CText addrLen) :
    signed (chainGetBalance chain addr) = ((chainTxs chain).map (transfer addr)).sum := by
  have flat : chainGetBalance chain addr = (chainTxs chain).foldl (balanceStep addr) 0 := by
    rw [chainTxs, List.foldl_flatMap]
    rfl
  rw [flat, signed_foldl_balanceStep, signed_zero, zero_add]

/-- Fees are summed modulo `2 ^ 64`. -/
theorem unsigned_foldl_fees (txs : List Tx) (total : UInt64) :
    unsigned (txs.foldl (fun sum tx => sum + tx.fee) total) =
      unsigned total + (txs.map fun tx => unsigned tx.fee).sum := by
  induction txs generalizing total with
  | nil => simp
  | cons tx rest ih =>
    rw [List.foldl_cons, ih, unsigned_add, List.map_cons, List.sum_cons, add_assoc]

/-- Over all addresses a transaction loses its fee. -/
theorem finsum_transfer (tx : Tx) : ∑ᶠ addr, transfer addr tx = -unsigned tx.fee := by
  have received : ∑ᶠ addr, (if tx.receiver = addr then unsigned tx.amount else 0) =
      unsigned tx.amount := by
    rw [finsum_eq_single _ tx.receiver fun other ne => if_neg ne.symm, if_pos rfl]
  have paid : ∑ᶠ addr, (if tx.sender = addr then unsigned tx.amount + unsigned tx.fee else 0) =
      unsigned tx.amount + unsigned tx.fee := by
    rw [finsum_eq_single _ tx.sender fun other ne => if_neg ne.symm, if_pos rfl]
  simp only [transfer]
  rw [finsum_sub_distrib (Set.toFinite _) (Set.toFinite _), received, paid]
  ring

/-- The balances of all addresses together are minus the sum of all fees. -/
theorem finsum_balances (chain : Blockchain) :
    ∑ᶠ addr, signed (chainGetBalance chain addr) =
      -((chainTxs chain).map fun tx => unsigned tx.fee).sum := by
  simp only [signed_chainGetBalance]
  induction chainTxs chain with
  | nil => simp
  | cons tx rest ih =>
    simp only [List.map_cons, List.sum_cons]
    rw [finsum_add_distrib (Set.toFinite _) (Set.toFinite _), ih, finsum_transfer]
    ring

end MiniCoin
