import MiniCoin.Blocks
import Mathlib.Data.List.Chain

/-!
# The blockchain

The functions of `chain.c`. A chain is the list of its first `length` blocks, so its
length field is the length of the list; the slots behind it are never read. Each
function of the source that may refuse returns `none` when it returns -1, in which
case the caller's chain is untouched.

`chain_validate` compares every block with its predecessor. It is the statement that
neighbours are `Linked`, so list facts about adjacent elements apply to it.
-/

namespace MiniCoin

open ByteStrings

/-- `MAX_BLOCKS`, the size of the array `blocks`. -/
def maxBlocks : Nat := 10000

/-- The blocks in use, oldest first. -/
abbrev Blockchain := List Block

/-- `chain_init`: the genesis block alone. It has no result if no nonce meets
the target, where the source would search for ever. -/
def chainInit (sha : Sha256) : Option Blockchain := (blockCreateGenesis sha).map fun g => [g]

/-- `chain_last_block`. There is none only in an empty chain, which `chain_init`
excludes. -/
def chainLastBlock (chain : Blockchain) : Option Block := chain.getLast?

/-- `chain_add_block`: a full array, a wrong index, a wrong previous hash and an
invalid block are refused in this order. -/
def chainAddBlock (sha : Sha256) (chain : Blockchain) (block : Block) : Option Blockchain :=
  if maxBlocks ≤ chain.length then none
  else
    match chainLastBlock chain with
    | none => none
    | some last =>
      if block.index ≠ last.index + 1 then none
      else if block.prevHash ≠ last.hash then none
      else if blockValidate sha block = false then none
      else some (chain ++ [block])

/-- `chain_validate`: whether it returns 0. Each block from block 1 on is
compared with the one before it; block 0 is never looked at. -/
def chainValidate (sha : Sha256) : Blockchain → Bool
  | prev :: curr :: rest =>
    curr.prevHash == prev.hash && blockValidate sha curr && chainValidate sha (curr :: rest)
  | _ => true

/-- One transaction's effect in the loop of `chain_get_balance`: the receiver
gets the amount, the sender pays amount and fee, in 64 bits. -/
def balanceStep (addr : CText addrLen) (balance : Int64) (tx : Tx) : Int64 :=
  let credited := if tx.receiver = addr then balance + tx.amount.toInt64 else balance
  if tx.sender = addr then credited - (tx.amount + tx.fee).toInt64 else credited

/-- `chain_get_balance`: all listed transactions of all blocks, from the first
one on. -/
def chainGetBalance (chain : Blockchain) (addr : CText addrLen) : Int64 :=
  chain.foldl (fun balance block => block.listed.foldl (balanceStep addr) balance) 0

/-- `chain_replace`: only a longer chain that validates is taken, and then as a
whole. -/
def chainReplace (sha : Sha256) (chain other : Blockchain) : Option Blockchain :=
  if other.length ≤ chain.length then none
  else if chainValidate sha other = false then none
  else some other

/-! ## What acceptance means -/

/-- A block that `chain_validate` accepts after its predecessor. The index is
not compared here. -/
def Linked (sha : Sha256) (prev curr : Block) : Prop :=
  curr.prevHash = prev.hash ∧ blockValidate sha curr = true

theorem chainValidate_iff (sha : Sha256) (chain : Blockchain) :
    chainValidate sha chain = true ↔ chain.IsChain (Linked sha) := by
  fun_induction chainValidate sha chain with
  | case1 prev curr rest ih => simp [List.isChain_cons_cons, Linked, ih]
  | case2 chain short =>
    match chain, short with
    | [], _ => simp
    | [only], _ => simp
    | prev :: curr :: rest, short => exact absurd rfl (short prev curr rest)

/-- `chain_add_block` succeeds exactly on a block that follows the tip, and then
appends it. -/
theorem chainAddBlock_iff (sha : Sha256) (chain grown : Blockchain) (block : Block) :
    chainAddBlock sha chain block = some grown ↔
      chain.length < maxBlocks ∧ (∃ last, chain.getLast? = some last ∧
        block.index = last.index + 1 ∧ Linked sha last block) ∧ grown = chain ++ [block] := by
  unfold chainAddBlock chainLastBlock
  by_cases full : maxBlocks ≤ chain.length
  · simp [full, Nat.not_lt.mpr full]
  · cases tip : chain.getLast? with
    | none => simp [full]
    | some last =>
      by_cases index : block.index = last.index + 1 <;> by_cases prev : block.prevHash = last.hash <;>
        cases valid : blockValidate sha block <;>
        simp [full, Nat.not_le.mp full, index, prev, valid, Linked, eq_comm]

/-- A block that `chain_add_block` accepts, with the conditions as
propositions. -/
def Extends (sha : Sha256) (chain : Blockchain) (block : Block) : Prop :=
  chain.length < maxBlocks ∧
    ∃ last, chain.getLast? = some last ∧ block.index = last.index + 1 ∧ Linked sha last block

theorem chainAddBlock_of_extends (sha : Sha256) (chain : Blockchain) (block : Block)
    (accepted : Extends sha chain block) :
    chainAddBlock sha chain block = some (chain ++ [block]) :=
  (chainAddBlock_iff sha chain _ block).mpr ⟨accepted.1, accepted.2, rfl⟩

theorem extends_of_chainAddBlock (sha : Sha256) (chain grown : Blockchain) (block : Block)
    (accepted : chainAddBlock sha chain block = some grown) :
    Extends sha chain block ∧ grown = chain ++ [block] := by
  obtain ⟨room, follows, rfl⟩ := (chainAddBlock_iff sha chain grown block).mp accepted
  exact ⟨⟨room, follows⟩, rfl⟩

/-- `chain_replace` succeeds exactly on a longer valid chain, and then takes
it. -/
theorem chainReplace_iff (sha : Sha256) (chain other replaced : Blockchain) :
    chainReplace sha chain other = some replaced ↔
      chain.length < other.length ∧ other.IsChain (Linked sha) ∧ replaced = other := by
  rw [← chainValidate_iff]
  unfold chainReplace
  by_cases longer : other.length ≤ chain.length
  · simp [longer, Nat.not_lt.mpr longer]
  · cases valid : chainValidate sha other <;> simp [longer, Nat.not_le.mp longer, eq_comm]

/-- Appending a block that `chain_add_block` accepts keeps the chain valid. -/
theorem isChain_append_block (sha : Sha256) (chain : Blockchain) (last block : Block)
    (valid : chain.IsChain (Linked sha)) (tip : chain.getLast? = some last)
    (linked : Linked sha last block) : (chain ++ [block]).IsChain (Linked sha) := by
  rw [List.isChain_append]
  refine ⟨valid, by simp, ?_⟩
  intro x isLast y isFirst
  obtain rfl : last = x := by simpa [tip] using isLast
  obtain rfl : block = y := by simpa using isFirst
  exact linked

end MiniCoin
