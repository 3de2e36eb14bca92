import MiniCoin.Balances
import MiniCoin.MinedBlocks
import MiniCoin.GenesisBlock

/-!
# Rewriting confirmed transactions

`block_compute_hash` reads the stored transaction hashes and not the transactions, and
no check compares a transaction with its stored hash. So the content of a listed
transaction, and a transaction with an empty hash as a whole, can be changed without a
change to any hashed text. `tamperEvident_iff` draws the consequence: the only valid
chains whose block hashes fix the balances are those without a block after block 0.
-/

namespace MiniCoin

open ByteStrings Residues

/-- The transaction counts are those of real blocks. -/
def CountsInRange (chain : Blockchain) : Prop :=
  ∀ block ∈ chain, block.CountInRange

/-- Another valid chain with the same length, the same block 0 and the same
stored hash at every position. -/
structure Rewrites (sha : Sha256) (chain other : Blockchain) : Prop where
  length : other.length = chain.length
  start : other.head? = chain.head?
  valid : chainValidate sha other = true
  counts : CountsInRange other
  hashes : other.map (·.hash) = chain.map (·.hash)

/-- The block hashes of the chain determine all balances: whatever rewrites it
to a valid chain with the same hashes leaves everybody's balance as it is. -/
def TamperEvident (sha : Sha256) (chain : Blockchain) : Prop :=
  ∀ other, Rewrites sha chain other →
    ∀ addr, chainGetBalance other addr = chainGetBalance chain addr

/-! ## One block -/

/-- The header and the stored transaction hashes determine the computed hash. -/
theorem blockComputeHash_congr (sha : Sha256) (block forged : Block)
    (header : headerText forged = headerText block)
    (listed : forged.listed.flatMap (·.txHash.bytes) = block.listed.flatMap (·.txHash.bytes)) :
    blockComputeHash sha forged = blockComputeHash sha block := by
  rw [blockComputeHash, blockComputeHash, blockHashInput_eq, blockHashInput_eq, header, listed]

/-- A block that replaces another one without a change to what is stored or
computed as its hash, but changes a balance. -/
structure Forgery (sha : Sha256) (block forged : Block) (addr : CText addrLen) : Prop where
  prevHash : forged.prevHash = block.prevHash
  hash : forged.hash = block.hash
  computed : blockComputeHash sha forged = blockComputeHash sha block
  counts : forged.CountInRange
  changes : (forged.listed.map (transfer addr)).sum ≠ (block.listed.map (transfer addr)).sum

/-- Replacing slot 0 replaces the first listed transaction. -/
theorem listed_set_zero (block : Block) (tx first : Tx) (rest : List Tx)
    (listed : block.listed = first :: rest) :
    Block.listed { block with transactions := block.transactions.set 0 tx } = tx :: rest := by
  simp only [Block.listed] at listed ⊢
  change (block.transactions.set 0 tx).toList.take block.count = tx :: rest
  rw [Vector.toList_set]
  cases slots : block.transactions.toList with
  | nil => simp [slots] at listed
  | cons slot slots' =>
    cases count : block.count with
    | zero => simp [slots, count] at listed
    | succ n =>
      simp only [slots, count, List.take_succ_cons, List.cons.injEq] at listed
      simp [listed.2]

/-- A fee that is not the stored one. -/
theorem forge_fee (sha : Sha256) (block : Block) (tx : Tx) (rest : List Tx)
    (listed : block.listed = tx :: rest)
    (counts : block.CountInRange) :
    Forgery sha block
      { block with transactions := block.transactions.set 0 { tx with fee := tx.fee + 1 } }
      tx.sender where
  prevHash := rfl
  hash := rfl
  computed := blockComputeHash_congr sha _ _ rfl
    (by rw [listed_set_zero block _ tx rest listed, listed]; rfl)
  counts := counts
  changes := by
    rw [listed_set_zero block _ tx rest listed, listed]
    simp only [List.map_cons, List.sum_cons]
    intro same
    have fees := add_right_cancel same
    simp only [transfer, unsigned_add, if_true] at fees
    refine add_one_ne (unsigned tx.amount + unsigned tx.fee) ?_
    have one : unsigned 1 = 1 := rfl
    rw [one, ← add_assoc] at fees
    exact sub_right_injective fees

/-- A payment out of nothing in a block that lists no transaction. Its stored
hash is empty, so the hashed text does not show it. -/
def gift : Tx := { Tx.zero with receiver := CText.ofBytes (ascii "x"), amount := 1 }

/-- A block without transactions is forged by adding one, with the stored hash
left as it is. -/
theorem forge_gift (sha : Sha256) (block : Block) (listed : block.listed = []) :
    Forgery sha block
      { block with transactions := Vector.replicate _ gift, txCount := 1 } gift.receiver where
  prevHash := rfl
  hash := rfl
  computed := by
    refine blockComputeHash_congr sha _ _ rfl ?_
    rw [listed]
    rfl
  counts := ⟨(by decide : 0 ≤ (1 : Int32).toInt), (by decide : (1 : Int32).toInt ≤ maxTxPerBlock)⟩
  changes := by
    have given : Block.listed
        { block with transactions := Vector.replicate _ gift, txCount := 1 } = [gift] := rfl
    rw [given, listed]
    decide +kernel

/-- Every block can be forged. -/
theorem exists_forgery (sha : Sha256) (block : Block)
    (counts : block.CountInRange) :
    ∃ forged addr, Forgery sha block forged addr := by
  cases listed : block.listed with
  | nil => exact ⟨_, _, forge_gift sha block listed⟩
  | cons tx rest => exact ⟨_, _, forge_fee sha block tx rest listed counts⟩

/-! ## Chains -/

/-- A forgery of the block at position 1 rewrites the chain. -/
theorem rewrites_of_forgery (sha : Sha256) (genesis block forged : Block) (rest : Blockchain)
    (addr : CText addrLen) (valid : chainValidate sha (genesis :: block :: rest) = true)
    (counts : CountsInRange (genesis :: block :: rest)) (forgery : Forgery sha block forged addr) :
    Rewrites sha (genesis :: block :: rest) (genesis :: forged :: rest) where
  length := rfl
  start := rfl
  valid := by
    rw [chainValidate_iff] at valid ⊢
    have blockValid : blockValidate sha forged = blockValidate sha block := by
      rw [blockValidate, blockValidate, forgery.computed, forgery.hash]
    rw [List.isChain_cons_cons] at valid ⊢
    obtain ⟨⟨prev, first⟩, later⟩ := valid
    refine ⟨⟨by rw [forgery.prevHash, prev], by rw [blockValid, first]⟩, ?_⟩
    cases rest with
    | nil => simp
    | cons next rest =>
      rw [List.isChain_cons_cons] at later ⊢
      exact ⟨⟨by rw [forgery.hash]; exact later.1.1, later.1.2⟩, later.2⟩
  counts := by
    intro other member
    simp only [List.mem_cons] at member
    rcases member with rfl | rfl | inRest
    · exact counts _ (by simp)
    · exact forgery.counts
    · exact counts other (by simp [inRest])
  hashes := by simp [forgery.hash]

/-- The forged block gives the address another sum, as residues. -/
theorem forgery_changes_balance (sha : Sha256) (genesis block forged : Block) (rest : Blockchain)
    (addr : CText addrLen) (forgery : Forgery sha block forged addr) :
    chainGetBalance (genesis :: forged :: rest) addr ≠
      chainGetBalance (genesis :: block :: rest) addr := by
  intro same
  have sums := congrArg signed same
  simp only [signed_chainGetBalance, chainTxs, List.flatMap_cons, List.map_append,
    List.sum_append] at sums
  exact forgery.changes (add_right_cancel (add_left_cancel sums))

/-- The block hashes of a valid chain determine its balances exactly if the
chain has no block after block 0. Nothing about the digest function is used. -/
theorem tamperEvident_iff (sha : Sha256) (chain : Blockchain)
    (valid : chainValidate sha chain = true) (counts : CountsInRange chain) :
    TamperEvident sha chain ↔ chain.length ≤ 1 := by
  constructor
  · intro evident
    match chain with
    | [] | [_] => simp
    | genesis :: block :: rest =>
      obtain ⟨forged, addr, forgery⟩ := exists_forgery sha block (counts block (by simp))
      have rewrites := rewrites_of_forgery sha genesis block forged rest addr valid counts forgery
      exact absurd (evident _ rewrites addr)
        (forgery_changes_balance sha genesis block forged rest addr forgery)
  · intro short other rewrites addr
    have length := rewrites.length
    have start := rewrites.start
    match chain, other with
    | [], [] => rfl
    | [only], [single] =>
      obtain rfl : single = only := by simpa using start
      rfl
    | [], _ :: _ => simp at length
    | [_], [] => simp at length
    | [_], _ :: _ :: _ => simp at length
    | _ :: _ :: _, _ => simp at short

/-! ## An example -/

/-- The block that the owner of a wallet mines first, at time 192. -/
def firstBlock : Block :=
  { fillBlock Sha2.sha256 [genesisBlock] [] (stubWallet 0).address (blockAfter genesisBlock 192) with
    hash := CText.ofBytes (ascii "0035a52c75d46dec5ca08ffc3d649de0d275f1f408023e0768767876a199e892") }

/-- The same block, in which the miner gets 5000 instead of 50. -/
def enrichedBlock : Block :=
  { firstBlock with
    transactions := fillSlots [{ coinbaseTx Sha2.sha256 (stubWallet 0).address [] with amount := 5000 }] }

theorem firstChain_valid : chainValidate Sha2.sha256 [genesisBlock, firstBlock] = true ∧
    CountsInRange [genesisBlock, firstBlock] := by
  refine ⟨by decide +kernel, ?_⟩
  intro block member
  simp only [List.mem_cons, List.not_mem_nil, or_false] at member
  rcases member with rfl | rfl <;> exact ⟨by decide +kernel, by decide +kernel⟩

/-- Both chains are valid and have the same block hashes, computed from the same
texts, but the miner's balance differs. The amount is not hashed into the block,
only the stored hash is. -/
theorem balance_rewritten :
    chainValidate Sha2.sha256 [genesisBlock, firstBlock] = true ∧
      CountsInRange [genesisBlock, firstBlock] ∧
      Rewrites Sha2.sha256 [genesisBlock, firstBlock] [genesisBlock, enrichedBlock] ∧
      [genesisBlock, enrichedBlock].map blockHashInput = [genesisBlock, firstBlock].map blockHashInput ∧
      ¬ TamperEvident Sha2.sha256 [genesisBlock, firstBlock] := by
  have rewrites : Rewrites Sha2.sha256 [genesisBlock, firstBlock] [genesisBlock, enrichedBlock] := by
    refine ⟨rfl, rfl, by decide +kernel, ?_, by decide +kernel⟩
    intro block member
    simp only [List.mem_cons, List.not_mem_nil, or_false] at member
    rcases member with rfl | rfl <;> exact ⟨by decide +kernel, by decide +kernel⟩
  refine ⟨firstChain_valid.1, firstChain_valid.2, rewrites, by decide +kernel, fun evident => ?_⟩
  have same := evident _ rewrites (stubWallet 0).address
  revert same
  decide +kernel

theorem firstChain_not_tamperEvident :
    TamperEvident Sha2.sha256 [genesisBlock, firstBlock] ↔ [genesisBlock, firstBlock].length ≤ 1 :=
  tamperEvident_iff Sha2.sha256 [genesisBlock, firstBlock] firstChain_valid.1 firstChain_valid.2

end MiniCoin
