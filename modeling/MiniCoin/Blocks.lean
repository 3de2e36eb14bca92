import MiniCoin.Transactions

/-!
# Blocks

The record of `block.h` and the functions of `block.c`. A block has ten transaction
slots whatever its `tx_count` says; the loops of the source run over the first
`tx_count` of them, and over none when the count is negative. A count beyond the
array makes those loops read outside it, which C leaves undefined; `InBounds` names
the blocks on which the loops are defined, and only these are meant below.

`block_mine` searches upward from nonce zero without a limit. Its loop is given by
fuel; after `2 ^ 64` attempts the nonce has wrapped, so no larger fuel finds more.
-/

namespace MiniCoin

open ByteStrings

/-- `MAX_TX_PER_BLOCK`, the coinbase included. -/
abbrev maxTxPerBlock : Nat := 10
/-- `HASH_HEX_LEN`, the room for a hash in hexadecimal digits with its
terminator. -/
abbrev hashHexLen : Nat := 65
/-- `MINING_DIFFICULTY`: the number of zeros that a block's hash begins with. -/
def miningDifficulty : Nat := 2

/-- `block_t`. The array has ten slots whatever `tx_count` says, and the count
may be negative, as the source's `int` is. -/
structure Block where
  index : UInt32
  timestamp : Int64
  transactions : Vector Tx maxTxPerBlock
  txCount : Int32
  prevHash : CText hashHexLen
  nonce : UInt64
  hash : CText hashHexLen
  deriving DecidableEq

namespace Block

/-- A block after `memset`, as the parsers and `do_mine` begin with. -/
def zero : Block := ⟨0, 0, Vector.replicate _ Tx.zero, 0, .empty, 0, .empty⟩

/-- How many slots a loop `for (i = 0; i < tx_count; i++)` visits. A negative
count visits none. -/
def count (block : Block) : Nat := block.txCount.toInt.toNat

/-- The transactions that such a loop visits. For a count above the array the
source would read beyond it, so the results that depend on this ask for
`InBounds`. -/
def listed (block : Block) : List Tx := block.transactions.toList.take block.count

/-- The loops over the transactions stay inside the array. The parser does not
check this, although it fills no more than ten slots. -/
def InBounds (block : Block) : Prop := block.txCount.toInt ≤ maxTxPerBlock

instance (block : Block) : Decidable block.InBounds := inferInstanceAs (Decidable (_ ≤ _))

/-- The loops visit as many transactions as `tx_count` says, neither fewer for a
negative count nor slots outside the array. -/
def CountInRange (block : Block) : Prop := 0 ≤ block.txCount.toInt ∧ block.InBounds

instance (block : Block) : Decidable block.CountInRange := inferInstanceAs (Decidable (_ ∧ _))

/-- The loops never visit more than the ten slots of the array in the model. -/
theorem listed_length_le (block : Block) : block.listed.length ≤ maxTxPerBlock := by
  simp [listed]

/-- A count in range is the number of transactions that the loops visit. -/
theorem listed_length (block : Block) (range : block.CountInRange) :
    (block.listed.length : Int) = block.txCount.toInt := by
  obtain ⟨lower, upper⟩ := range
  have upper' : block.txCount.toInt ≤ 10 := upper
  simp only [listed, count, List.length_take, Vector.length_toList, maxTxPerBlock]
  omega

end Block

/-- The loop of `block_compute_hash` over the transaction hashes, with its guard
on the room that is left. -/
def appendTxHashes : List Tx → Buffer → Buffer
  | [], buf => buf
  | tx :: rest, buf =>
    if buf.offset < 4096 - 65 then appendTxHashes rest (buf.print 4096 tx.txHash.bytes) else buf

/-- The string that `block_compute_hash` feeds to SHA-256: the header fields and
the stored transaction hashes, without separators. -/
def blockHashInput (block : Block) : List UInt8 :=
  let header := decimal block.index.toNat ++ signedDecimal block.timestamp.toInt ++
    block.prevHash.bytes ++ decimal block.nonce.toNat
  (appendTxHashes block.listed (Buffer.print 4096 ⟨[], 0⟩ header)).text

/-- `block_compute_hash`. The digest is stored in hexadecimal digits, and
compared as text. -/
def blockComputeHash (sha : Sha256) (block : Block) : CText hashHexLen :=
  hexDigest (sha (blockHashInput block))

/-- The test `strncmp(hash, target, MINING_DIFFICULTY) == 0`: the text begins
with that many zeros. -/
def meetsTarget (hash : CText hashHexLen) : Bool :=
  hash.bytes.take miningDifficulty == List.replicate miningDifficulty 48

/-- The search loop of `block_mine`; `none` when the fuel runs out. The nonce
wraps in 64 bits, and the hash is written back only at the end. -/
def blockMineLoop (sha : Sha256) : Nat → Block → UInt64 → Option (UInt64 × Block)
  | 0, _, _ => none
  | fuel + 1, block, attempts =>
    let hash := blockComputeHash sha block
    if meetsTarget hash then some (attempts + 1, { block with hash := hash })
    else blockMineLoop sha fuel { block with nonce := block.nonce + 1 } (attempts + 1)

/-- `block_mine`: the attempts made and the mined block, or `none` when the loop
of the source never ends. -/
def blockMine (sha : Sha256) (block : Block) : Option (UInt64 × Block) :=
  blockMineLoop sha (2 ^ 64) { block with nonce := 0 } 0

/-- `block_validate`: whether it returns 0. It computes the hash again and tests
the target, and looks at nothing else. -/
def blockValidate (sha : Sha256) (block : Block) : Bool :=
  blockComputeHash sha block == block.hash && meetsTarget block.hash

/-- The genesis block before it is mined. Its fields are constants, so every
node gets the same block. -/
def genesisTemplate : Block :=
  { Block.zero with
    index := 0
    timestamp := 1231006505
    txCount := 0
    prevHash := CText.ofBytes (List.replicate 64 48) }

/-- `block_create_genesis`. It is mined anew by every process. -/
def blockCreateGenesis (sha : Sha256) : Option Block :=
  (blockMine sha genesisTemplate).map Prod.snd

/-! ## What is hashed -/

/-- The header text before the transaction hashes. Only the hash has a fixed
width. -/
def headerText (block : Block) : List UInt8 :=
  decimal block.index.toNat ++ signedDecimal block.timestamp.toInt ++ block.prevHash.bytes ++
    decimal block.nonce.toNat

/-- The header fits its buffer with room left, so `snprintf` cuts nothing
off. -/
theorem headerText_length (block : Block) : (headerText block).length ≤ 124 := by
  have index := decimal_length block.index.toNat 20
    (lt_trans block.index.toNat_lt (by decide)) (by decide)
  have nonce := decimal_length block.nonce.toNat 20
    (lt_trans block.nonce.toNat_lt (by decide)) (by decide)
  have prev : block.prevHash.bytes.length < 65 := block.prevHash.bound
  have lower := block.timestamp.le_toInt
  have upper := block.timestamp.toInt_lt
  have magnitude := decimal_length block.timestamp.toInt.natAbs 19 (by omega) (by decide)
  have stamp : (signedDecimal block.timestamp.toInt).length ≤ 20 := by
    unfold signedDecimal
    split
    · simp only [List.length_cons]
      omega
    · omega
  simp only [headerText, List.length_append]
  omega

/-- While the buffer has room for every hash, the guard never stops the loop and
no hash is cut. -/
theorem appendTxHashes_text (txs : List Tx) (text : List UInt8)
    (room : text.length + 64 * txs.length < 4096 - 65) :
    appendTxHashes txs ⟨text, text.length⟩ =
      ⟨text ++ txs.flatMap (·.txHash.bytes), (text ++ txs.flatMap (·.txHash.bytes)).length⟩ := by
  induction txs generalizing text with
  | nil => simp [appendTxHashes]
  | cons tx rest ih =>
    have short := tx.txHash.bound
    simp only [List.length_cons] at room
    rw [appendTxHashes, if_pos (by simp only; omega), Buffer.print_fits _ _ _ (by omega), ih _ (by
      simp only [List.length_append]
      omega)]
    simp

/-- The hashed text is the header followed by the listed transaction hashes. -/
theorem blockHashInput_eq (block : Block) :
    blockHashInput block = headerText block ++ block.listed.flatMap (·.txHash.bytes) := by
  have header := headerText_length block
  have listed : block.listed.length ≤ 10 := block.listed_length_le
  change (appendTxHashes block.listed
    (Buffer.print 4096 ⟨[], ([] : List UInt8).length⟩ (headerText block))).text = _
  rw [Buffer.print_fits _ _ _ (by simp only [List.length_nil]; omega), List.nil_append,
    appendTxHashes_text _ _ (by omega)]

/-! ## Mining and validation -/

/-- `block_validate` asks for two things only: the stored hash is the computed
one, and it meets the target. What the transactions say is not looked at. -/
theorem blockValidate_iff (sha : Sha256) (block : Block) : blockValidate sha block = true ↔
    block.hash = blockComputeHash sha block ∧ meetsTarget block.hash = true := by
  rw [blockValidate, Bool.and_eq_true, beq_iff_eq, eq_comm]

/-- The stored hash is not part of what is hashed. -/
@[simp] theorem blockComputeHash_hash (sha : Sha256) (block : Block) (hash : CText hashHexLen) :
    blockComputeHash sha { block with hash := hash } = blockComputeHash sha block := rfl

/-- A run of the search loop changes nothing but the nonce and the stored hash,
and ends with a valid block. -/
theorem blockMineLoop_some (sha : Sha256) (fuel : Nat) (block mined : Block)
    (attempts total : UInt64) (found : blockMineLoop sha fuel block attempts = some (total, mined)) :
    (∃ nonce hash, mined = { block with nonce := nonce, hash := hash }) ∧
      blockValidate sha mined = true := by
  induction fuel generalizing block attempts with
  | zero => simp [blockMineLoop] at found
  | succ fuel ih =>
    rw [blockMineLoop] at found
    split at found
    · next target =>
      obtain ⟨-, rfl⟩ := Prod.mk.inj (Option.some.inj found)
      exact ⟨⟨block.nonce, _, rfl⟩, by simp [blockValidate_iff, target]⟩
    · obtain ⟨⟨nonce, hash, same⟩, valid⟩ := ih _ _ found
      exact ⟨⟨nonce, hash, same⟩, valid⟩

/-- The search ends at the first nonce, counted from the start, whose hash meets
the target. -/
theorem blockMineLoop_first (sha : Sha256) (fuel tries : Nat) (block : Block) (attempts : UInt64)
    (enough : tries < fuel)
    (early : ∀ earlier < tries, meetsTarget (blockComputeHash sha
      { block with nonce := block.nonce + UInt64.ofNat earlier }) = false)
    (hit : meetsTarget (blockComputeHash sha
      { block with nonce := block.nonce + UInt64.ofNat tries }) = true) :
    ∃ total, blockMineLoop sha fuel block attempts = some (total,
      { block with
        nonce := block.nonce + UInt64.ofNat tries
        hash := blockComputeHash sha { block with nonce := block.nonce + UInt64.ofNat tries } }) := by
  induction tries generalizing block fuel attempts with
  | zero =>
    obtain ⟨fuel, rfl⟩ := Nat.exists_eq_add_of_lt enough
    have same : block.nonce + UInt64.ofNat 0 = block.nonce := by simp
    rw [same] at hit ⊢
    rw [blockMineLoop, if_pos hit]
    exact ⟨_, rfl⟩
  | succ tries ih =>
    obtain ⟨fuel, rfl⟩ : ∃ less, fuel = less + 1 := ⟨fuel - 1, by omega⟩
    have first := early 0 (Nat.succ_pos tries)
    have same : block.nonce + UInt64.ofNat 0 = block.nonce := by simp
    have shift (n : Nat) : block.nonce + 1 + UInt64.ofNat n = block.nonce + UInt64.ofNat (n + 1) := by
      rw [UInt64.add_assoc, UInt64.add_comm 1]
      simp
    rw [same] at first
    rw [blockMineLoop, if_neg (by simp [first])]
    have later := ih fuel { block with nonce := block.nonce + 1 } (attempts + 1) (by omega)
      (fun earlier before => by
        simp only [shift]
        exact early (earlier + 1) (by omega))
      (by simpa only [shift] using hit)
    simpa only [shift] using later

/-- A mined block passes `block_validate` and differs from its template only in
the nonce and the stored hash. -/
theorem blockMine_some (sha : Sha256) (block mined : Block) (total : UInt64)
    (found : blockMine sha block = some (total, mined)) :
    (∃ nonce hash, mined = { block with nonce := nonce, hash := hash }) ∧
      blockValidate sha mined = true := by
  obtain ⟨⟨nonce, hash, same⟩, valid⟩ := blockMineLoop_some sha _ _ _ _ _ found
  exact ⟨⟨nonce, hash, same⟩, valid⟩

/-- The genesis block keeps its template's fields and is valid. -/
theorem blockCreateGenesis_some (sha : Sha256) (genesis : Block)
    (created : blockCreateGenesis sha = some genesis) :
    (∃ nonce hash, genesis = { genesisTemplate with nonce := nonce, hash := hash }) ∧
      blockValidate sha genesis = true := by
  obtain ⟨⟨total, mined⟩, found, rfl⟩ := Option.map_eq_some_iff.mp created
  exact blockMine_some sha _ _ _ found

end MiniCoin
