import MiniCoin.Blocks
import MiniCoin.JoinedTexts

/-!
# What the hashed texts determine

`tx_compute_hash` and `block_compute_hash` write their fields one after another without
separators. For transactions between full addresses this leaves one thing open: leading digits
of the fee may as well be the last digits of the amount. For blocks with full hashes the
transaction hashes are determined, but digits may move from the timestamp to the index, and
`prev_hash` may slide along the text if digits of the nonce replace what it loses. In all other
cases equal texts have equal fields.
-/

namespace MiniCoin

open ByteStrings

/-! ## Transactions -/

/-- What a transaction pays, and from whom to whom. The signature should
authorise this and nothing else. -/
structure SamePayment (left right : Tx) : Prop where
  sender : left.sender = right.sender
  receiver : left.receiver = right.receiver
  amount : left.amount = right.amount
  fee : left.fee = right.fee

/-- Both addresses have 64 characters, as all addresses of wallets have. The
border between them is then fixed. -/
def Tx.FullAddresses (tx : Tx) : Prop :=
  tx.sender.bytes.length = 64 ∧ tx.receiver.bytes.length = 64

instance (tx : Tx) : Decidable tx.FullAddresses := inferInstanceAs (Decidable (_ ∧ _))

/-- Between the same addresses, digits have moved from the fee to the amount, so
that both are written with the same digits in a row. -/
def FeeDigitsMoved (left right : Tx) : Prop :=
  left.sender = right.sender ∧ left.receiver = right.receiver ∧
    DigitsMoved left.amount.toNat left.fee.toNat right.amount.toNat right.fee.toNat

/-- The payments that have the same hashed text. -/
theorem txHashInput_eq_iff (left right : Tx) (leftFull : left.FullAddresses)
    (rightFull : right.FullAddresses) : txHashInput left = txHashInput right ↔
      SamePayment left right ∨ FeeDigitsMoved left right ∨ FeeDigitsMoved right left := by
  simp only [txHashInput_eq, List.append_assoc]
  constructor
  · intro same
    obtain ⟨sender, same⟩ := List.append_inj same (leftFull.1.trans rightFull.1.symm)
    obtain ⟨receiver, same⟩ := List.append_inj same (leftFull.2.trans rightFull.2.symm)
    have sender := CText.ext sender
    have receiver := CText.ext receiver
    rcases (decimal_pair_iff _ _ _ _).mp same with ⟨amount, fee⟩ | moved | moved
    · exact Or.inl ⟨sender, receiver, UInt64.toNat_inj.mp amount, UInt64.toNat_inj.mp fee⟩
    · exact Or.inr (Or.inl ⟨sender, receiver, moved⟩)
    · exact Or.inr (Or.inr ⟨sender.symm, receiver.symm, moved⟩)
  · rintro (⟨sender, receiver, amount, fee⟩ | ⟨sender, receiver, moved⟩ | ⟨sender, receiver, moved⟩)
    · rw [sender, receiver, amount, fee]
    · rw [sender, receiver, decimal_pair_of_moved moved]
    · rw [sender, receiver, decimal_pair_of_moved moved]

/-- A digit that moves from the amount to the fee changes both. -/
theorem FeeDigitsMoved.not_same {left right : Tx} (moved : FeeDigitsMoved left right) :
    ¬ SamePayment left right := fun same =>
  moved.2.2.ne (congrArg UInt64.toNat same.amount)

/-- The hashed text of a payment between full addresses determines the payment,
unless it is also the text of one with other digits in the amount. Amount and
fee are written without a separator. -/
theorem txHashInput_unambiguous_iff (left right : Tx) (leftFull : left.FullAddresses)
    (rightFull : right.FullAddresses) :
    (txHashInput left = txHashInput right → SamePayment left right) ↔
      ¬ (FeeDigitsMoved left right ∨ FeeDigitsMoved right left) := by
  rw [txHashInput_eq_iff left right leftFull rightFull]
  constructor
  · rintro determined (moved | moved)
    · exact moved.not_same (determined (Or.inr (Or.inl moved)))
    · have same := determined (Or.inr (Or.inr moved))
      exact moved.not_same ⟨same.sender.symm, same.receiver.symm, same.amount.symm, same.fee.symm⟩
  · rintro unmoved (same | moved)
    · exact same
    · exact absurd moved unmoved

/-- A payment between two fixed addresses. -/
def paymentOf (amount fee : UInt64) : Tx :=
  { Tx.zero with
    sender := CText.ofBytes (List.replicate 64 97)
    receiver := CText.ofBytes (List.replicate 64 98)
    amount := amount
    fee := fee }

/-- 1 coin with a fee of 23 is hashed like 12 coins with a fee of 3, since both
are written 123. -/
theorem txHashInput_ambiguous : (paymentOf 1 23).FullAddresses ∧ (paymentOf 12 3).FullAddresses ∧
    txHashInput (paymentOf 1 23) = txHashInput (paymentOf 12 3) ∧
    (paymentOf 1 23).amount ≠ (paymentOf 12 3).amount := by decide +kernel

/-- 1 and 23 against 12 and 3: one hashed text for two payments. -/
theorem txHashInput_unambiguous_iff_here :
    (txHashInput (paymentOf 1 23) = txHashInput (paymentOf 12 3) →
      SamePayment (paymentOf 1 23) (paymentOf 12 3)) ↔
    ¬ (FeeDigitsMoved (paymentOf 1 23) (paymentOf 12 3) ∨
      FeeDigitsMoved (paymentOf 12 3) (paymentOf 1 23)) :=
  txHashInput_unambiguous_iff _ _ (by decide +kernel) (by decide +kernel)

/-! ## Blocks -/

/-- The timestamp is not negative, all hashes have 64 characters, and the count
fits. -/
structure Block.FullHashes (block : Block) : Prop where
  timestamp : 0 ≤ block.timestamp.toInt
  prevHash : block.prevHash.bytes.length = 64
  range : block.CountInRange
  txHashes : ∀ tx ∈ block.listed, tx.txHash.bytes.length = 64

/-- All fields that are hashed are the same. The transactions enter the hashed
text by their hashes only. -/
structure SameHashed (left right : Block) : Prop where
  index : left.index = right.index
  timestamp : left.timestamp = right.timestamp
  prevHash : left.prevHash = right.prevHash
  nonce : left.nonce = right.nonce
  txCount : left.txCount = right.txCount
  txHashes : left.listed.map Tx.txHash = right.listed.map Tx.txHash

/-- In front of the same previous hash and nonce, digits have moved from the
timestamp to the index. -/
def StampDigitsMoved (left right : Block) : Prop :=
  left.prevHash = right.prevHash ∧ left.nonce = right.nonce ∧
    DigitsMoved left.index.toNat left.timestamp.toInt.toNat right.index.toNat
      right.timestamp.toInt.toNat

/-- The previous hash has lost characters to the numbers in front of it, and has
gained as many digits of the nonce at its end. -/
def PrevHashSlid (left right : Block) : Prop :=
  ∃ front common back : List UInt8, front ≠ [] ∧ front.length = back.length ∧
    decimal right.index.toNat ++ decimal right.timestamp.toInt.toNat =
      decimal left.index.toNat ++ decimal left.timestamp.toInt.toNat ++ front ∧
    left.prevHash.bytes = front ++ common ∧ right.prevHash.bytes = common ++ back ∧
    decimal left.nonce.toNat = back ++ decimal right.nonce.toNat

/-- The fields of one block can be shifted along the hashed text to those of the
other. -/
def Shifted (left right : Block) : Prop :=
  left.listed.map Tx.txHash = right.listed.map Tx.txHash ∧
    (StampDigitsMoved left right ∨ PrevHashSlid left right)

/-- The hashed header in two parts, which the proofs compare one by one: the
digits before the previous hash, and this hash with the digits behind it. -/
theorem headerText_parts (block : Block) (full : block.FullHashes) : headerText block =
    (decimal block.index.toNat ++ decimal block.timestamp.toInt.toNat) ++
      (block.prevHash.bytes ++ decimal block.nonce.toNat) := by
  have timestamp := full.timestamp
  have stamp : signedDecimal block.timestamp.toInt = decimal block.timestamp.toInt.toNat := by
    rw [signedDecimal, if_neg (by omega)]
    congr 1
    omega
  rw [headerText, stamp]
  simp only [List.append_assoc]

/-- With full hashes the header is between one and two blocks of SHA-256 long,
which tells how many transaction hashes follow. -/
theorem headerText_bounds (block : Block) (full : block.FullHashes) :
    64 ≤ (headerText block).length ∧ (headerText block).length < 64 + 64 := by
  have upper := headerText_length block
  rw [headerText_parts block full, List.length_append, List.length_append, List.length_append,
    full.prevHash] at upper ⊢
  omega

/-- The transaction hashes are determined by the hashed text, and so is their
number. -/
theorem blockHashInput_split (left right : Block) (leftFull : left.FullHashes)
    (rightFull : right.FullHashes) (same : blockHashInput left = blockHashInput right) :
    headerText left = headerText right ∧
      left.listed.map Tx.txHash = right.listed.map Tx.txHash := by
  have widths (block : Block) (full : block.FullHashes) :
      ∀ hash ∈ block.listed.map fun tx => tx.txHash.bytes, hash.length = 64 := by
    intro hash member
    obtain ⟨tx, inListed, rfl⟩ := List.mem_map.mp member
    exact full.txHashes tx inListed
  rw [blockHashInput_eq, blockHashInput_eq, List.flatMap_def, List.flatMap_def] at same
  obtain ⟨header, hashes⟩ := chunks_behind 64 64 _ _ _ _ (by decide) (widths left leftFull)
    (widths right rightFull) (headerText_bounds left leftFull) (headerText_bounds right rightFull) same
  have texts : (left.listed.map Tx.txHash).map CText.bytes =
      (right.listed.map Tx.txHash).map CText.bytes := by
    rw [List.map_map, List.map_map]
    exact hashes
  exact ⟨header, List.map_injective_iff.mpr (fun _ _ same => CText.ext same) texts⟩

/-- Full hashes have one length, so the joined hashes tell how many they are. -/
theorem txCount_of_txHashes (left right : Block) (leftFull : left.FullHashes)
    (rightFull : right.FullHashes)
    (hashes : left.listed.map Tx.txHash = right.listed.map Tx.txHash) :
    left.txCount = right.txCount := by
  have counts : left.listed.length = right.listed.length := by
    simpa using congrArg List.length hashes
  have leftCount := left.listed_length leftFull.range
  have rightCount := right.listed_length rightFull.range
  exact Int32.toInt_inj.mp (by omega)

/-- Equal headers with equally long numbers in front. -/
theorem headers_aligned (left right : Block) (leftFull : left.FullHashes)
    (rightFull : right.FullHashes)
    (width : (decimal left.index.toNat ++ decimal left.timestamp.toInt.toNat).length =
      (decimal right.index.toNat ++ decimal right.timestamp.toInt.toNat).length)
    (hashes : left.listed.map Tx.txHash = right.listed.map Tx.txHash)
    (same : headerText left = headerText right) :
    SameHashed left right ∨ StampDigitsMoved left right ∨ StampDigitsMoved right left := by
  rw [headerText_parts left leftFull, headerText_parts right rightFull] at same
  obtain ⟨numbers, rest⟩ := List.append_inj same width
  obtain ⟨prev, nonce⟩ := List.append_inj rest (leftFull.prevHash.trans rightFull.prevHash.symm)
  have prevHash := CText.ext prev
  have nonce := UInt64.toNat_inj.mp (decimal_injective nonce)
  have leftStamp := leftFull.timestamp
  have rightStamp := rightFull.timestamp
  rcases (decimal_pair_iff _ _ _ _).mp numbers with ⟨index, timestamp⟩ | moved | moved
  · refine Or.inl ⟨UInt32.toNat_inj.mp index, Int64.toInt_inj.mp (by omega), prevHash, nonce, ?_, hashes⟩
    exact txCount_of_txHashes left right leftFull rightFull hashes
  · exact Or.inr (Or.inl ⟨prevHash, nonce, moved⟩)
  · exact Or.inr (Or.inr ⟨prevHash.symm, nonce.symm, moved⟩)

/-- Equal headers with longer numbers in front of the second previous hash. -/
theorem headers_slid (left right : Block) (leftFull : left.FullHashes)
    (rightFull : right.FullHashes)
    (longer : (decimal left.index.toNat ++ decimal left.timestamp.toInt.toNat).length <
      (decimal right.index.toNat ++ decimal right.timestamp.toInt.toNat).length)
    (same : headerText left = headerText right) : PrevHashSlid left right := by
  have short : (decimal right.index.toNat ++ decimal right.timestamp.toInt.toNat).length ≤ 60 := by
    have upper := headerText_length right
    rw [headerText_parts right rightFull, List.length_append] at upper
    rw [@List.length_append _ right.prevHash.bytes, rightFull.prevHash] at upper
    omega
  have width := leftFull.prevHash.trans rightFull.prevHash.symm
  have leftWidth := leftFull.prevHash
  rw [headerText_parts left leftFull, headerText_parts right rightFull] at same
  obtain ⟨front, common, back, some, lengths, numbers, prev, prev', nonce⟩ :=
    slid_of_longer _ _ _ _ _ _ width longer (by omega) same
  exact ⟨front, common, back, some, lengths, numbers, prev, prev', nonce⟩

/-- Equal transaction hashes are written the same. -/
theorem txHashes_text {left right : Block}
    (hashes : left.listed.map Tx.txHash = right.listed.map Tx.txHash) :
    left.listed.flatMap (·.txHash.bytes) = right.listed.flatMap (·.txHash.bytes) := by
  have texts := congrArg (fun hashes => (hashes.map CText.bytes).flatten) hashes
  simp only [List.map_map] at texts
  rw [List.flatMap_def, List.flatMap_def]
  exact texts

/-- A digit that moves from the index to the timestamp leaves the hashed text as
it is. -/
theorem Shifted.input_eq {left right : Block} (leftFull : left.FullHashes)
    (rightFull : right.FullHashes) (shifted : Shifted left right) :
    blockHashInput left = blockHashInput right := by
  rw [blockHashInput_eq, blockHashInput_eq, txHashes_text shifted.1, headerText_parts left leftFull,
    headerText_parts right rightFull]
  congr 1
  rcases shifted.2 with ⟨prevHash, nonce, moved⟩ | ⟨front, common, back, -, -, numbers, prev, prev', nonce⟩
  · rw [prevHash, nonce, decimal_pair_of_moved moved]
  · rw [numbers, prev, prev', nonce]
    simp

/-- It changes the index. -/
theorem Shifted.not_same {left right : Block} (shifted : Shifted left right) :
    ¬ SameHashed left right := by
  intro same
  rcases shifted.2 with ⟨-, -, moved⟩ | ⟨front, -, -, some, -, numbers, -⟩
  · exact moved.ne (congrArg UInt32.toNat same.index)
  · rw [same.index, same.timestamp] at numbers
    exact some (by simpa using numbers)

/-- The blocks that have the same hashed text. -/
theorem blockHashInput_eq_iff (left right : Block) (leftFull : left.FullHashes)
    (rightFull : right.FullHashes) : blockHashInput left = blockHashInput right ↔
      SameHashed left right ∨ Shifted left right ∨ Shifted right left := by
  constructor
  · intro same
    obtain ⟨header, hashes⟩ := blockHashInput_split left right leftFull rightFull same
    rcases Nat.lt_trichotomy
      (decimal left.index.toNat ++ decimal left.timestamp.toInt.toNat).length
      (decimal right.index.toNat ++ decimal right.timestamp.toInt.toNat).length
      with longer | width | shorter
    · exact Or.inr (Or.inl ⟨hashes, Or.inr (headers_slid left right leftFull rightFull longer header)⟩)
    · rcases headers_aligned left right leftFull rightFull width hashes header with same | moved | moved
      · exact Or.inl same
      · exact Or.inr (Or.inl ⟨hashes, Or.inl moved⟩)
      · exact Or.inr (Or.inr ⟨hashes.symm, Or.inl moved⟩)
    · have slid := headers_slid right left rightFull leftFull shorter header.symm
      exact Or.inr (Or.inr ⟨hashes.symm, Or.inr slid⟩)
  · rintro (same | shifted | shifted)
    · rw [blockHashInput_eq, blockHashInput_eq, headerText, headerText, same.index, same.timestamp,
        same.prevHash, same.nonce, txHashes_text same.txHashes]
    · exact shifted.input_eq leftFull rightFull
    · exact (shifted.input_eq rightFull leftFull).symm

/-- The hashed text of a block with full hashes determines its fields, unless
they can be shifted along the text. That is possible at two places, on both
sides of the previous hash. -/
theorem blockHashInput_unambiguous_iff (left right : Block) (leftFull : left.FullHashes)
    (rightFull : right.FullHashes) :
    (blockHashInput left = blockHashInput right → SameHashed left right) ↔
      ¬ (Shifted left right ∨ Shifted right left) := by
  rw [blockHashInput_eq_iff left right leftFull rightFull]
  constructor
  · rintro determined (shifted | shifted)
    · exact shifted.not_same (determined (Or.inr (Or.inl shifted)))
    · have same := determined (Or.inr (Or.inr shifted))
      exact shifted.not_same ⟨same.index.symm, same.timestamp.symm, same.prevHash.symm,
        same.nonce.symm, same.txCount.symm, same.txHashes.symm⟩
  · rintro unshifted (same | shifted)
    · exact same
    · exact absurd shifted unshifted

/-- A block without transactions behind a hash of zeros. -/
def stampedBlock (index : UInt32) (timestamp : Int64) : Block :=
  { Block.zero with
    index := index
    timestamp := timestamp
    prevHash := CText.ofBytes (List.replicate 64 48) }

/-- The blocks of the example carry full hashes. -/
theorem stampedBlock_full (index : UInt32) (timestamp : Int64) (positive : 0 ≤ timestamp.toInt) :
    (stampedBlock index timestamp).FullHashes where
  timestamp := positive
  prevHash := by
    change (CText.ofBytes (List.replicate 64 48) : CText hashHexLen).bytes.length = 64
    decide +kernel
  range := by
    change Block.zero.CountInRange
    decide
  txHashes := by simp [Block.listed, Block.count, stampedBlock, Block.zero]

/-- Block 1 at time 1700000000 is hashed like block 11 at time 700000000. One
digit has moved over a border that the text does not show. -/
theorem blockHashInput_ambiguous :
    (stampedBlock 1 1700000000).FullHashes ∧ (stampedBlock 11 700000000).FullHashes ∧
    blockHashInput (stampedBlock 1 1700000000) = blockHashInput (stampedBlock 11 700000000) ∧
    (stampedBlock 1 1700000000).index ≠ (stampedBlock 11 700000000).index :=
  ⟨stampedBlock_full _ _ (by decide), stampedBlock_full _ _ (by decide), by decide +kernel, by decide⟩

/-- Index 1 with a timestamp of ten digits against index 11 with one of nine. -/
theorem blockHashInput_unambiguous_iff_here :
    (blockHashInput (stampedBlock 1 1700000000) = blockHashInput (stampedBlock 11 700000000) →
      SameHashed (stampedBlock 1 1700000000) (stampedBlock 11 700000000)) ↔
    ¬ (Shifted (stampedBlock 1 1700000000) (stampedBlock 11 700000000) ∨
      Shifted (stampedBlock 11 700000000) (stampedBlock 1 1700000000)) :=
  blockHashInput_unambiguous_iff _ _ (stampedBlock_full _ _ (by decide))
    (stampedBlock_full _ _ (by decide))

end MiniCoin
