import MiniCoin.JoinedTexts
import MiniCoin.Tampering

/-!
# What the tip hash commits to

The text that is hashed has no separators. With ten digits for the timestamp and 64
characters for each hash its parts can be told apart all the same: the index is known from
the position, and the number of digits of the nonce is what remains modulo 64. If the digest
function is injective on the texts concerned, the hash of a valid block therefore determines
its header and its transaction hashes, and through the previous hash the block before it.
-/

namespace MiniCoin

open ByteStrings

theorem hexDigest_injective : Function.Injective hexDigest := by
  intro left right same
  have texts : hexText left.toList = hexText right.toList := congrArg CText.bytes same
  have readLeft := decodeHex_hexText left.toList []
  have readRight := decodeHex_hexText right.toList []
  rw [Vector.length_toList] at readLeft readRight
  rw [texts] at readLeft
  exact Vector.toList_inj.mp (Option.some.inj (readLeft.symm.trans readRight))

/-! ## The hashed text of a block -/

/-- The widths that the hashed text relies on: ten digits for the time and 64
for each hash, so that the borders between the fields are at known places. -/
structure Block.Regular (block : Block) : Prop where
  timestamp : 10 ^ 9 ≤ block.timestamp.toInt ∧ block.timestamp.toInt < 10 ^ 10
  prevHash : block.prevHash.bytes.length = 64
  range : block.CountInRange
  txHashes : ∀ tx ∈ block.listed, tx.txHash.bytes.length = 64

/-- What a hash commits to. The index is not here, because it follows from the
position, and transactions are committed to by their stored hashes. -/
structure SameCommitted (left right : Block) : Prop where
  timestamp : left.timestamp = right.timestamp
  prevHash : left.prevHash = right.prevHash
  nonce : left.nonce = right.nonce
  hash : left.hash = right.hash
  txCount : left.txCount = right.txCount
  txHashes : left.listed.map Tx.txHash = right.listed.map Tx.txHash

/-- The parts of the hashed text of a regular block. -/
theorem blockHashInput_parts (block : Block) (regular : block.Regular) :
    blockHashInput block = decimal block.index.toNat ++ (decimal block.timestamp.toInt.toNat ++
      (block.prevHash.bytes ++ (decimal block.nonce.toNat ++
        (block.listed.map fun tx => tx.txHash.bytes).flatten))) := by
  obtain ⟨lower, upper⟩ := regular.timestamp
  have stamp : signedDecimal block.timestamp.toInt = decimal block.timestamp.toInt.toNat := by
    rw [signedDecimal, if_neg (by omega)]
    congr 1
    omega
  rw [blockHashInput_eq, headerText, stamp, List.flatMap_def]
  simp only [List.append_assoc]

/-- The nonce and the transaction hashes are told apart by their lengths modulo
64. -/
theorem nonce_and_hashes (left right : UInt64) (leftHashes rightHashes : List (List UInt8))
    (leftWidth : ∀ hash ∈ leftHashes, hash.length = 64)
    (rightWidth : ∀ hash ∈ rightHashes, hash.length = 64)
    (same : decimal left.toNat ++ leftHashes.flatten = decimal right.toNat ++ rightHashes.flatten) :
    left = right ∧ leftHashes = rightHashes := by
  have digits (nonce : UInt64) :
      0 ≤ (decimal nonce.toNat).length ∧ (decimal nonce.toNat).length < 0 + 64 := by
    have few := decimal_length nonce.toNat 20 (lt_trans nonce.toNat_lt (by decide)) (by decide)
    omega
  obtain ⟨nonce, hashes⟩ := chunks_behind 64 0 _ _ _ _ (by decide) leftWidth rightWidth (digits left)
    (digits right) same
  exact ⟨UInt64.toNat_inj.mp (decimal_injective nonce), hashes⟩

/-- Two regular blocks with one index and one hashed text differ at most in what
is not hashed. -/
theorem sameCommitted_of_input (left right : Block) (leftRegular : left.Regular)
    (rightRegular : right.Regular) (index : left.index = right.index)
    (hash : left.hash = right.hash) (same : blockHashInput left = blockHashInput right) :
    SameCommitted left right := by
  rw [blockHashInput_parts left leftRegular, blockHashInput_parts right rightRegular, index] at same
  obtain ⟨leftLower, leftUpper⟩ := leftRegular.timestamp
  obtain ⟨rightLower, rightUpper⟩ := rightRegular.timestamp
  have leftWidth := decimal_width left.timestamp.toInt.toNat 9 (by omega) (by omega)
  have rightWidth := decimal_width right.timestamp.toInt.toNat 9 (by omega) (by omega)
  have afterIndex := List.append_cancel_left same
  obtain ⟨stamp, afterStamp⟩ := List.append_inj afterIndex (leftWidth.trans rightWidth.symm)
  obtain ⟨prev, afterPrev⟩ :=
    List.append_inj afterStamp (leftRegular.prevHash.trans rightRegular.prevHash.symm)
  have widths (block : Block) (regular : block.Regular) :
      ∀ hash ∈ block.listed.map fun tx => tx.txHash.bytes, hash.length = 64 := by
    intro hash member
    obtain ⟨tx, inListed, rfl⟩ := List.mem_map.mp member
    exact regular.txHashes tx inListed
  obtain ⟨nonce, hashes⟩ := nonce_and_hashes _ _ _ _ (widths left leftRegular)
    (widths right rightRegular) afterPrev
  have stamps := decimal_injective stamp
  have counts : left.listed.length = right.listed.length := by
    simpa using congrArg List.length hashes
  have leftCount := left.listed_length leftRegular.range
  have rightCount := right.listed_length rightRegular.range
  refine ⟨Int64.toInt_inj.mp (by omega), CText.ext prev, nonce, hash,
    Int32.toInt_inj.mp (by omega), ?_⟩
  have texts : (left.listed.map Tx.txHash).map CText.bytes =
      (right.listed.map Tx.txHash).map CText.bytes := by
    rw [List.map_map, List.map_map]
    exact hashes
  exact (List.map_injective_iff.mpr fun _ _ same => CText.ext same) texts

/-! ## The history -/

/-- The blocks after the first are regular and have their positions as
indices. -/
def RegularHistory (chain : Blockchain) : Prop :=
  ∀ (position : Nat) (block : Block), 1 ≤ position → chain[position]? = some block →
    block.index.toNat = position ∧ block.Regular

/-- The texts that the blocks of a chain after the first hash. On these the
digest function has to be injective, and nowhere else. -/
def hashedTexts (chain : Blockchain) : Set (List UInt8) :=
  {text | ∃ block ∈ chain.tail, text = blockHashInput block}

theorem getElem?_succ_mem_tail (chain : Blockchain) (position : Nat) (block : Block)
    (here : chain[position + 1]? = some block) : block ∈ chain.tail := by
  rw [← List.getElem?_tail] at here
  exact List.mem_of_getElem? here

/-- Equal hashes at one position determine the blocks there. -/
theorem sameCommitted_at (sha : Sha256) (one other : Blockchain)
    (oneLinked : one.IsChain (Linked sha)) (otherLinked : other.IsChain (Linked sha))
    (oneRegular : RegularHistory one) (otherRegular : RegularHistory other)
    (injective : Set.InjOn sha (hashedTexts one ∪ hashedTexts other)) (position : Nat)
    (left right : Block) (leftHere : one[position + 1]? = some left)
    (rightHere : other[position + 1]? = some right) (hash : left.hash = right.hash) :
    SameCommitted left right := by
  obtain ⟨leftIndex, leftFits⟩ := oneRegular _ left (by omega) leftHere
  obtain ⟨rightIndex, rightFits⟩ := otherRegular _ right (by omega) rightHere
  have valid (chain : Blockchain) (linked : chain.IsChain (Linked sha)) (block : Block)
      (here : chain[position + 1]? = some block) : block.hash = blockComputeHash sha block := by
    obtain ⟨inside, rfl⟩ := List.getElem?_eq_some_iff.mp here
    obtain ⟨-, accepted⟩ := List.isChain_iff_getElem.mp linked position inside
    exact ((blockValidate_iff sha _).mp accepted).1
  have digests : sha (blockHashInput left) = sha (blockHashInput right) := by
    apply hexDigest_injective
    have hashes := hash
    rw [valid one oneLinked left leftHere, valid other otherLinked right rightHere] at hashes
    exact hashes
  have texts := injective (Or.inl ⟨left, getElem?_succ_mem_tail one position left leftHere, rfl⟩)
    (Or.inr ⟨right, getElem?_succ_mem_tail other position right rightHere, rfl⟩) digests
  exact sameCommitted_of_input left right leftFits rightFits
    (UInt32.toNat_inj.mp (leftIndex.trans rightIndex.symm)) hash texts

/-- The previous hash hands the agreement on to the position before. -/
theorem sameCommitted_below (sha : Sha256) (one other : Blockchain)
    (oneLinked : one.IsChain (Linked sha)) (otherLinked : other.IsChain (Linked sha))
    (oneRegular : RegularHistory one) (otherRegular : RegularHistory other)
    (injective : Set.InjOn sha (hashedTexts one ∪ hashedTexts other)) (top : Nat) :
    ∀ (left right : Block), one[top]? = some left → other[top]? = some right →
      left.hash = right.hash → ∀ position, 1 ≤ position → position ≤ top →
        ∀ (first second : Block), one[position]? = some first → other[position]? = some second →
          SameCommitted first second := by
  induction top with
  | zero =>
    intro left right leftHere rightHere hash position positive below
    omega
  | succ top ih =>
    intro left right leftHere rightHere hash position positive below first second firstHere secondHere
    have here := sameCommitted_at sha one other oneLinked otherLinked oneRegular otherRegular
      injective top left right leftHere rightHere hash
    rcases Nat.lt_or_eq_of_le below with before | rfl
    · obtain ⟨leftInside, rfl⟩ := List.getElem?_eq_some_iff.mp leftHere
      obtain ⟨rightInside, rfl⟩ := List.getElem?_eq_some_iff.mp rightHere
      obtain ⟨leftPrev, -⟩ := List.isChain_iff_getElem.mp oneLinked top leftInside
      obtain ⟨rightPrev, -⟩ := List.isChain_iff_getElem.mp otherLinked top rightInside
      exact ih _ _ (List.getElem?_eq_getElem (by omega)) (List.getElem?_eq_getElem (by omega))
        (leftPrev.symm.trans (here.prevHash.trans rightPrev)) position positive (by omega) first
        second firstHere secondHere
    · rw [leftHere] at firstHere
      rw [rightHere] at secondHere
      obtain rfl := Option.some.inj firstHere
      obtain rfl := Option.some.inj secondHere
      exact here

/-- Two valid histories of one length with one tip hash agree, after the first
block, in all that is hashed and in the hashes. The proof goes back from the
tip: equal hashes have equal texts, which contain the hash before. -/
theorem tip_commits (sha : Sha256) (one other : Blockchain) (length : one.length = other.length)
    (oneValid : chainValidate sha one = true) (otherValid : chainValidate sha other = true)
    (oneRegular : RegularHistory one) (otherRegular : RegularHistory other)
    (injective : Set.InjOn sha (hashedTexts one ∪ hashedTexts other))
    (tip : one.getLast?.map Block.hash = other.getLast?.map Block.hash) :
    ∀ (position : Nat) (left right : Block), 1 ≤ position → one[position]? = some left →
      other[position]? = some right → SameCommitted left right := by
  intro position left right positive leftHere rightHere
  rw [chainValidate_iff] at oneValid otherValid
  obtain ⟨inside, -⟩ := List.getElem?_eq_some_iff.mp leftHere
  obtain ⟨oneTip, oneLast⟩ : ∃ block, one[one.length - 1]? = some block :=
    ⟨_, List.getElem?_eq_getElem (by omega)⟩
  obtain ⟨otherTip, otherLast⟩ : ∃ block, other[one.length - 1]? = some block :=
    ⟨_, List.getElem?_eq_getElem (by omega)⟩
  rw [List.getLast?_eq_getElem?, List.getLast?_eq_getElem?, ← length, oneLast, otherLast] at tip
  exact sameCommitted_below sha one other oneValid otherValid oneRegular otherRegular injective
    (one.length - 1) oneTip otherTip oneLast otherLast (Option.some.inj tip) position positive (by omega) left
    right leftHere rightHere

/-- A block with one transaction and a timestamp of ten digits. -/
def datedBlock : Block :=
  { fillBlock Sha2.sha256 [genesisBlock] [] (stubWallet 0).address
      (blockAfter genesisBlock 1000001193) with
    hash := CText.ofBytes (ascii "00261f99a42a0a8bbdac192ab29184207a66503eed60b7b8f47b6a30ca8fdf32") }

/-- The same block with another amount, which the stored transaction hash does
not show. -/
def redatedBlock : Block :=
  { datedBlock with
    transactions := fillSlots [{ coinbaseTx Sha2.sha256 (stubWallet 0).address [] with amount := 7 }] }

/-- A block that continues either of them. -/
def followingBlock : Block :=
  { fillBlock Sha2.sha256 [genesisBlock, datedBlock] [] (stubWallet 0).address
      (blockAfter datedBlock 1000002220) with
    hash := CText.ofBytes (ascii "003e647c867c16199cea9c6010bde9eb249487edf7828c84bde494b0ba89fd1a") }

/-- The same block with the other amount. -/
def refollowingBlock : Block :=
  { followingBlock with
    transactions := fillSlots [{ coinbaseTx Sha2.sha256 (stubWallet 0).address [] with amount := 7 }] }

/-- The two histories have the same tip hash, which reaches back to the block
before the tip. They differ in amounts, which are not hashed. -/
theorem tip_commits_here : SameCommitted datedBlock redatedBlock ∧ SameCommitted followingBlock refollowingBlock := by
  have regular (block : Block) (dated : block.timestamp.toInt / 10 ^ 9 = 1) (prev : block.prevHash.bytes.length = 64)
      (count : block.CountInRange) (hashes : ∀ tx ∈ block.listed, tx.txHash.bytes.length = 64) : block.Regular :=
    ⟨by omega, prev, count, hashes⟩
  have history (first second : Block) (one : first.index.toNat = 1) (two : second.index.toNat = 2)
      (both : first.Regular ∧ second.Regular) : RegularHistory [genesisBlock, first, second] := by
    intro position block positive here
    rcases position with _ | _ | _ | position
    · omega
    · obtain rfl : first = block := by simpa using here
      exact ⟨one, both.1⟩
    · obtain rfl : second = block := by simpa using here
      exact ⟨two, both.2⟩
    · simp at here
  have sameTexts : blockHashInput redatedBlock = blockHashInput datedBlock ∧
      blockHashInput refollowingBlock = blockHashInput followingBlock := by decide +kernel
  have texts : ∀ text ∈ hashedTexts [genesisBlock, datedBlock, followingBlock] ∪
      hashedTexts [genesisBlock, redatedBlock, refollowingBlock],
      text = blockHashInput datedBlock ∨ text = blockHashInput followingBlock := by
    rintro text (⟨block, member, rfl⟩ | ⟨block, member, rfl⟩)
    · simp only [List.tail_cons, List.mem_cons, List.not_mem_nil, or_false] at member
      rcases member with rfl | rfl <;> simp
    · simp only [List.tail_cons, List.mem_cons, List.not_mem_nil, or_false] at member
      rcases member with rfl | rfl
      · exact Or.inl sameTexts.1
      · exact Or.inr sameTexts.2
  have differ : Sha2.sha256 (blockHashInput datedBlock) ≠ Sha2.sha256 (blockHashInput followingBlock) := by
    decide +kernel
  have commits := tip_commits Sha2.sha256 [genesisBlock, datedBlock, followingBlock]
    [genesisBlock, redatedBlock, refollowingBlock] rfl (by decide +kernel) (by decide +kernel)
    (history _ _ (by decide +kernel) (by decide +kernel)
      ⟨regular _ (by decide +kernel) (by decide +kernel) (by decide +kernel) (by decide +kernel),
        regular _ (by decide +kernel) (by decide +kernel) (by decide +kernel) (by decide +kernel)⟩)
    (history _ _ (by decide +kernel) (by decide +kernel)
      ⟨regular _ (by decide +kernel) (by decide +kernel) (by decide +kernel) (by decide +kernel),
        regular _ (by decide +kernel) (by decide +kernel) (by decide +kernel) (by decide +kernel)⟩)
    ?_ (by decide +kernel)
  · exact ⟨commits 1 datedBlock redatedBlock (by decide) rfl rfl,
      commits 2 followingBlock refollowingBlock (by decide) rfl rfl⟩
  · intro left leftIn right rightIn same
    rcases texts left leftIn with rfl | rfl <;> rcases texts right rightIn with rfl | rfl
    · rfl
    · exact absurd same differ
    · exact absurd same.symm differ
    · rfl

end MiniCoin
