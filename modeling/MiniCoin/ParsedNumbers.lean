import Mathlib.Data.List.GetD
import MiniCoin.ParsedBlocks

/-!
# Numbers that are read

`json_get_uint64` and `json_get_int` hand the text behind a key to `strtoull` and `strtol` and
cast the result. They never fail once the key is found, so a text that is no number is read as 0,
a sign is applied, and what is too large saturates or is cut. A number is read as it was written
exactly if it is a plain decimal that fits its field.
-/

namespace MiniCoin

open ByteStrings

/-! ## Plain decimals -/

/-- A number ends at the end of the text, or at a comma, a closing bracket or a
blank. -/
def endsNumber (text : List UInt8) : Bool :=
  text.head?.all fun c => c == 44 || c == 93 || c == 125 || isSpace c

/-- The number that a text starts with, if it is digits and nothing else. -/
def plainNumber (text : List UInt8) : Option Nat :=
  let number := text.dropWhile isSpace
  if number.takeWhile isDigit ≠ [] ∧ endsNumber (number.dropWhile isDigit) then
    some (readDigits number)
  else none

/-- Digits have no sign in front. -/
theorem readSign_plain (text : List UInt8) (n : Nat) (plain : plainNumber text = some n) :
    readSign (text.dropWhile isSpace) = (false, text.dropWhile isSpace) ∧
      readDigits (text.dropWhile isSpace) = n := by
  unfold plainNumber at plain
  generalize text.dropWhile isSpace = number at plain ⊢
  dsimp only at plain
  split at plain
  · next both =>
    refine ⟨?_, Option.some.inj plain⟩
    have starts : ∀ c ∈ number.head?, isDigit c = true := by
      intro c first
      cases number with
      | nil => cases first
      | cons d rest =>
        obtain rfl : d = c := by simpa using first
        by_contra other
        exact both.1 (by simp [other])
    have solid := readSign_digits number starts
    cases number with
    | nil => rfl
    | cons c rest =>
      have noSpace := isSpace_of_isDigit c (starts c rfl)
      rwa [List.dropWhile_cons_of_neg (by simp [noSpace])] at solid
  · cases plain

/-- `strtoull` on a plain decimal. -/
theorem strtoull_plain (text : List UInt8) (n : Nat) (plain : plainNumber text = some n) :
    (strtoull text).toNat = min n (2 ^ 64 - 1) := by
  obtain ⟨sign, digits⟩ := readSign_plain text n plain
  simp only [strtoull, sign, digits, Bool.false_eq_true, if_false]
  split
  · next large =>
    rw [UInt64.toNat_ofNat']
    omega
  · next small =>
    rw [UInt64.toNat_ofNat']
    omega

/-- `strtol` on a plain decimal. -/
theorem strtol_plain (text : List UInt8) (n : Nat) (plain : plainNumber text = some n) :
    (strtol text).toInt = min (n : Int) (2 ^ 63 - 1) := by
  obtain ⟨sign, digits⟩ := readSign_plain text n plain
  simp only [strtol, sign, digits, Bool.false_eq_true, if_false]
  rw [Int64.toInt_ofInt_of_le (by omega) (by omega)]
  omega

/-- A 64-bit field holds the number that was written exactly if it fits. -/
theorem strtoull_exact_iff (text : List UInt8) (n : Nat) (plain : plainNumber text = some n) :
    (strtoull text).toNat = n ↔ n < 2 ^ 64 := by
  rw [strtoull_plain text n plain]
  omega

/-- Where the result is stored in 32 bits, it is exact below 2^32. -/
theorem strtoull_exact32_iff (text : List UInt8) (n : Nat) (plain : plainNumber text = some n) :
    (strtoull text).toUInt32.toNat = n ↔ n < 2 ^ 32 := by
  rw [UInt64.toNat_toUInt32, strtoull_plain text n plain]
  omega

/-- Where the result is stored as an `int`, it is exact below 2^31. -/
theorem strtol_exact_iff (text : List UInt8) (n : Nat) (plain : plainNumber text = some n) :
    (strtol text).toInt32.toInt = n ↔ n < 2 ^ 31 := by
  rw [Int64.toInt_toInt32, strtol_plain text n plain]
  simp only [Int.bmod]
  omega

/-- Blanks in front of a number do not matter. -/
theorem plainNumber_blanks (text : List UInt8) :
    plainNumber (text.dropWhile JsonText.isBlank) = plainNumber text := by
  have space (c : UInt8) (blank : JsonText.isBlank c = true) : isSpace c = true := by
    simp only [JsonText.isBlank, Bool.or_eq_true, beq_iff_eq] at blank
    rcases blank with ((rfl | rfl) | rfl) | rfl <;> rfl
  have same : (text.dropWhile JsonText.isBlank).dropWhile isSpace = text.dropWhile isSpace := by
    induction text with
    | nil => rfl
    | cons c rest ih =>
      by_cases blank : JsonText.isBlank c = true
      · rw [List.dropWhile_cons_of_pos blank, List.dropWhile_cons_of_pos (space c blank), ih]
      · rw [List.dropWhile_cons_of_neg blank]
  unfold plainNumber
  rw [same]

/-! ## Fields -/

/-- A type that numbers are read into: what a text is read as is below the
bound, and plain decimals below the bound are read as they are written. -/
structure Numeral where
  bound : Nat
  read : List UInt8 → Int
  below : ∀ text, read text < bound
  exact : ∀ text n, plainNumber text = some n → n < bound → read text = n

/-- `uint64_t`, by `strtoull`. -/
def Numeral.uint64 : Numeral where
  bound := 2 ^ 64
  read text := (strtoull text).toNat
  below text := by exact_mod_cast (strtoull text).toNat_lt
  exact text n plain fits := by rw [(strtoull_exact_iff text n plain).mpr fits]

/-- `uint32_t`, by `strtoull` and a cast. -/
def Numeral.uint32 : Numeral where
  bound := 2 ^ 32
  read text := (strtoull text).toUInt32.toNat
  below text := by exact_mod_cast (strtoull text).toUInt32.toNat_lt
  exact text n plain fits := by rw [(strtoull_exact32_iff text n plain).mpr fits]

/-- `int`, by `strtol` and a cast. -/
def Numeral.int32 : Numeral where
  bound := 2 ^ 31
  read text := (strtol text).toInt32.toInt
  below text := by exact_mod_cast (strtol text).toInt32.toInt_lt
  exact text n plain fits := (strtol_exact_iff text n plain).mpr fits

/-- The object has the field, as a plain decimal of this value. -/
def Written (object key : List UInt8) (value : Int) : Prop :=
  ∃ n, (JsonText.field key object).bind plainNumber = some n ∧ (n : Int) = value

/-- The field of the object is a plain decimal below the bound of the type. The
parser, which looks for the key anywhere in the text it was given, finds this
field, or what it finds instead is read as the same number. -/
def FitsField (numeral : Numeral) (object text key : List UInt8) : Prop :=
  ∃ own n, JsonText.field key object = some own ∧ plainNumber own = some n ∧ n < numeral.bound ∧
    ∀ found, jsonFindKey text key = some found →
      found.dropWhile JsonText.isBlank = own ∨ numeral.read found = n

/-- What is read behind a key is the number that the field was written with
exactly if the field fits and is the one that was read. -/
theorem written_iff (numeral : Numeral) (object : List UInt8) {text key found : List UInt8}
    (search : jsonFindKey text key = some found) :
    Written object key (numeral.read found) ↔ FitsField numeral object text key := by
  constructor
  · rintro ⟨n, plain, same⟩
    obtain ⟨own, field, plain⟩ := Option.bind_eq_some_iff.mp plain
    have below := numeral.below found
    refine ⟨own, n, field, plain, by omega, fun other again => ?_⟩
    obtain rfl := Option.some.inj (search.symm.trans again)
    exact Or.inr same.symm
  · rintro ⟨own, n, field, plain, fits, reads⟩
    refine ⟨n, by rw [field, Option.bind_some, plain], ?_⟩
    rcases reads found search with rfl | same
    · rw [plainNumber_blanks] at plain
      exact (numeral.exact found n plain fits).symm
    · exact same.symm

/-! ## Transactions -/

/-- The amount of a transaction that is read is the one that was written. -/
def TxNumbersKept (json : List UInt8) : Prop :=
  ∀ tx, protocolDeserializeTx json = (0, tx) → Written json (ascii "amount") tx.amount.toNat

/-- The amount of a transaction object, of which the parser was given this text.
Without the mandatory fields the record keeps its zero. -/
def AmountFits (object text : List UInt8) : Prop :=
  (HasTxFields text → FitsField .uint64 object text (ascii "amount")) ∧
    (¬ HasTxFields text → Written object (ascii "amount") 0)

/-- With the mandatory fields the amount is what `strtoull` makes of the text
behind the key. -/
theorem protocolDeserializeTx_amount (json : List UInt8) (fields : HasTxFields json) :
    ∃ found, jsonFindKey json (ascii "amount") = some found ∧
      (protocolDeserializeTx json).2.amount = strtoull found := by
  obtain ⟨hasSender, hasReceiver, hasAmount⟩ := fields
  obtain ⟨sender, senderRead⟩ := Option.isSome_iff_exists.mp hasSender
  obtain ⟨receiver, receiverRead⟩ := Option.isSome_iff_exists.mp hasReceiver
  obtain ⟨found, search⟩ := Option.isSome_iff_exists.mp hasAmount
  refine ⟨found, search, ?_⟩
  simp only [protocolDeserializeTx, jsonGetUint64, senderRead, receiverRead, search, Option.map_some]

/-- Without them it is zero. -/
theorem protocolDeserializeTx_noAmount (json : List UInt8) (missing : ¬ HasTxFields json) :
    (protocolDeserializeTx json).2.amount = 0 := by
  unfold protocolDeserializeTx jsonGetUint64
  unfold HasTxFields at missing
  cases sender : jsonGetString addrLen json (ascii "sender") with
  | none => rfl
  | some sender' =>
    cases receiver : jsonGetString addrLen json (ascii "receiver") with
    | none => rfl
    | some receiver' =>
      cases amount : jsonFindKey json (ascii "amount") with
      | none => rfl
      | some found => simp [sender, receiver, amount] at missing

/-- The amount that the parser stores is the one that the object has, exactly if
it fits. -/
theorem amountFits_iff (object text : List UInt8) :
    Written object (ascii "amount") (protocolDeserializeTx text).2.amount.toNat ↔
      AmountFits object text := by
  by_cases fields : HasTxFields text
  · obtain ⟨found, search, amount⟩ := protocolDeserializeTx_amount text fields
    have kept := written_iff .uint64 object search
    rw [amount, AmountFits]
    exact ⟨fun written => ⟨fun _ => kept.mp written, fun missing => absurd fields missing⟩,
      fun fits => kept.mpr (fits.1 fields)⟩
  · rw [protocolDeserializeTx_noAmount text fields, AmountFits]
    exact ⟨fun written => ⟨fun has => absurd has fields, fun _ => written⟩, fun fits => fits.2 fields⟩

/-- Of the numbers of a transaction, the amount is the only mandatory one. -/
theorem txNumbersKept_iff (json : List UInt8) :
    TxNumbersKept json ↔ (HasTxFields json → FitsField .uint64 json json (ascii "amount")) := by
  constructor
  · intro kept fields
    have read : protocolDeserializeTx json = (0, (protocolDeserializeTx json).2) :=
      Prod.ext ((protocolDeserializeTx_code json).mpr fields) rfl
    exact ((amountFits_iff json json).mp (kept _ read)).1 fields
  · intro fits tx read
    have fields := (protocolDeserializeTx_code json).mp (by rw [read])
    have written := (amountFits_iff json json).mpr ⟨fits, absurd fields⟩
    rwa [read] at written

/-! ## Blocks -/

/-- The numbers of a stored block are those that the object has: index, nonce
and count, and the amount of each transaction up to the count. -/
structure BlockNumbers (object : List UInt8) (block : Block) : Prop where
  index : Written object (ascii "index") block.index.toNat
  nonce : Written object (ascii "nonce") block.nonce.toNat
  count : Written object (ascii "tx_count") block.txCount.toInt
  amounts : ∀ (i : Nat) (tx : Tx), block.listed[i]? = some tx →
    ∃ own : List UInt8 × List UInt8, (transactionObjects object)[i]? = some own ∧
      Written own.1 (ascii "amount") tx.amount.toNat

/-- The numbers of a block that is read are those that were written. -/
def BlockNumbersKept (json : List UInt8) : Prop :=
  ∀ block, protocolDeserializeBlock json = some block → BlockNumbers json block

/-- Index, nonce and count fit their fields, and so do the amounts of as many
transaction objects as are counted and have a slot. The parser was given this
text for the block, and reads each transaction from the text that it cuts out in
its place. -/
structure BlockNumbersFit (object text : List UInt8) : Prop where
  index : FitsField .uint32 object text (ascii "index")
  nonce : FitsField .uint64 object text (ascii "nonce")
  count : FitsField .int32 object text (ascii "tx_count")
  amounts : ∀ txCount, jsonGetInt text (ascii "tx_count") = some txCount →
    ∀ i < min txCount.toInt.toNat maxTxPerBlock,
      ∃ own : List UInt8 × List UInt8, (transactionObjects object)[i]? = some own ∧
        AmountFits own.1 ((transactionTexts text txCount).getD i [])

/-- A transaction of a parsed block is what was made of the text in its
place. -/
theorem ParsedBlock.listed_getElem? {json : List UInt8} {block : Block} (parsed : ParsedBlock json block)
    (i : Nat) : block.listed[i]? = if i < min block.txCount.toInt.toNat maxTxPerBlock then
      some (protocolDeserializeTx ((transactionTexts json block.txCount).getD i [])).2 else none := by
  have zero : (protocolDeserializeTx []).2 = Tx.zero := by decide
  rw [Block.listed, parsed.transactions, List.getElem?_take, fillSlots_getElem?, Block.count, ← zero]
  by_cases counted : i < block.txCount.toInt.toNat
  · by_cases slot : i < maxTxPerBlock
    · rw [if_pos counted, if_pos slot, if_pos (by omega)]
      exact congrArg some (List.getD_map _ _ _)
    · rw [if_pos counted, if_neg slot, if_neg (by omega)]
  · rw [if_neg counted, if_neg (by omega)]

/-- For a block that was found, its numbers and the amounts of its
transactions. -/
theorem blockNumbers_iff (object text : List UInt8) (block : Block)
    (found : protocolDeserializeBlock text = some block) :
    BlockNumbers object block ↔ BlockNumbersFit object text := by
  have parsed := protocolDeserializeBlock_some text block found
  obtain ⟨index, indexRead, indexCast⟩ := Option.map_eq_some_iff.mp parsed.index
  obtain ⟨indexText, indexFound, indexValue⟩ := Option.map_eq_some_iff.mp indexRead
  obtain ⟨nonceText, nonceFound, nonceValue⟩ := Option.map_eq_some_iff.mp parsed.nonce
  obtain ⟨countText, countFound, countValue⟩ := Option.map_eq_some_iff.mp parsed.txCount
  have indexIff := written_iff .uint32 object indexFound
  have nonceIff := written_iff .uint64 object nonceFound
  have countIff := written_iff .int32 object countFound
  simp only [Numeral.uint32, Numeral.uint64, Numeral.int32, indexValue, indexCast, nonceValue,
    countValue] at indexIff nonceIff countIff
  constructor
  · rintro ⟨indexKept, nonceKept, countKept, amounts⟩
    refine ⟨indexIff.mp indexKept, nonceIff.mp nonceKept, countIff.mp countKept, fun txCount counted i slot => ?_⟩
    obtain rfl := Option.some.inj (parsed.txCount.symm.trans counted)
    obtain ⟨own, place, kept⟩ := amounts i _ (by rw [parsed.listed_getElem? i, if_pos slot])
    exact ⟨own, place, (amountFits_iff own.1 _).mp kept⟩
  · rintro ⟨indexFits, nonceFits, countFits, amounts⟩
    refine ⟨indexIff.mpr indexFits, nonceIff.mpr nonceFits, countIff.mpr countFits, fun i tx listed => ?_⟩
    rw [parsed.listed_getElem? i] at listed
    split_ifs at listed with slot
    obtain rfl := Option.some.inj listed
    obtain ⟨own, place, fits⟩ := amounts _ parsed.txCount i slot
    exact ⟨own, place, (amountFits_iff own.1 _).mpr fits⟩

/-- The same for the text of a block alone. -/
theorem blockNumbersKept_iff (json : List UInt8) :
    BlockNumbersKept json ↔ (HasBlockFields json → BlockNumbersFit json json) := by
  constructor
  · intro kept fields
    obtain ⟨block, found⟩ := protocolDeserializeBlock_isSome json fields
    exact (blockNumbers_iff json json block found).mp (kept block found)
  · intro fits block found
    exact (blockNumbers_iff json json block found).mpr
      (fits (protocolDeserializeBlock_some json block found).fields)

/-! ## Chains -/

/-- The objects of the blocks array of a text. -/
def blockObjects (json : List UInt8) : List (List UInt8 × List UInt8) :=
  JsonText.objects (ascii "blocks") json

/-- The length of a chain that is read is the one that was written, and the
numbers of its blocks are. -/
def ChainNumbersKept (json : List UInt8) : Prop :=
  ∀ chain, protocolDeserializeChain json = some chain →
    Written json (ascii "length") chain.length ∧
      ∀ (i : Nat) (block : Block), chain[i]? = some block →
        ∃ own : List UInt8 × List UInt8, (blockObjects json)[i]? = some own ∧ BlockNumbers own.1 block

/-- What makes `protocol_deserialize_chain` return 0: a length in range and an
array of blocks, of which those up to the length have their mandatory fields. -/
structure ChainFields (json : List UInt8) (length : Int32) (blocksStart : List UInt8) : Prop where
  counted : jsonGetInt json (ascii "length") = some length
  range : 0 < length.toInt ∧ length.toInt ≤ maxBlocks
  blocks : jsonFindKey json (ascii "blocks") = some (91 :: blocksStart)
  objects : ∀ object ∈ objectTexts length.toInt.toNat blocksStart, HasBlockFields object

/-- The length is a plain decimal and the parser cuts out as many texts, each in
the place of a block object whose numbers fit. -/
structure ChainNumbersFit (json : List UInt8) (length : Int32) (blocksStart : List UInt8) : Prop where
  counted : ∃ n, (JsonText.field (ascii "length") json).bind plainNumber = some n ∧
    (objectTexts length.toInt.toNat blocksStart).length = n
  blocks : ∀ (i : Nat) (text : List UInt8), (objectTexts length.toInt.toNat blocksStart)[i]? = some text →
    ∃ own : List UInt8 × List UInt8, (blockObjects json)[i]? = some own ∧ BlockNumbersFit own.1 text

/-- If all objects can be read, each gives one block. -/
theorem mapM_blocks_length {objects : List (List UInt8)} {blocks : List Block}
    (parsed : objects.mapM protocolDeserializeBlock = some blocks) :
    blocks.length = objects.length ∧ ∀ object ∈ objects, HasBlockFields object := by
  induction objects generalizing blocks with
  | nil =>
    obtain rfl : [] = blocks := Option.some.inj parsed
    simp
  | cons object rest ih =>
    simp only [List.mapM_cons, Option.bind_eq_bind, Option.bind_eq_some_iff, Option.pure_def,
      Option.some.injEq] at parsed
    obtain ⟨block, found, others, later, rfl⟩ := parsed
    obtain ⟨length, fields⟩ := ih later
    refine ⟨by simp [length], fun other member => ?_⟩
    rcases List.mem_cons.mp member with rfl | inRest
    · exact (protocolDeserializeBlock_some _ block found).fields
    · exact fields other inRest

/-- Objects with all mandatory fields can be read. -/
theorem mapM_blocks_some {objects : List (List UInt8)}
    (fields : ∀ object ∈ objects, HasBlockFields object) :
    ∃ blocks, objects.mapM protocolDeserializeBlock = some blocks := by
  induction objects with
  | nil => exact ⟨[], rfl⟩
  | cons object rest ih =>
    obtain ⟨block, found⟩ := protocolDeserializeBlock_isSome object (fields object (by simp))
    obtain ⟨others, later⟩ := ih fun other member => fields other (by simp [member])
    exact ⟨block :: others, by simp [found, later]⟩

/-- The blocks that were read, in the places of their texts. -/
theorem mapM_blocks_getElem? {objects : List (List UInt8)} {blocks : List Block}
    (parsed : objects.mapM protocolDeserializeBlock = some blocks) (i : Nat) :
    blocks[i]? = objects[i]?.bind protocolDeserializeBlock := by
  induction objects generalizing blocks i with
  | nil =>
    obtain rfl : [] = blocks := Option.some.inj parsed
    rfl
  | cons object rest ih =>
    simp only [List.mapM_cons, Option.bind_eq_bind, Option.bind_eq_some_iff, Option.pure_def,
      Option.some.injEq] at parsed
    obtain ⟨block, found, others, later, rfl⟩ := parsed
    cases i with
    | zero => simp [found]
    | succ i => simpa using ih later i

/-- A chain that is read has its mandatory fields, and its blocks are those of
the texts that were cut out. -/
theorem protocolDeserializeChain_some (json : List UInt8) (chain : Blockchain)
    (read : protocolDeserializeChain json = some chain) : ∃ length blocksStart,
      ChainFields json length blocksStart ∧
        (objectTexts length.toInt.toNat blocksStart).mapM protocolDeserializeBlock = some chain := by
  unfold protocolDeserializeChain at read
  cases found : jsonGetInt json (ascii "length") with
  | none => simp [found] at read
  | some length =>
    simp only [found] at read
    split at read
    · cases read
    · next range =>
      split at read
      · next blocksStart blocks =>
        rw [parseBlocks_eq] at read
        obtain ⟨-, fields⟩ := mapM_blocks_length read
        exact ⟨length, blocksStart, ⟨found, by omega, blocks, fields⟩, read⟩
      · cases read

/-- The mandatory fields of a chain, and of each of its blocks, are all that is
needed. -/
theorem protocolDeserializeChain_isSome (json : List UInt8) (length : Int32)
    (blocksStart : List UInt8) (fields : ChainFields json length blocksStart) :
    ∃ chain, protocolDeserializeChain json = some chain := by
  have range : ¬ (length.toInt ≤ 0 ∨ (maxBlocks : Int) < length.toInt) := by
    have inside := fields.range
    omega
  obtain ⟨blocks, parsed⟩ := mapM_blocks_some fields.objects
  refine ⟨blocks, ?_⟩
  simp only [protocolDeserializeChain, fields.counted, range, if_false, fields.blocks]
  rw [parseBlocks_eq, parsed]

/-- No more objects are cut than there are slots. -/
theorem objectTexts_length_le (slots : Nat) (text : List UInt8) :
    (objectTexts slots text).length ≤ slots := by
  induction slots generalizing text with
  | zero => exact le_rfl
  | succ slots ih =>
    rw [objectTexts]
    cases strchr 123 text with
    | none => exact Nat.zero_le _
    | some start => exact Nat.succ_le_succ (ih _)

/-- The numbers of a chain are those that the text has exactly if they fit,
block by block. -/
theorem chainNumbers_iff (json : List UInt8) (length : Int32) (blocksStart : List UInt8)
    (chain : Blockchain)
    (parsed : (objectTexts length.toInt.toNat blocksStart).mapM protocolDeserializeBlock = some chain) :
    (Written json (ascii "length") chain.length ∧ ∀ (i : Nat) (block : Block), chain[i]? = some block →
        ∃ own : List UInt8 × List UInt8, (blockObjects json)[i]? = some own ∧ BlockNumbers own.1 block) ↔
      ChainNumbersFit json length blocksStart := by
  obtain ⟨count, fields⟩ := mapM_blocks_length parsed
  have places := mapM_blocks_getElem? parsed
  constructor
  · rintro ⟨⟨n, plain, same⟩, kept⟩
    refine ⟨⟨n, plain, by omega⟩, fun i text place => ?_⟩
    obtain ⟨block, found⟩ := protocolDeserializeBlock_isSome text (fields text (List.mem_of_getElem? place))
    obtain ⟨own, object, numbers⟩ := kept i block (by rw [places, place, Option.bind_some, found])
    exact ⟨own, object, (blockNumbers_iff own.1 text block found).mp numbers⟩
  · rintro ⟨⟨n, plain, same⟩, fits⟩
    refine ⟨⟨n, plain, by omega⟩, fun i block place => ?_⟩
    rw [places] at place
    obtain ⟨text, cut, found⟩ := Option.bind_eq_some_iff.mp place
    obtain ⟨own, object, numbers⟩ := fits i text cut
    exact ⟨own, object, (blockNumbers_iff own.1 text block found).mpr numbers⟩

/-- The same for a chain, with the numbers of its blocks and of their
transactions. -/
theorem chainNumbersKept_iff (json : List UInt8) :
    ChainNumbersKept json ↔
      ∀ length blocksStart, ChainFields json length blocksStart → ChainNumbersFit json length blocksStart := by
  constructor
  · intro kept length blocksStart fields
    obtain ⟨chain, read⟩ := protocolDeserializeChain_isSome json length blocksStart fields
    obtain ⟨length', blocksStart', fields', parsed⟩ := protocolDeserializeChain_some json chain read
    have sameLength : length' = length :=
      Option.some.inj (fields'.counted.symm.trans fields.counted)
    have sameStart : 91 :: blocksStart' = 91 :: blocksStart :=
      Option.some.inj (fields'.blocks.symm.trans fields.blocks)
    obtain rfl := sameLength
    obtain rfl := (List.cons.inj sameStart).2
    exact (chainNumbers_iff json length' blocksStart' chain parsed).mp (kept chain read)
  · intro fits chain read
    obtain ⟨length, blocksStart, fields, parsed⟩ := protocolDeserializeChain_some json chain read
    exact (chainNumbers_iff json length blocksStart chain parsed).mpr (fits length blocksStart fields)

/-! ## All parsers -/

/-- A payment of -1. -/
def minusOneText : List UInt8 := ascii "\x7b\"sender\":\"a\",\"receiver\":\"b\",\"amount\":-1\x7d"

/-- The amount of another object comes first in the text, and is read
instead. -/
example :
    let json := ascii ("\x7b\"sender\":\"a\",\"receiver\":\"b\"," ++
      "\"memo\":\x7b\"amount\":5\x7d,\"amount\":7\x7d")
    (protocolDeserializeTx json).2.amount = 5 ∧
      (JsonText.field (ascii "amount") json).bind plainNumber = some 7 := by
  decide +kernel

end MiniCoin
