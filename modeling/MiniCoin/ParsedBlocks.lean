import MiniCoin.BlockCodec
import MiniCoin.JsonTexts

/-!
# What a parsed block contains

`protocol_deserialize_block` takes `tx_count` from one field and the transactions from another,
ignores whether a transaction could be read, and cuts the array into objects without regard to
strings. So a block that it returns is complete only if the text is: the count is in the range of
the array, the array lists as many objects with the mandatory fields of a transaction, and the
parser finds these: no brace in a string or in another value leads it away.
-/

namespace MiniCoin

open ByteStrings Nesting

/-! ## Objects of an array -/

/-- Text from an opening brace to the first place where as many braces have been
closed as opened, those in strings counted like the others. -/
def IsObject (object : List UInt8) : Prop :=
  ∃ inner, object = 123 :: (inner ++ [125]) ∧ Balanced braceWeight inner

/-- The objects follow each other: no other brace is opened before each of them,
and each ends where its braces balance. -/
inductive InTurn : List UInt8 → List (List UInt8 × List UInt8) → Prop
  | none (text : List UInt8) : InTurn text []
  | next {gap object behind : List UInt8} {objects : List (List UInt8 × List UInt8)} : 123 ∉ gap →
      IsObject object → InTurn behind objects →
        InTurn (gap ++ (object ++ behind)) ((object, behind) :: objects)

/-- What the parsers cut out of an array, with what follows each piece. -/
def cuts : Nat → List UInt8 → List (List UInt8 × List UInt8)
  | 0, _ => []
  | slots + 1, text =>
    match strchr 123 text with
    | none => []
    | some start => matchBraces 0 start :: cuts slots (matchBraces 0 start).2

/-- The texts that the parsers take for the first objects of an array. -/
def objectTexts : Nat → List UInt8 → List (List UInt8)
  | 0, _ => []
  | slots + 1, text =>
    match strchr 123 text with
    | none => []
    | some start => (matchBraces 0 start).1 :: objectTexts slots (matchBraces 0 start).2

/-- The loop cuts objects and reads each, whether it can be read or not. -/
theorem parseTransactions_eq (slots : Nat) (text : List UInt8) : parseTransactions slots text =
    (objectTexts slots text).map fun object => (protocolDeserializeTx object).2 := by
  induction slots generalizing text with
  | zero => rfl
  | succ slots ih =>
    rw [parseTransactions, objectTexts]
    cases strchr 123 text with
    | none => rfl
    | some start => simp only [List.map_cons, ih]

/-- The loop cuts objects and reads each, and stops with an error at the first
that it cannot read. -/
theorem parseBlocks_eq (slots : Nat) (text : List UInt8) :
    parseBlocks slots text = (objectTexts slots text).mapM protocolDeserializeBlock := by
  induction slots generalizing text with
  | zero => rfl
  | succ slots ih =>
    rw [parseBlocks, objectTexts]
    cases strchr 123 text with
    | none => rfl
    | some start =>
      simp only [List.mapM_cons, ih]
      cases protocolDeserializeBlock (matchBraces 0 start).1 with
      | none => rfl
      | some block => simp [Option.map_eq_bind]

theorem objectTexts_cuts (slots : Nat) (text : List UInt8) :
    objectTexts slots text = (cuts slots text).map Prod.fst := by
  induction slots generalizing text with
  | zero => rfl
  | succ slots ih =>
    rw [objectTexts, cuts]
    cases strchr 123 text with
    | none => rfl
    | some start => simp only [List.map_cons, ih]

/-- The parsers cut out objects that follow each other. -/
theorem cuts_inTurn {text : List UInt8} {objects : List (List UInt8 × List UInt8)}
    (turn : InTurn text objects) : cuts objects.length text = objects := by
  induction turn with
  | none => rfl
  | @next gap object behind objects noBrace isObject _ ih =>
    obtain ⟨inner, rfl, balanced⟩ := isObject
    have shape : 123 :: (inner ++ [125]) ++ behind = 123 :: (inner ++ 125 :: behind) := by simp
    rw [List.length_cons, cuts, strchr_skip 123 gap _ noBrace, shape, strchr_head]
    simp only [matchBraces_object inner behind balanced.1 balanced.2, ih]

/-- When something is left, counting braces from a positive depth has ended at a
closing brace. -/
theorem matchBraces_balanced {depth : Int} {text piece behind : List UInt8} (positive : 0 < depth)
    (cut : matchBraces depth text = (piece, behind)) (more : behind ≠ []) :
    ∃ inner, piece = inner ++ [125] ∧ Enclosed braceWeight depth inner ∧ depth + rise braceWeight inner = 1 := by
  induction text generalizing depth piece with
  | nil =>
    obtain ⟨-, rfl⟩ := Prod.mk.inj cut
    exact absurd rfl more
  | cons c rest ih =>
    rw [matchBraces_cons] at cut
    split_ifs at cut with goesOn
    · obtain ⟨rfl, same⟩ := Prod.mk.inj cut
      obtain ⟨inner, ended, enclosed, level⟩ := ih goesOn.1 (Prod.ext rfl same)
      refine ⟨c :: inner, ?_, ⟨goesOn.1, enclosed⟩, ?_⟩
      · exact congrArg (c :: ·) ended
      · rw [rise_cons]
        omega
    · obtain ⟨rfl, rfl⟩ := Prod.mk.inj cut
      have low : depth + braceWeight c ≤ 0 := by
        by_contra high
        exact goesOn ⟨by omega, more⟩
      have closing : c = 125 ∧ depth = 1 := by
        unfold braceWeight at low
        split_ifs at low with opens closes
        · omega
        · exact ⟨closes, by omega⟩
        · omega
      obtain ⟨rfl, rfl⟩ := closing
      exact ⟨[], rfl, trivial, by simp⟩

/-- From an opening brace the parsers cut out balanced text. -/
theorem matchBraces_isObject (rest : List UInt8) (more : (matchBraces 0 (123 :: rest)).2 ≠ []) :
    IsObject (matchBraces 0 (123 :: rest)).1 := by
  have weight : braceWeight 123 = 1 := by decide
  rw [matchBraces_cons, weight] at more ⊢
  split_ifs at more ⊢ with goesOn
  · obtain ⟨inner, ended, enclosed, level⟩ := matchBraces_balanced goesOn.1 rfl more
    exact ⟨inner, congrArg (123 :: ·) ended, enclosed, by omega⟩
  · exact absurd ⟨by omega, more⟩ goesOn

/-- What was cut out follows each other, if something follows each piece. -/
theorem inTurn_cuts (slots : Nat) (text : List UInt8) (more : ∀ cut ∈ cuts slots text, cut.2 ≠ []) :
    InTurn text (cuts slots text) := by
  induction slots generalizing text with
  | zero => exact .none text
  | succ slots ih =>
    rw [cuts] at more ⊢
    cases found : strchr 123 text with
    | none => exact .none text
    | some start =>
      simp only [found] at more
      obtain ⟨gap, rest, rfl, rfl, noBrace⟩ := strchr_split 123 text start found
      have isObject := matchBraces_isObject rest (more _ List.mem_cons_self)
      have later := ih (matchBraces 0 (123 :: rest)).2 fun cut member => more cut (List.mem_cons_of_mem _ member)
      have turn := InTurn.next noBrace isObject later
      rwa [matchBraces_split] at turn

/-! ## Mandatory fields -/

/-- The fields without which `protocol_deserialize_tx` returns -1. Fee,
signature and hash may be missing. -/
def HasTxFields (json : List UInt8) : Prop :=
  (jsonGetString addrLen json (ascii "sender")).isSome ∧
    (jsonGetString addrLen json (ascii "receiver")).isSome ∧
    (jsonFindKey json (ascii "amount")).isSome

/-- The parser of a transaction fails exactly when a mandatory field is
missing. -/
theorem protocolDeserializeTx_code (json : List UInt8) :
    (protocolDeserializeTx json).1 = 0 ↔ HasTxFields json := by
  unfold protocolDeserializeTx HasTxFields jsonGetUint64
  cases jsonGetString addrLen json (ascii "sender") with
  | none => simp
  | some sender =>
    cases jsonGetString addrLen json (ascii "receiver") with
    | none => simp
    | some receiver => cases jsonFindKey json (ascii "amount") <;> simp

/-- The fields without which `protocol_deserialize_block` returns -1. The array
of transactions is not among them. -/
structure HasBlockFields (json : List UInt8) : Prop where
  index : (jsonFindKey json (ascii "index")).isSome
  timestamp : (jsonFindKey json (ascii "timestamp")).isSome
  prevHash : (jsonGetString hashHexLen json (ascii "prev_hash")).isSome
  nonce : (jsonFindKey json (ascii "nonce")).isSome
  hash : (jsonGetString hashHexLen json (ascii "hash")).isSome
  txCount : (jsonFindKey json (ascii "tx_count")).isSome

/-- The texts that `protocol_deserialize_block` reads transactions from: what
its scan cuts out of the array, at most as many as it has slots. -/
def transactionTexts (json : List UInt8) (txCount : Int32) : List (List UInt8) :=
  match jsonFindKey json (ascii "transactions") with
  | some (91 :: txsStart) => objectTexts (min txCount.toInt.toNat maxTxPerBlock) txsStart
  | _ => []

/-- What a block that was parsed consists of: its numbers are those that were
read, and its slots are the objects that the scan has cut out, whether they are
complete or not. -/
structure ParsedBlock (json : List UInt8) (block : Block) : Prop where
  fields : HasBlockFields json
  index : (jsonGetUint64 json (ascii "index")).map UInt64.toUInt32 = some block.index
  nonce : jsonGetUint64 json (ascii "nonce") = some block.nonce
  txCount : jsonGetInt json (ascii "tx_count") = some block.txCount
  transactions : block.transactions = fillSlots
    ((transactionTexts json block.txCount).map fun object => (protocolDeserializeTx object).2)

/-- What a parsed block tells about its text. -/
theorem protocolDeserializeBlock_some (json : List UInt8) (block : Block)
    (parsed : protocolDeserializeBlock json = some block) : ParsedBlock json block := by
  simp only [protocolDeserializeBlock, Option.bind_eq_bind, Option.bind_eq_some_iff, Option.pure_def,
    Option.some.injEq] at parsed
  obtain ⟨index, indexRead, timestamp, timestampRead, prevHash, prevHashRead, nonce, nonceRead, hash,
    hashRead, txCount, txCountRead, rfl⟩ := parsed
  have present {α : Type} {read : List UInt8 → α} {found : Option (List UInt8)} {value : α}
      (some : found.map read = Option.some value) : found.isSome := by
    cases found with
    | none => cases some
    | some text => rfl
  exact {
    fields := ⟨present indexRead, present timestampRead, by rw [prevHashRead]; rfl, present nonceRead,
      by rw [hashRead]; rfl, present txCountRead⟩
    index := by rw [indexRead]; rfl
    nonce := nonceRead
    txCount := txCountRead
    transactions := by
      apply congrArg fillSlots
      unfold transactionTexts
      generalize jsonFindKey json (ascii "transactions") = found
      cases found with
      | none => rfl
      | some text =>
        cases text with
        | nil => rfl
        | cons c rest =>
          by_cases bracket : c = 91
          · subst bracket
            exact parseTransactions_eq _ _
          · simp [bracket] }

/-- The mandatory fields are all that is needed. The array may be missing or
damaged. -/
theorem protocolDeserializeBlock_isSome (json : List UInt8) (fields : HasBlockFields json) :
    ∃ block, protocolDeserializeBlock json = some block := by
  obtain ⟨index, indexRead⟩ := Option.isSome_iff_exists.mp fields.index
  obtain ⟨timestamp, timestampRead⟩ := Option.isSome_iff_exists.mp fields.timestamp
  obtain ⟨prevHash, prevHashRead⟩ := Option.isSome_iff_exists.mp fields.prevHash
  obtain ⟨nonce, nonceRead⟩ := Option.isSome_iff_exists.mp fields.nonce
  obtain ⟨hash, hashRead⟩ := Option.isSome_iff_exists.mp fields.hash
  obtain ⟨txCount, txCountRead⟩ := Option.isSome_iff_exists.mp fields.txCount
  simp only [protocolDeserializeBlock, jsonGetUint64, jsonGetInt, indexRead, timestampRead,
    prevHashRead, nonceRead, hashRead, txCountRead, Option.bind_eq_bind, Option.map_some,
    Option.bind_some]
  exact ⟨_, rfl⟩

/-- What `protocol_deserialize_tx` is called on, with what follows in the
text. -/
def transactionCuts (json : List UInt8) (txCount : Int32) : List (List UInt8 × List UInt8) :=
  match jsonFindKey json (ascii "transactions") with
  | some (91 :: txsStart) => cuts (min txCount.toInt.toNat maxTxPerBlock) txsStart
  | _ => []

theorem transactionTexts_cuts (json : List UInt8) (txCount : Int32) :
    transactionTexts json txCount = (transactionCuts json txCount).map Prod.fst := by
  unfold transactionTexts transactionCuts
  split
  · exact objectTexts_cuts _ _
  · rfl

/-! ## Complete blocks -/

/-- The objects of the transactions array of a text. -/
def transactionObjects (json : List UInt8) : List (List UInt8 × List UInt8) :=
  JsonText.objects (ascii "transactions") json

/-- The count is in range, the calls of `protocol_deserialize_tx` are for the
first objects of the transactions array, one for each transaction, and each
returned 0 with its transaction. -/
structure CompleteBlock (json : List UInt8) (block : Block) : Prop where
  range : block.CountInRange
  calls : transactionCuts json block.txCount = (transactionObjects json).take block.count
  reads : ((transactionObjects json).take block.count).map (fun object => protocolDeserializeTx object.1) =
    block.listed.map fun tx => (0, tx)

/-- The parser, which starts at the first place that looks like the name of the
array, comes upon the objects in turn. -/
def Found (json : List UInt8) (objects : List (List UInt8 × List UInt8)) : Prop :=
  objects = [] ∨ ∃ txsStart, jsonFindKey json (ascii "transactions") = some (91 :: txsStart) ∧
    InTurn txsStart objects

/-- The count in the text is in range, and the transactions array has as many
objects, with their mandatory fields and where the parser finds them. -/
def ListsAsCounted (json : List UInt8) : Prop :=
  ∀ txCount, jsonGetInt json (ascii "tx_count") = some txCount →
    (0 ≤ txCount.toInt ∧ txCount.toInt ≤ maxTxPerBlock) ∧
      ∃ objects, objects <+: transactionObjects json ∧ (objects.length : Int) = txCount.toInt ∧
        (∀ object ∈ objects, HasTxFields object.1) ∧ Found json objects

/-- Objects that the parser comes upon are those that it reads. -/
theorem transactionCuts_found {json : List UInt8} {txCount : Int32} {objects : List (List UInt8 × List UInt8)}
    (found : Found json objects) (length : (objects.length : Int) = txCount.toInt)
    (fits : txCount.toInt ≤ maxTxPerBlock) : transactionCuts json txCount = objects := by
  have slots : min txCount.toInt.toNat maxTxPerBlock = objects.length := by
    simp only [maxTxPerBlock] at fits ⊢
    omega
  unfold transactionCuts
  rcases found with rfl | ⟨txsStart, place, turn⟩
  · rw [slots]
    split <;> rfl
  · rw [place, slots]
    exact cuts_inTurn turn

/-- What the parser reads it has come upon, where something follows each
object. -/
theorem found_transactionCuts {json : List UInt8} {txCount : Int32}
    (more : ∀ cut ∈ transactionCuts json txCount, cut.2 ≠ []) : Found json (transactionCuts json txCount) := by
  unfold transactionCuts at more ⊢
  split at more
  · next txsStart place => exact Or.inr ⟨txsStart, place, inTurn_cuts _ _ more⟩
  · exact Or.inl rfl

/-- The listed transactions of a parsed block are those of the texts that were
cut out. -/
theorem ParsedBlock.listed_eq {json : List UInt8} {block : Block} (parsed : ParsedBlock json block)
    (all : (transactionTexts json block.txCount).length = block.count) (range : block.CountInRange) :
    block.listed = (transactionTexts json block.txCount).map fun object => (protocolDeserializeTx object).2 := by
  have upper : block.txCount.toInt ≤ maxTxPerBlock := range.2
  have count : block.count = ((transactionTexts json block.txCount).map fun object =>
      (protocolDeserializeTx object).2).length := by
    rw [List.length_map, all]
  rw [Block.listed, parsed.transactions, count]
  apply fillSlots_take
  rw [← count, Block.count]
  simp only [maxTxPerBlock] at upper ⊢
  omega

/-- A text that is parsed gives a complete block exactly if its transactions
array has as many objects as it counts, where the parser finds them. -/
theorem parsedBlock_complete_iff (json : List UInt8) :
    (∀ block, protocolDeserializeBlock json = some block → CompleteBlock json block) ↔
      (HasBlockFields json → ListsAsCounted json) := by
  constructor
  · intro complete fields txCount counted
    obtain ⟨block, parsed⟩ := protocolDeserializeBlock_isSome json fields
    have same : block.txCount = txCount := by
      have read := (protocolDeserializeBlock_some json block parsed).txCount
      rw [counted] at read
      exact (Option.some.inj read).symm
    obtain ⟨range, calls, reads⟩ := complete block parsed
    have lengths := congrArg List.length reads
    rw [List.length_map, List.length_map] at lengths
    have listed := block.listed_length range
    have initial := List.take_prefix block.count (transactionObjects json)
    rw [same] at listed calls
    refine ⟨same ▸ range, _, initial, by omega, fun object member => ?_, ?_⟩
    · rw [← protocolDeserializeTx_code]
      have inReads : protocolDeserializeTx object.1 ∈ block.listed.map fun tx => ((0 : Int), tx) :=
        reads ▸ List.mem_map_of_mem member
      obtain ⟨tx, -, read⟩ := List.mem_map.mp inReads
      rw [← read]
    · rw [← calls]
      refine found_transactionCuts fun cut member => ?_
      rw [calls] at member
      exact JsonText.objects_behind _ _ cut (initial.subset member)
  · intro condition block read
    have parsed := protocolDeserializeBlock_some json block read
    obtain ⟨range, objects, first, length, fields, found⟩ := condition parsed.fields _ parsed.txCount
    have cut := transactionCuts_found found length range.2
    have count : objects.length = block.count := by
      rw [Block.count]
      omega
    have taken : (transactionObjects json).take block.count = objects := by
      rw [← count]
      exact (List.prefix_iff_eq_take.mp first).symm
    have texts : transactionTexts json block.txCount = objects.map Prod.fst := by
      rw [transactionTexts_cuts, cut]
    refine ⟨range, by rw [cut, taken], ?_⟩
    rw [taken, parsed.listed_eq (by rw [texts, List.length_map, count]) range, texts, List.map_map, List.map_map]
    apply List.map_congr_left
    intro object member
    have code := (protocolDeserializeTx_code object.1).mpr (fields object member)
    exact Prod.ext code rfl

/-- A block that counts eleven transactions and lists none. -/
def countsElevenText : List UInt8 := ascii
  "\x7b\"index\":1,\"timestamp\":1,\"prev_hash\":\"\",\"nonce\":0,\"hash\":\"\",\"tx_count\":11,\"transactions\":[]\x7d"

/-- This block is accepted by the parser, though it counts what it does not
list. -/
theorem parsedBlock_incomplete : ∃ block, protocolDeserializeBlock countsElevenText = some block ∧
    block.txCount = 11 ∧ ¬ CompleteBlock countsElevenText block := by
  have count : (protocolDeserializeBlock countsElevenText).map Block.txCount = some 11 := by
    decide +kernel
  obtain ⟨block, parsed, eleven⟩ := Option.map_eq_some_iff.mp count
  refine ⟨block, parsed, eleven, fun complete => ?_⟩
  have bounds : block.txCount.toInt ≤ maxTxPerBlock := complete.range.2
  rw [eleven] at bounds
  exact absurd bounds (by decide)

/-- A brace in a string ends the first object for the parser, which then takes
an inner object for the second one. The array has one object. -/
example :
    let json := ascii ("\x7b\"tx_count\":2,\"transactions\":[\x7b\"note\":\"\x7d\",\"inner\":" ++
      "\x7b\"sender\":\"c\"\x7d\x7d]\x7d")
    (transactionTexts json 2).length = 2 ∧ (transactionObjects json).length = 1 := by
  decide +kernel

end MiniCoin
