import MiniCoin.Nesting
import MiniCoin.TxCodec

/-!
# Blocks as text

`protocol_deserialize_block` finds the transaction objects by counting braces in the raw
text, whether they stand inside strings or not. So the braces in the text fields of a
transaction matter: every object but the last has to be balanced, and no object may
close more braces than it has opened. Under this condition a block is read back from its
text, up to the unused transaction slots.
-/

namespace MiniCoin

open ByteStrings QuotedText Nesting

/-! ## Braces -/

/-- How `protocol_deserialize_block` counts a byte. It looks at braces only, and
also at those inside strings. -/
def braceWeight (c : UInt8) : Int := if c = 123 then 1 else if c = 125 then -1 else 0

/-- One byte of the matching loop, by its weight. -/
theorem matchBraces_cons (depth : Int) (c : UInt8) (rest : List UInt8) :
    matchBraces depth (c :: rest) =
      if 0 < depth + braceWeight c ∧ rest ≠ [] then
        (c :: (matchBraces (depth + braceWeight c) rest).1,
          (matchBraces (depth + braceWeight c) rest).2)
      else ([c], rest) := by
  have step : (if c = 123 then depth + 1 else if c = 125 then depth - 1 else depth) =
      depth + braceWeight c := by
    unfold braceWeight
    split_ifs <;> omega
  rw [matchBraces]
  simp only [step]

/-- The scan cuts the text in two and loses nothing. -/
theorem matchBraces_split (depth : Int) (text : List UInt8) :
    (matchBraces depth text).1 ++ (matchBraces depth text).2 = text := by
  induction text generalizing depth with
  | nil => rfl
  | cons c rest ih =>
    rw [matchBraces_cons]
    split
    · simpa using ih _
    · rfl

/-- Enclosed text belongs to the object. -/
theorem matchBraces_enclosed (depth : Int) (text rest : List UInt8)
    (enclosed : Enclosed braceWeight depth text) (nonempty : rest ≠ []) :
    matchBraces depth (text ++ rest) =
      (text ++ (matchBraces (depth + rise braceWeight text) rest).1,
        (matchBraces (depth + rise braceWeight text) rest).2) := by
  induction text generalizing depth with
  | nil => simp
  | cons c tail ih =>
    rw [List.cons_append, matchBraces_cons, if_pos ⟨enclosed.1, by simp [nonempty]⟩,
      ih _ enclosed.2, rise_cons, add_assoc]
    rfl

/-- The brace that brings the depth to zero ends the object. -/
theorem matchBraces_close (rest : List UInt8) : matchBraces 1 (125 :: rest) = ([125], rest) := by
  simp [matchBraces]

/-- A balanced object is found whole. -/
theorem matchBraces_object (inner rest : List UInt8) (enclosed : Enclosed braceWeight 1 inner)
    (balanced : rise braceWeight inner = 0) :
    matchBraces 0 (123 :: (inner ++ 125 :: rest)) = (123 :: (inner ++ [125]), rest) := by
  have opened : Enclosed braceWeight 0 (123 :: inner) := ⟨by decide, enclosed⟩
  have one : 0 + rise braceWeight (123 :: inner) = 1 := by
    rw [rise_cons, balanced]
    rfl
  rw [← List.cons_append, matchBraces_enclosed 0 _ _ opened (by simp), one, matchBraces_close]
  simp

/-- An object that leaves braces open is found with some of what follows it. -/
theorem matchBraces_open (inner rest : List UInt8) (enclosed : Enclosed braceWeight 1 inner) :
    ∃ extra left, rest = extra ++ left ∧
      matchBraces 0 (123 :: (inner ++ 125 :: rest)) = (123 :: (inner ++ 125 :: extra), left) := by
  have opened : Enclosed braceWeight 0 (123 :: inner) := ⟨by decide, enclosed⟩
  have whole := matchBraces_enclosed 0 (123 :: inner) (125 :: rest) opened (by simp)
  generalize 0 + rise braceWeight (123 :: inner) = depth at whole
  have split := matchBraces_split depth (125 :: rest)
  have first : ∃ extra, (matchBraces depth (125 :: rest)).1 = 125 :: extra := by
    rw [matchBraces_cons]
    split
    · exact ⟨_, rfl⟩
    · exact ⟨[], rfl⟩
  obtain ⟨extra, first⟩ := first
  rw [first, List.cons_append] at split
  refine ⟨extra, _, (List.cons.inj split).2.symm, ?_⟩
  rw [← List.cons_append, whole, first]
  simp

/-! ## Transaction objects -/

/-- The text fields of a transaction, in the order in which they are written. -/
def Tx.texts (tx : Tx) : List UInt8 :=
  tx.sender.bytes ++ tx.receiver.bytes ++ tx.signature.bytes ++ tx.txHash.bytes

/-- What stands between the braces of a transaction object. -/
def txInner (tx : Tx) : List UInt8 := render (innerPieces tx)

/-- The object of a transaction is its inner text between two braces. -/
theorem render_txPieces (tx : Tx) (pieces : List Piece) :
    render (txPieces tx ++ pieces) = 123 :: (txInner tx ++ 125 :: render pieces) := by
  simp [txPieces_eq, txInner]

/-- A number has no braces. -/
theorem flat_digits (n : Nat) : Flat braceWeight (decimal n) := by
  intro c member
  have digit := decimal_digits n c member
  simp only [isDigit, Bool.and_eq_true, decide_eq_true_eq] at digit
  unfold braceWeight
  rw [if_neg, if_neg] <;> rintro rfl <;> simp at digit

/-- Escaping adds no brace. -/
theorem brackets_escape (text : List UInt8) :
    brackets braceWeight (escape text) = brackets braceWeight text := by
  induction text with
  | nil => rfl
  | cons c rest ih =>
    have head : brackets braceWeight (if c = 34 ∨ c = 92 then [92, c] else [c]) =
        brackets braceWeight [c] := by
      split
      · next special => rcases special with rfl | rfl <;> rfl
      · rfl
    rw [escape_cons, brackets_append, head, ih, ← brackets_append]
    rfl

/-- The braces of an object are those of its text fields. -/
theorem brackets_txInner (tx : Tx) :
    brackets braceWeight (txInner tx) = brackets braceWeight tx.texts := by
  have amount := brackets_flat braceWeight _ (flat_digits tx.amount.toNat)
  have fee := brackets_flat braceWeight _ (flat_digits tx.fee.toNat)
  have p1 : brackets braceWeight (34 :: (ascii "sender" ++ [34, 58, 34])) = [] := by decide
  have p2 : brackets braceWeight (34 :: 44 :: 34 :: (ascii "receiver" ++ [34, 58, 34])) = [] := by
    decide
  have p3 : brackets braceWeight (34 :: 44 :: 34 :: (ascii "amount" ++ [34, 58])) = [] := by decide
  have p4 : brackets braceWeight (44 :: 34 :: (ascii "fee" ++ [34, 58])) = [] := by decide
  have p5 : brackets braceWeight (44 :: 34 :: (ascii "signature" ++ [34, 58, 34])) = [] := by decide
  have p6 : brackets braceWeight (34 :: 44 :: 34 :: (ascii "tx_hash" ++ [34, 58, 34])) = [] := by
    decide
  have p7 : brackets braceWeight [34] = [] := by decide
  have shape : txInner tx = 34 :: (ascii "sender" ++ [34, 58, 34]) ++ escape tx.sender.bytes ++
      34 :: 44 :: 34 :: (ascii "receiver" ++ [34, 58, 34]) ++ escape tx.receiver.bytes ++
      34 :: 44 :: 34 :: (ascii "amount" ++ [34, 58]) ++ decimal tx.amount.toNat ++
      44 :: 34 :: (ascii "fee" ++ [34, 58]) ++ decimal tx.fee.toNat ++
      44 :: 34 :: (ascii "signature" ++ [34, 58, 34]) ++ escape tx.signature.bytes ++
      34 :: 44 :: 34 :: (ascii "tx_hash" ++ [34, 58, 34]) ++ escape tx.txHash.bytes ++ [34] := by
    simp [txInner, innerPieces, txFields, Field.pieces]
  rw [shape]
  simp only [brackets_append, p1, p2, p3, p4, p5, p6, p7, amount, fee, brackets_escape, Tx.texts,
    List.nil_append, List.append_nil]

/-- Only the text fields can bring the count of braces down, as keys and numbers
are flat. -/
theorem enclosed_txInner (tx : Tx) :
    Enclosed braceWeight 1 (txInner tx) ↔ Enclosed braceWeight 1 tx.texts := by
  rw [← enclosed_brackets braceWeight 1 one_pos, brackets_txInner,
    enclosed_brackets braceWeight 1 one_pos]

/-- And only they can raise it. -/
theorem rise_txInner (tx : Tx) : rise braceWeight (txInner tx) = rise braceWeight tx.texts := by
  rw [← rise_brackets, brackets_txInner, rise_brackets]

/-! ## Lists of transactions -/

/-- No object closes more braces than it has opened, and only the last one may
leave some open. -/
def BracesMatch : List Tx → Prop
  | [] => True
  | [last] => Enclosed braceWeight 1 last.texts
  | tx :: rest => (Enclosed braceWeight 1 tx.texts ∧ rise braceWeight tx.texts = 0) ∧ BracesMatch rest

/-- Transaction objects with commas between them, and before them if one is
due. -/
def txsPieces : Bool → List Tx → List Piece
  | _, [] => []
  | comma, tx :: rest => (if comma then [.plain [44]] else []) ++ txPieces tx ++ txsPieces true rest

/-- The pieces of a transaction are well formed in front of such pieces. -/
theorem wellFormed_txPieces (tx : Tx) (pieces : List Piece) (formed : WellFormed pieces) :
    WellFormed (txPieces tx ++ pieces) := by
  refine ⟨by decide, ?_⟩
  exact wellFormed_fields _ _ (txFields_valid tx) formed

/-- So are those of all transactions, by induction on the list. -/
theorem wellFormed_txsPieces (comma : Bool) (txs : List Tx) (pieces : List Piece)
    (formed : WellFormed pieces) : WellFormed (txsPieces comma txs ++ pieces) := by
  induction txs generalizing comma with
  | nil => exact formed
  | cons tx rest ih =>
    have object := wellFormed_txPieces tx _ (ih true)
    cases comma with
    | false => simpa [txsPieces] using object
    | true =>
      have led : WellFormed (.plain [44] :: (txPieces tx ++ (txsPieces true rest ++ pieces))) :=
        ⟨by decide, object⟩
      simpa [txsPieces] using led

/-- The search for the next object stops at its opening brace. -/
theorem strchr_txsPieces (comma : Bool) (tx : Tx) (rest : List Tx) (tail : List UInt8) :
    strchr 123 (render (txsPieces comma (tx :: rest)) ++ tail) =
      some (123 :: (txInner tx ++ 125 :: (render (txsPieces true rest) ++ tail))) := by
  have text := render_txPieces tx (txsPieces true rest)
  cases comma with
  | false => simp [txsPieces, text]
  | true =>
    have led : render (txsPieces true (tx :: rest)) ++ tail =
        [44] ++ (render (txPieces tx ++ txsPieces true rest) ++ tail) := by
      simp [txsPieces]
    rw [led, strchr_skip 123 [44] _ (by decide), text]
    simp

/-- All transactions are read back. -/
theorem parseTransactions_txsPieces (comma : Bool) (txs : List Tx) (tail : List UInt8)
    (braces : BracesMatch txs) (plain : 34 ∉ tail) :
    parseTransactions txs.length (render (txsPieces comma txs) ++ tail) = txs := by
  induction txs generalizing comma with
  | nil => simp [parseTransactions]
  | cons tx rest ih =>
    rw [List.length_cons, parseTransactions, strchr_txsPieces]
    simp only
    cases rest with
    | nil =>
      obtain ⟨extra, left, split, object⟩ :=
        matchBraces_open (txInner tx) tail ((enclosed_txInner tx).mpr braces)
      have read := protocolDeserializeTx_render tx [.plain extra]
        ⟨fun member => plain (by simp [split, member]), trivial⟩
      simp only [render_txPieces, render_plain, render_nil, List.append_nil] at read
      simp [txsPieces, object, read, parseTransactions]
    | cons next others =>
      obtain ⟨⟨enclosed, balanced⟩, later⟩ := braces
      have object := matchBraces_object (txInner tx) (render (txsPieces true (next :: others)) ++ tail)
        ((enclosed_txInner tx).mpr enclosed) (by rw [rise_txInner, balanced])
      have read := protocolDeserializeTx_render tx [] trivial
      simp only [render_txPieces, render_nil] at read
      rw [object]
      simp only [read, ih true later]

/-! ## Blocks -/

/-- What is written without escaping can be: the two hashes of the block, and
signatures and hashes of its transactions. -/
structure Block.Unquoted (block : Block) : Prop where
  prevHash : 34 ∉ block.prevHash.bytes ∧ 92 ∉ block.prevHash.bytes
  hash : 34 ∉ block.hash.bytes ∧ 92 ∉ block.hash.bytes
  txs : ∀ tx ∈ block.listed, tx.Unquoted

/-- The fields of a block in the order of `protocol_serialize_block`, up to the
array. -/
def blockFields (block : Block) : List Field := [
  ⟨ascii "index", .plain (decimal block.index.toNat), 44⟩,
  ⟨ascii "timestamp", .plain (signedDecimal block.timestamp.toInt), 44⟩,
  ⟨ascii "prev_hash", .quoted (escape block.prevHash.bytes), 44⟩,
  ⟨ascii "nonce", .plain (decimal block.nonce.toNat), 44⟩,
  ⟨ascii "hash", .quoted (escape block.hash.bytes), 44⟩,
  ⟨ascii "tx_count", .plain (signedDecimal block.txCount.toInt), 44⟩,
  ⟨ascii "transactions", .plain [], 91⟩]

/-- The pieces of a block object with other text behind it. -/
def blockPieces (block : Block) (extra : List UInt8) : List Piece :=
  .plain [123] :: (fieldPieces (blockFields block) ++
    (txsPieces false block.listed ++ [.plain ([93, 125] ++ extra)]))

/-- A number has no quotation mark. -/
theorem signedDecimal_no_quote (z : Int) : 34 ∉ signedDecimal z := by
  unfold signedDecimal
  split
  · simp [decimal_no_quote]
  · exact decimal_no_quote _

/-- Every field is one that a search by keys passes over or finds. -/
theorem blockFields_valid (block : Block) : ∀ field ∈ blockFields block, field.Valid := by
  simp only [blockFields, List.mem_cons, List.not_mem_nil, or_false]
  rintro field (rfl | rfl | rfl | rfl | rfl | rfl | rfl)
  · exact valid_plain _ _ _ (by decide) (decimal_no_quote _) (by decide)
  · exact valid_plain _ _ _ (by decide) (signedDecimal_no_quote _) (by decide)
  · exact valid_quoted _ _ _ (by decide) (guarded_escape _) (by decide)
  · exact valid_plain _ _ _ (by decide) (decimal_no_quote _) (by decide)
  · exact valid_quoted _ _ _ (by decide) (guarded_escape _) (by decide)
  · exact valid_plain _ _ _ (by decide) (signedDecimal_no_quote _) (by decide)
  · exact valid_plain _ _ _ (by decide) (by decide) (by decide)

/-- The keys of these fields. -/
def blockKeys : List (List UInt8) :=
  [ascii "index", ascii "timestamp", ascii "prev_hash", ascii "nonce", ascii "hash",
    ascii "tx_count", ascii "transactions"]

/-- They are the keys of the fields. -/
theorem blockFields_keys (block : Block) : (blockFields block).map Field.key = blockKeys := rfl

/-- The text of a block is an object with these fields in front of its
transactions, so a key inside a transaction is never taken for one of the
block. -/
theorem blockObject (block : Block) (extra : List UInt8) (plain : 34 ∉ extra) :
    ObjectText (render (blockPieces block extra)) (blockFields block)
      (txsPieces false block.listed ++ [.plain ([93, 125] ++ extra)]) where
  text := ⟨[123], by decide, rfl⟩
  valid := blockFields_valid block
  tailFormed := wellFormed_txsPieces _ _ _ ⟨by simpa using plain, trivial⟩
  keys := by
    rw [blockFields_keys]
    decide
  distinct := by
    rw [blockFields_keys]
    decide

/-- The block that is read back: the header and the listed transactions, with
unused slots zero. -/
def Block.compact (block : Block) : Block :=
  { block with transactions := fillSlots block.listed }

/-- The slots that are not listed have no part in what is listed. -/
theorem listed_compact (block : Block) (range : block.CountInRange) :
    block.compact.listed = block.listed := by
  have length := block.listed_length range
  have count : block.compact.count = block.listed.length := by
    change block.txCount.toInt.toNat = _
    omega
  rw [Block.listed, count]
  exact fillSlots_take _ block.listed_length_le

/-- Clearing them twice is clearing them once. -/
theorem compact_compact (block : Block) (range : block.CountInRange) :
    block.compact.compact = block.compact := by
  have slots : block.compact.compact = { block with transactions := fillSlots block.compact.listed } := rfl
  rw [slots, listed_compact block range]
  rfl

/-- Unused slots are not written. -/
theorem blockPieces_compact (block : Block) (range : block.CountInRange) (extra : List UInt8) :
    blockPieces block.compact extra = blockPieces block extra := by
  rw [blockPieces, blockPieces, listed_compact block range]
  rfl

/-- A block is read back from its text, also with some text behind it. -/
theorem protocolDeserializeBlock_render (block : Block) (extra : List UInt8) (plain : 34 ∉ extra)
    (range : block.CountInRange) (braces : BracesMatch block.listed) :
    protocolDeserializeBlock (render (blockPieces block extra)) = some block.compact := by
  have object := blockObject block extra plain
  have indexText : decimal block.index.toNat = decimal block.index.toUInt64.toNat := by simp
  have index := jsonGetUint64_field block.index.toUInt64 object 0 rfl
    (congrArg Piece.plain indexText) rfl
  have timestamp := jsonGetUint64_signed_field block.timestamp object 1 rfl rfl rfl
  have prevHash := jsonGetString_field hashHexLen block.prevHash object 2 rfl rfl
  have nonce := jsonGetUint64_field block.nonce object 3 rfl rfl rfl
  have hash := jsonGetString_field hashHexLen block.hash object 4 rfl rfl
  have txCount := jsonGetInt_field block.txCount object 5 rfl rfl rfl
  have transactions := jsonFindKey_field object 6 rfl
  obtain ⟨stamp, stampRead, stampValue⟩ := Option.map_eq_some_iff.mp timestamp
  have closing : 34 ∉ [93, 125] ++ extra := by simpa using plain
  have txsText : render (fieldPieces ((blockFields block).drop 7) ++
      (txsPieces false block.listed ++ [.plain ([93, 125] ++ extra)])) =
        render (txsPieces false block.listed) ++ ([93, 125] ++ extra) := by
    simp [blockFields]
  have slots : min block.txCount.toInt.toNat maxTxPerBlock = block.listed.length := by
    have length := block.listed_length range
    have few := block.listed_length_le
    simp only [maxTxPerBlock] at few ⊢
    omega
  simp only [Piece.render, List.nil_append, txsText] at transactions
  rw [List.dropWhile_cons_of_neg (by decide)] at transactions
  simp only at index stampRead prevHash nonce hash txCount
  simp only [protocolDeserializeBlock, index, stampRead, prevHash, nonce, hash, txCount, transactions,
    Option.bind_eq_bind, Option.bind_some, slots, stampValue,
    parseTransactions_txsPieces false block.listed _ braces closing]
  simp [Block.compact]

/-! ## The serialiser -/

/-- The texts between the values of a block. -/
theorem blockPunctuation :
    ascii "\x7b\"index\":" = 123 :: 34 :: (ascii "index" ++ [34, 58]) ∧
    ascii ",\"timestamp\":" = 44 :: 34 :: (ascii "timestamp" ++ [34, 58]) ∧
    ascii ",\"prev_hash\":\"" = 44 :: 34 :: (ascii "prev_hash" ++ [34, 58, 34]) ∧
    ascii "\",\"nonce\":" = 34 :: 44 :: 34 :: (ascii "nonce" ++ [34, 58]) ∧
    ascii ",\"hash\":\"" = 44 :: 34 :: (ascii "hash" ++ [34, 58, 34]) ∧
    ascii "\",\"tx_count\":" = 34 :: 44 :: 34 :: (ascii "tx_count" ++ [34, 58]) ∧
    ascii ",\"transactions\":" = 44 :: 34 :: (ascii "transactions" ++ [34, 58]) ∧
    ascii "[" = [91] ∧ ascii "]" = [93] ∧ ascii "\x7d" = [125] := by decide

/-- The pieces of the transactions render to the texts that the serialiser joins
with commas. -/
theorem txsPieces_text (comma : Bool) (txs : List Tx) (unquoted : ∀ tx ∈ txs, tx.Unquoted) :
    commaText comma (txs.map txText) = render (txsPieces comma txs) := by
  induction txs generalizing comma with
  | nil => rfl
  | cons tx rest ih =>
    have object := txText_eq tx (unquoted tx (by simp))
    have others := ih true fun other member => unquoted other (by simp [member])
    have separator : ascii "," = [44] := by decide
    cases comma <;> simp [txsPieces, commaText, separator, object, others]

/-- The text of a block is its pieces, so searches in it are computed on
pieces. -/
theorem blockText_eq (block : Block) (unquoted : block.Unquoted) :
    blockText block = render (blockPieces block []) := by
  obtain ⟨p1, p2, p3, p4, p5, p6, p7, p8, p9, p10⟩ := blockPunctuation
  rw [blockText, txsText, txsPieces_text false block.listed unquoted.txs, p1, p2, p3, p4, p5, p6, p7, p8, p9, p10]
  simp [blockPieces, blockFields, Field.pieces,
    escape_eq_self _ unquoted.prevHash.1 unquoted.prevHash.2,
    escape_eq_self _ unquoted.hash.1 unquoted.hash.2]

/-- The text of a block fits the buffer of the serialiser. -/
theorem blockPieces_length (block : Block) (unquoted : block.Unquoted) :
    (render (blockPieces block [])).length < 6500 := by
  have short := blockText_length block
  rw [← blockText_eq block unquoted]
  omega

/-- The serialiser writes the pieces. -/
theorem protocolSerializeBlock_eq (block : Block) (unquoted : block.Unquoted) :
    protocolSerializeBlock block = render (blockPieces block []) :=
  (protocolSerializeBlock_text block).trans (blockText_eq block unquoted)

end MiniCoin
