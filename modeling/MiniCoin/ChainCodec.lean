import MiniCoin.PayloadScan

/-!
# Chains as text

A chain is read back from its text, up to unused transaction slots, if the texts in its
blocks contain no quotation mark, no backslash and no brace: then the scanners see exactly
the brackets that the serialisers wrote. Texts without newlines are called plain; a plain
block also has zero in its unused slots, so that it is read back as it is.
-/

namespace MiniCoin

open ByteStrings QuotedText Nesting

/-! ## Safe texts -/

/-- No quotation mark, backslash or brace. Such a byte is neither escaped nor
counted by a scan. -/
def SafeByte (c : UInt8) : Prop := c ≠ 34 ∧ c ≠ 92 ∧ c ≠ 123 ∧ c ≠ 125

/-- A byte can be tested. -/
instance (c : UInt8) : Decidable (SafeByte c) := inferInstanceAs (Decidable (_ ∧ _))

/-- A text of safe bytes only. -/
def SafeText (text : List UInt8) : Prop := ∀ c ∈ text, SafeByte c

/-- So can a text. -/
instance (text : List UInt8) : Decidable (SafeText text) := inferInstanceAs (Decidable (∀ _ ∈ _, _))

/-- All four text fields are safe. The fields of wallets and of hashing are,
being hexadecimal. -/
def Tx.Safe (tx : Tx) : Prop := SafeText tx.texts

/-- So can a transaction. -/
instance (tx : Tx) : Decidable tx.Safe := inferInstanceAs (Decidable (SafeText _))

/-- A block that the scanners take apart as it was put together. Its count is in
range too, because the serialiser lists no more than the slots. -/
structure Block.Safe (block : Block) : Prop where
  prevHash : SafeText block.prevHash.bytes
  hash : SafeText block.hash.bytes
  txs : ∀ tx ∈ block.listed, tx.Safe
  range : block.CountInRange

/-- A safe text cannot end the string it stands in. -/
theorem SafeText.no_quote {text : List UInt8} (safe : SafeText text) : 34 ∉ text :=
  fun member => (safe 34 member).1 rfl

/-- A safe text has nothing that escapes the byte behind it. -/
theorem SafeText.no_backslash {text : List UInt8} (safe : SafeText text) : 92 ∉ text :=
  fun member => (safe 92 member).2.1 rfl

/-- A safe text is written as it is, as escaping has nothing to do. -/
theorem SafeText.escape {text : List UInt8} (safe : SafeText text) : escape text = text :=
  escape_eq_self text safe.no_quote safe.no_backslash

/-- A safe text does not disturb a count of braces, which looks into strings as
well. -/
theorem SafeText.flat {text : List UInt8} (safe : SafeText text) : Flat braceWeight text := by
  intro c member
  obtain ⟨-, -, noOpen, noClose⟩ := safe c member
  rw [braceWeight, if_neg noOpen, if_neg noClose]

/-- The sender of a safe transaction is safe. -/
theorem Tx.Safe.sender {tx : Tx} (safe : tx.Safe) : SafeText tx.sender.bytes :=
  fun c member => safe c (by simp [Tx.texts, member])

/-- So is its receiver. -/
theorem Tx.Safe.receiver {tx : Tx} (safe : tx.Safe) : SafeText tx.receiver.bytes :=
  fun c member => safe c (by simp [Tx.texts, member])

/-- So is its signature. -/
theorem Tx.Safe.signature {tx : Tx} (safe : tx.Safe) : SafeText tx.signature.bytes :=
  fun c member => safe c (by simp [Tx.texts, member])

/-- So is its hash. -/
theorem Tx.Safe.txHash {tx : Tx} (safe : tx.Safe) : SafeText tx.txHash.bytes :=
  fun c member => safe c (by simp [Tx.texts, member])

/-- The fields that are printed without escapes have no quotes. -/
theorem Tx.Safe.unquoted {tx : Tx} (safe : tx.Safe) : tx.Unquoted where
  signature := ⟨safe.signature.no_quote, safe.signature.no_backslash⟩
  txHash := ⟨safe.txHash.no_quote, safe.txHash.no_backslash⟩

/-- The same of a block: its hashes and the fields of its transactions. -/
theorem Block.Safe.unquoted {block : Block} (safe : block.Safe) : block.Unquoted where
  prevHash := ⟨safe.prevHash.no_quote, safe.prevHash.no_backslash⟩
  hash := ⟨safe.hash.no_quote, safe.hash.no_backslash⟩
  txs tx member := (safe.txs tx member).unquoted

/-! ## Plain texts -/

/-- No quotation mark, backslash, brace or newline. The newline is added because
it would end the line for the reader. -/
def PlainByte (c : UInt8) : Prop := c ≠ 34 ∧ c ≠ 92 ∧ c ≠ 123 ∧ c ≠ 125 ∧ c ≠ 10

/-- A byte can be tested, and with it texts and transactions. -/
instance (c : UInt8) : Decidable (PlainByte c) := inferInstanceAs (Decidable (_ ∧ _))

/-- A text of plain bytes only. -/
def PlainText (text : List UInt8) : Prop := ∀ c ∈ text, PlainByte c

/-- So can a text. -/
instance (text : List UInt8) : Decidable (PlainText text) := inferInstanceAs (Decidable (∀ _ ∈ _, _))

/-- All four text fields are plain, as those of wallets, mining and hashing
are. -/
def Tx.Plain (tx : Tx) : Prop := PlainText tx.texts

/-- So can a transaction. -/
instance (tx : Tx) : Decidable tx.Plain := inferInstanceAs (Decidable (PlainText _))

/-- A block that survives any way through the network: its text is safe, stays
on one line, and what the receiver builds from it is the same record, unused
slots included. -/
structure Block.Plain (block : Block) : Prop where
  prevHash : PlainText block.prevHash.bytes
  hash : PlainText block.hash.bytes
  txs : ∀ tx ∈ block.listed, tx.Plain
  range : block.CountInRange
  compact : block.compact = block

/-- A plain text is safe, as a newline is all that it lacks beyond that. -/
theorem PlainText.safe {text : List UInt8} (plain : PlainText text) : SafeText text := by
  intro c member
  obtain ⟨noQuote, noBackslash, noOpen, noClose, -⟩ := plain c member
  exact ⟨noQuote, noBackslash, noOpen, noClose⟩

/-- A plain transaction is safe. -/
theorem Tx.Plain.safe {tx : Tx} (plain : tx.Plain) : tx.Safe := PlainText.safe plain

/-- A plain block is safe. -/
theorem Block.Plain.safe {block : Block} (plain : block.Plain) : block.Safe where
  prevHash := plain.prevHash.safe
  hash := plain.hash.safe
  txs tx member := (plain.txs tx member).safe
  range := plain.range

/-- A safe block becomes plain when its texts have no newlines and its unused
slots are zero. -/
theorem Block.Safe.compact {block : Block} (safe : block.Safe) (prevHash : 10 ∉ block.prevHash.bytes)
    (hash : 10 ∉ block.hash.bytes) (txs : ∀ tx ∈ block.listed, 10 ∉ tx.texts) :
    block.compact.Plain := by
  have plain (text : List UInt8) (safe : SafeText text) (oneLine : 10 ∉ text) : PlainText text := by
    intro c member
    obtain ⟨noQuote, noBackslash, noOpen, noClose⟩ := safe c member
    exact ⟨noQuote, noBackslash, noOpen, noClose, fun same => oneLine (same ▸ member)⟩
  refine ⟨plain _ safe.prevHash prevHash, plain _ safe.hash hash, fun tx member => ?_, safe.range,
    compact_compact block safe.range⟩
  rw [listed_compact block safe.range] at member
  exact plain _ (safe.txs tx member) (txs tx member)

/-- Hexadecimal text is plain. -/
theorem plainText_hex (text : List UInt8) (hex : ∀ c ∈ text, isHex c = true) : PlainText text := by
  intro c member
  have here := hex c member
  refine ⟨?_, ?_, ?_, ?_, ?_⟩ <;>
  · rintro rfl
    exact absurd here (by decide)

/-! ## What the scanners see -/

/-- Without braces in the fields, the scan of the parser cuts the array at the
right places. -/
theorem bracesMatch_safe (txs : List Tx) (safe : ∀ tx ∈ txs, tx.Safe) : BracesMatch txs := by
  induction txs with
  | nil => trivial
  | cons tx rest ih =>
    have here := balanced_flat braceWeight tx.texts (safe tx (by simp)).flat
    cases rest with
    | nil => exact here.1
    | cons next others => exact ⟨here, ih fun other member => safe other (by simp [member])⟩

/-- Strings without backslashes do not count, and the phase stays. -/
theorem countedText_strings (bodies : List (List UInt8)) (noBackslash : ∀ body ∈ bodies, 92 ∉ body) :
    countedText false (bodies.map .quoted) = [] ∧ phaseAfter false (bodies.map .quoted) = false := by
  induction bodies with
  | nil => exact ⟨rfl, rfl⟩
  | cons body rest ih =>
    have still : flips (.quoted body) = false := endsInBackslash_of_absent body (noBackslash body (by simp))
    obtain ⟨text, phase⟩ := ih fun other member => noBackslash other (by simp [member])
    rw [List.map_cons, countedText, phaseAfter, still]
    exact ⟨by simpa [counted] using text, by simpa using phase⟩

/-- The four text fields of a transaction, as the strings of its object. -/
theorem textPieces_strings (tx : Tx) : textPieces tx =
    [tx.sender.bytes, tx.receiver.bytes, tx.signature.bytes, tx.txHash.bytes].map .quoted := rfl

/-- Safe fields leave nothing that counts, and the reader outside of strings. -/
theorem textPieces_safe (tx : Tx) (safe : tx.Safe) :
    countedText false (textPieces tx) = [] ∧ phaseAfter false (textPieces tx) = false := by
  rw [textPieces_strings]
  refine countedText_strings _ fun body member => ?_
  simp only [List.mem_cons, List.not_mem_nil, or_false] at member
  rcases member with rfl | rfl | rfl | rfl
  · exact safe.sender.no_backslash
  · exact safe.receiver.no_backslash
  · exact safe.signature.no_backslash
  · exact safe.txHash.no_backslash

/-- No brace of safe fields is exposed to the scan of the parser. -/
theorem exposed_safe (txs : List Tx) (safe : ∀ tx ∈ txs, tx.Safe) : exposed txs = [] := by
  induction txs with
  | nil => rfl
  | cons tx rest ih =>
    obtain ⟨text, phase⟩ := textPieces_safe tx (safe tx (by simp))
    have others := ih fun other member => safe other (by simp [member])
    have split : allTextPieces (tx :: rest) = textPieces tx ++ allTextPieces rest := rfl
    rw [exposed, split, countedText_append, text, phase]
    simpa [exposed] using others

/-! ## Pieces in step

The scan of a payload leaves such pieces in the phase and at the depth in which it
entered them. -/

/-- The brackets outside strings are balanced, and the scan knows where strings
end. -/
structure InStep (pieces : List Piece) : Prop where
  balanced : Balanced bracketWeight (countedText false pieces)
  phase : phaseAfter false pieces = false

/-- Texts in step may follow each other, since each leaves the reader outside of
strings. -/
theorem InStep.append {left right : List Piece} (first : InStep left) (second : InStep right) :
    InStep (left ++ right) where
  balanced := by
    rw [countedText_append, first.phase]
    exact balanced_append _ _ _ first.balanced second.balanced
  phase := by rw [phaseAfter_append, first.phase, second.phase]

/-- Only what is counted matters for being in step. -/
theorem InStep.of_sameCount {left right : List Piece} (same : SameCount left right)
    (inStep : InStep right) : InStep left where
  balanced := by
    rw [← balanced_brackets, (same false).1, balanced_brackets]
    exact inStep.balanced
  phase := (same false).2.trans inStep.phase

/-- Brackets around pieces in step. -/
theorem InStep.wrap {pieces : List Piece} (opening closing : UInt8)
    (up : bracketWeight opening = 1) (down : bracketWeight closing = -1) (inside : InStep pieces) :
    InStep ([.plain [opening]] ++ (pieces ++ [.plain [closing]])) where
  balanced := by
    have text : countedText false ([.plain [opening]] ++ (pieces ++ [.plain [closing]])) =
        opening :: (countedText false pieces ++ [closing]) := by
      simp [countedText, counted, flips, inside.phase]
    rw [text]
    exact balanced_wrap bracketWeight opening closing _ up down inside.balanced
  phase := by simp [phaseAfter, flips, inside.phase]

/-- The empty text is in step. -/
theorem inStep_nil : InStep [] :=
  ⟨balanced_flat bracketWeight [] fun _ member => absurd member List.not_mem_nil, rfl⟩

/-- A transaction with safe fields is in step: its object closes what it
opens. -/
theorem inStep_txPieces (tx : Tx) (safe : tx.Safe) : InStep (txPieces tx) := by
  obtain ⟨text, phase⟩ := textPieces_safe tx safe
  have inner : InStep (textPieces tx) := ⟨by rw [text]; exact inStep_nil.balanced, phase⟩
  exact InStep.of_sameCount (sameCount_txPieces tx) (inner.wrap 123 125 (by decide) (by decide))

/-- The comma between two objects is in step. -/
theorem inStep_comma : InStep [.plain [44]] :=
  InStep.of_sameCount (sameCount_plain [44] (flatKey _ (by decide))) inStep_nil

/-- The objects of an array are in step, by induction on the list. -/
theorem inStep_txsPieces (comma : Bool) (txs : List Tx) (safe : ∀ tx ∈ txs, tx.Safe) :
    InStep (txsPieces comma txs) := by
  induction txs generalizing comma with
  | nil => exact inStep_nil
  | cons tx rest ih =>
    have object := inStep_txPieces tx (safe tx (by simp))
    have others := ih true fun other member => safe other (by simp [member])
    cases comma with
    | false => exact (inStep_nil.append object).append others
    | true => exact (inStep_comma.append object).append others

/-- A block with safe texts. -/
theorem inStep_blockPieces (block : Block) (safe : block.Safe) : InStep (blockPieces block []) := by
  obtain ⟨header, headerPhase⟩ := countedText_blockFields block safe.unquoted.hashesPlain
  have txs := inStep_txsPieces false block.listed safe.txs
  have list := balanced_wrap bracketWeight 91 93 _ (by decide) (by decide) txs.balanced
  have object := balanced_wrap bracketWeight 123 125 _ (by decide) (by decide) list
  have text : countedText false (blockPieces block []) =
      123 :: (countedText false (fieldPieces (blockFields block)) ++
        (countedText false (txsPieces false block.listed) ++ [93, 125])) := by
    simp [blockPieces, countedText, counted, flips, headerPhase, txs.phase]
  have same : brackets bracketWeight (countedText false (blockPieces block [])) =
      brackets bracketWeight
        (123 :: (91 :: (countedText false (txsPieces false block.listed) ++ [93]) ++ [125])) := by
    rw [text, ← List.singleton_append, brackets_append, brackets_append, header]
    simp [brackets, bracketWeight]
  constructor
  · rw [← balanced_brackets, same, balanced_brackets]
    exact object
  · simp [blockPieces, phaseAfter, flips, headerPhase, txs.phase]

/-! ## Raw braces -/

/-- What holds of every byte of the fields holds of every byte of their text. -/
theorem forall_fieldPieces (property : UInt8 → Prop) (fields : List Field) (quote : property 34)
    (colon : property 58) (keys : ∀ field ∈ fields, ∀ c ∈ field.key, property c)
    (values : ∀ field ∈ fields, ∀ c ∈ field.value.render, property c)
    (closes : ∀ field ∈ fields, property field.close) :
    ∀ c ∈ render (fieldPieces fields), property c := by
  intro c member
  obtain ⟨piece, inPieces, inPiece⟩ := List.mem_flatMap.mp member
  obtain ⟨field, inFields, inField⟩ := List.mem_flatMap.mp inPieces
  simp only [Field.pieces, List.mem_cons, List.not_mem_nil, or_false] at inField
  rcases inField with rfl | rfl | rfl | rfl
  · simp only [Piece.render, List.mem_cons, List.mem_append, List.not_mem_nil, or_false] at inPiece
    rcases inPiece with rfl | inKey | rfl
    · exact quote
    · exact keys field inFields c inKey
    · exact quote
  · obtain rfl := List.mem_singleton.mp inPiece
    exact colon
  · exact values field inFields c inPiece
  · obtain rfl := List.mem_singleton.mp inPiece
    exact closes field inFields

/-- A number has no braces. -/
theorem flat_signedDigits (z : Int) : Flat braceWeight (signedDecimal z) := by
  unfold signedDecimal
  split
  · intro c member
    rcases List.mem_cons.mp member with rfl | digit
    · decide
    · exact flat_digits _ c digit
  · exact flat_digits _

/-- The quoted form of a safe text has no braces. -/
theorem flat_quoted (text : List UInt8) (safe : SafeText text) :
    Flat braceWeight (Piece.quoted (escape text)).render := by
  rw [safe.escape]
  intro c member
  simp only [Piece.render, List.mem_cons, List.mem_append, List.not_mem_nil, or_false] at member
  rcases member with rfl | inText | rfl
  · decide
  · exact safe.flat c inText
  · decide

/-- The fields of a block contain no brace. -/
theorem flat_blockFields (block : Block) (safe : block.Safe) :
    Flat braceWeight (render (fieldPieces (blockFields block))) := by
  refine forall_fieldPieces (fun c => braceWeight c = 0) _ (by decide) (by decide) ?_ ?_ ?_
  · intro field member
    have key : field.key ∈ blockKeys := blockFields_keys block ▸ List.mem_map_of_mem member
    exact (by decide : ∀ key ∈ blockKeys, ∀ c ∈ key, braceWeight c = 0) _ key
  · simp only [blockFields, List.mem_cons, List.not_mem_nil, or_false]
    rintro field (rfl | rfl | rfl | rfl | rfl | rfl | rfl)
    · exact flat_digits _
    · exact flat_signedDigits _
    · exact flat_quoted _ safe.prevHash
    · exact flat_digits _
    · exact flat_quoted _ safe.hash
    · exact flat_signedDigits _
    · exact fun c none => absurd none List.not_mem_nil
  · simp only [blockFields, List.mem_cons, List.not_mem_nil, or_false]
    rintro field (rfl | rfl | rfl | rfl | rfl | rfl | rfl) <;> rfl

/-- The braces of transaction objects with safe texts are balanced. -/
theorem balanced_txsPieces (comma : Bool) (txs : List Tx) (safe : ∀ tx ∈ txs, tx.Safe) :
    Balanced braceWeight (render (txsPieces comma txs)) := by
  induction txs generalizing comma with
  | nil => exact balanced_flat braceWeight [] fun _ member => absurd member List.not_mem_nil
  | cons tx rest ih =>
    have texts : Balanced braceWeight tx.texts := balanced_flat _ _ (safe tx (by simp)).flat
    have inner : Balanced braceWeight (txInner tx) := by
      rw [← balanced_brackets, brackets_txInner, balanced_brackets]
      exact texts
    have object := balanced_append braceWeight _ _
      (balanced_wrap braceWeight 123 125 _ (by decide) (by decide) inner)
      (ih true fun other member => safe other (by simp [member]))
    have separator : Balanced braceWeight [44] := by decide
    have shape (comma : Bool) : render (txsPieces comma (tx :: rest)) =
        (if comma then [44] else []) ++
          (123 :: (txInner tx ++ [125]) ++ render (txsPieces true rest)) := by
      have text := render_txPieces tx (txsPieces true rest)
      cases comma <;> simp [txsPieces, text]
    rw [shape]
    cases comma with
    | false => simpa using object
    | true => exact balanced_append braceWeight _ _ separator object

/-- What stands between the braces of a block object. -/
def blockInner (block : Block) : List UInt8 := render (blockMiddle block) ++ [93]

/-- The object of a block is its inner text between two braces. -/
theorem render_blockPieces (block : Block) :
    render (blockPieces block []) = 123 :: (blockInner block ++ [125]) := by
  simp [blockPieces_eq, blockInner]

/-- The inner text of a safe block is balanced, so the first brace that brings
the count back to zero is the one that closes the object. -/
theorem balanced_blockInner (block : Block) (safe : block.Safe) :
    Balanced braceWeight (blockInner block) := by
  have fields := balanced_flat braceWeight _ (flat_blockFields block safe)
  have txs := balanced_txsPieces false block.listed safe.txs
  have bracket : Balanced braceWeight [93] := by decide
  rw [blockInner, blockMiddle, render_append]
  exact balanced_append _ _ _ (balanced_append _ _ _ fields txs) bracket

/-! ## Chains -/

/-- Block objects with commas between them, and before them if one is due. -/
def blocksPieces : Bool → List Block → List Piece
  | _, [] => []
  | comma, block :: rest =>
    (if comma then [.plain [44]] else []) ++ blockPieces block [] ++ blocksPieces true rest

/-- The fields of a chain: its length, and its blocks as an array that
follows. -/
def chainFields (chain : Blockchain) : List Field := [
  ⟨ascii "length", .plain (signedDecimal chain.length), 44⟩,
  ⟨ascii "blocks", .plain [], 91⟩]

/-- The pieces of a chain object. -/
def chainPieces (chain : Blockchain) : List Piece :=
  .plain [123] :: (fieldPieces (chainFields chain) ++
    (blocksPieces false chain ++ [.plain [93, 125]]))

/-- The pieces of a block are well formed in front of well-formed pieces:
quotation marks stand around strings only, and no string is taken for a key. -/
theorem wellFormed_blockPieces (block : Block) (pieces : List Piece) (formed : WellFormed pieces) :
    WellFormed (blockPieces block [] ++ pieces) := by
  have txs := wellFormed_txsPieces false block.listed (.plain [93, 125] :: pieces) ⟨by decide, formed⟩
  have object := wellFormed_fields _ _ (blockFields_valid block) txs
  have shape : blockPieces block [] ++ pieces = .plain [123] :: (fieldPieces (blockFields block) ++
      (txsPieces false block.listed ++ .plain [93, 125] :: pieces)) := by
    simp [blockPieces]
  rw [shape]
  exact ⟨by decide, object⟩

/-- So are the pieces of all blocks, by induction on the list. -/
theorem wellFormed_blocksPieces (comma : Bool) (blocks : List Block) (pieces : List Piece)
    (formed : WellFormed pieces) : WellFormed (blocksPieces comma blocks ++ pieces) := by
  induction blocks generalizing comma with
  | nil => exact formed
  | cons block rest ih =>
    have object := wellFormed_blockPieces block _ (ih true)
    cases comma with
    | false => simpa [blocksPieces] using object
    | true =>
      have led : WellFormed (.plain [44] :: (blockPieces block [] ++ (blocksPieces true rest ++ pieces))) :=
        ⟨by decide, object⟩
      simpa [blocksPieces] using led

/-- The search for the next block stops at its opening brace. -/
theorem strchr_blocksPieces (comma : Bool) (block : Block) (rest : List Block) (tail : List UInt8) :
    strchr 123 (render (blocksPieces comma (block :: rest)) ++ tail) =
      some (123 :: (blockInner block ++ 125 :: (render (blocksPieces true rest) ++ tail))) := by
  have text := render_blockPieces block
  cases comma with
  | false => simp [blocksPieces, text]
  | true =>
    have led : render (blocksPieces true (block :: rest)) ++ tail =
        [44] ++ (render (blockPieces block []) ++ (render (blocksPieces true rest) ++ tail)) := by
      simp [blocksPieces]
    rw [led, strchr_skip 123 [44] _ (by decide), text]
    simp

/-- All blocks are read back. -/
theorem parseBlocks_blocksPieces (comma : Bool) (blocks : List Block) (tail : List UInt8)
    (safe : ∀ block ∈ blocks, block.Safe) :
    parseBlocks blocks.length (render (blocksPieces comma blocks) ++ tail) =
      some (blocks.map Block.compact) := by
  induction blocks generalizing comma with
  | nil => rfl
  | cons block rest ih =>
    have here := safe block (by simp)
    obtain ⟨enclosed, balanced⟩ := balanced_blockInner block here
    have read := protocolDeserializeBlock_render block [] (by decide) here.range
      (bracesMatch_safe block.listed here.txs)
    rw [render_blockPieces] at read
    rw [List.length_cons, parseBlocks, strchr_blocksPieces]
    simp only [matchBraces_object _ _ enclosed balanced, read,
      ih true fun other member => safe other (by simp [member]), Option.map_some, List.map_cons]

/-- A block is written from what it lists, so the unlisted slots do not show in
the text. -/
theorem blocksPieces_compact (comma : Bool) (blocks : List Block)
    (range : ∀ block ∈ blocks, block.CountInRange) :
    blocksPieces comma (blocks.map Block.compact) = blocksPieces comma blocks := by
  induction blocks generalizing comma with
  | nil => rfl
  | cons block rest ih =>
    rw [List.map_cons, blocksPieces, blocksPieces, blockPieces_compact block (range block (by simp)),
      ih true fun other member => range other (by simp [member])]

/-- Unused slots are not hashed. -/
theorem blockValidate_compact (sha : Sha256) (block : Block) (range : block.CountInRange) :
    blockValidate sha block.compact = blockValidate sha block := by
  have input : blockHashInput block.compact = blockHashInput block := by
    rw [blockHashInput_eq, blockHashInput_eq, listed_compact block range]
    rfl
  rw [blockValidate, blockValidate, blockComputeHash, blockComputeHash, input]
  rfl

/-- The same of a chain: it is written as its compact blocks are. -/
theorem chainPieces_compact (chain : Blockchain) (range : ∀ block ∈ chain, block.CountInRange) :
    chainPieces (chain.map Block.compact) = chainPieces chain := by
  rw [chainPieces, chainPieces, blocksPieces_compact false chain range, chainFields, chainFields,
    List.length_map]

/-- The values of both fields are without quotation marks, so neither can hide a
key. -/
theorem chainFields_valid (chain : Blockchain) : ∀ field ∈ chainFields chain, field.Valid := by
  simp only [chainFields, List.mem_cons, List.not_mem_nil, or_false]
  rintro field (rfl | rfl)
  · exact valid_plain _ _ _ (by decide) (signedDecimal_no_quote _) (by decide)
  · exact valid_plain _ _ _ (by decide) (by decide) (by decide)

/-- The keys of the object of a chain, in the order in which they are
written. -/
def chainKeys : List (List UInt8) := [ascii "length", ascii "blocks"]

/-- They are the keys of the fields. -/
theorem chainFields_keys (chain : Blockchain) : (chainFields chain).map Field.key = chainKeys := rfl

/-- The text of a chain is an object with these fields in front of its blocks,
so each of them is found by its key. -/
theorem chainObject (chain : Blockchain) :
    ObjectText (render (chainPieces chain)) (chainFields chain)
      (blocksPieces false chain ++ [.plain [93, 125]]) where
  text := ⟨[123], by decide, rfl⟩
  valid := chainFields_valid chain
  tailFormed := wellFormed_blocksPieces _ _ _ ⟨by decide, trivial⟩
  keys := by
    rw [chainFields_keys]
    decide
  distinct := by
    rw [chainFields_keys]
    decide

/-- A chain that fits the receiver is read back from its text. -/
theorem protocolDeserializeChain_render (chain : Blockchain) (nonempty : chain ≠ [])
    (fits : chain.length ≤ maxBlocks) (safe : ∀ block ∈ chain, block.Safe) :
    protocolDeserializeChain (render (chainPieces chain)) = some (chain.map Block.compact) := by
  have fits' : chain.length ≤ 10000 := fits
  have positive : 0 < chain.length := List.length_pos_of_ne_nil nonempty
  have object := chainObject chain
  have value : (Int32.ofNat chain.length).toInt = chain.length :=
    Int32.toInt_ofNat_of_lt (by omega)
  have length := jsonGetInt_field (Int32.ofNat chain.length) object 0 rfl
    (by rw [value]) rfl
  have blocks := jsonFindKey_field object 1 rfl
  have text : render (fieldPieces ((chainFields chain).drop 2) ++
      (blocksPieces false chain ++ [.plain [93, 125]])) =
        render (blocksPieces false chain) ++ [93, 125] := by
    simp [chainFields]
  simp only [Piece.render, List.nil_append, text] at blocks
  rw [List.dropWhile_cons_of_neg (by decide)] at blocks
  have inRange : ¬ ((chain.length : Int) ≤ 0 ∨ (maxBlocks : Int) < chain.length) := by
    rw [maxBlocks]
    omega
  simp only at length
  simp only [protocolDeserializeChain, length, value, if_neg inRange, blocks, Int.toNat_natCast]
  exact parseBlocks_blocksPieces false chain _ safe

/-! ## The serialiser -/

/-- The pieces of the blocks render to the texts that the serialiser joins with
commas. -/
theorem blocksPieces_text (comma : Bool) (blocks : List Block) (safe : ∀ block ∈ blocks, block.Safe) :
    commaText comma (blocks.map blockText) = render (blocksPieces comma blocks) := by
  induction blocks generalizing comma with
  | nil => rfl
  | cons block rest ih =>
    have object := blockText_eq block (safe block (by simp)).unquoted
    have others := ih true fun other member => safe other (by simp [member])
    have separator : ascii "," = [44] := by decide
    cases comma <;> simp [blocksPieces, commaText, separator, object, others]

/-- A serialised block has at most 6500 bytes, and one byte more for the
comma. -/
theorem blocksPieces_length (comma : Bool) (blocks : List Block)
    (safe : ∀ block ∈ blocks, block.Safe) :
    (render (blocksPieces comma blocks)).length ≤ 6501 * blocks.length := by
  have short := commaText_length comma (blocks.map blockText) 5900 fun text member => by
    obtain ⟨block, -, rfl⟩ := List.mem_map.mp member
    exact blockText_length block
  rw [← blocksPieces_text comma blocks safe]
  rw [List.length_map] at short
  omega

/-- The serialiser writes the pieces. -/
theorem protocolSerializeChain_eq (chain : Blockchain) (fits : chain.length ≤ maxBlocks)
    (safe : ∀ block ∈ chain, block.Safe) :
    protocolSerializeChain chain = render (chainPieces chain) := by
  have p1 : ascii "\x7b\"length\":" = 123 :: 34 :: (ascii "length" ++ [34, 58]) := by decide
  have p2 : ascii ",\"blocks\":[" = 44 :: 34 :: (ascii "blocks" ++ [34, 58, 91]) := by decide
  have p3 : ascii "]\x7d" = [93, 125] := by decide
  rw [protocolSerializeChain_text chain fits, chainText, chainHeader, blocksPieces_text false chain safe, p1, p2, p3]
  simp [chainPieces, chainFields, Field.pieces]

end MiniCoin
