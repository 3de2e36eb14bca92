import MiniCoin.TextBytes
import MiniCoin.Transitions

/-!
# Messages as lines

`protocol_serialize_msg` wraps a payload into an envelope and `protocol_parse_msg` takes it
out again, so `handle_message` reacts to a line as to the message that was written. The
line contains no newline and no NUL, so `read_message` returns it as it was sent if it is
short enough.
-/

namespace MiniCoin

open ByteStrings QuotedText Nesting

variable {ssl : OpenSSL}

/-! ## Texts in one line -/

/-- Neither NUL nor newline. Either would end the line too early, for `strlen`
or for the reader. -/
def Inline (c : UInt8) : Prop := c ≠ 0 ∧ c ≠ 10

instance (c : UInt8) : Decidable (Inline c) := inferInstanceAs (Decidable (_ ∧ _))

/-- No text field contains a newline, so the record can be sent in a line. -/
def Tx.OneLine (tx : Tx) : Prop := 10 ∉ tx.texts

/-- The same of all texts of a block. With a newline in one of them the line of
the block would end there for its reader. -/
structure Block.OneLine (block : Block) : Prop where
  prevHash : 10 ∉ block.prevHash.bytes
  hash : 10 ∉ block.hash.bytes
  txs : ∀ tx ∈ block.listed, tx.OneLine

/-- Plain text has no newline by definition. -/
theorem PlainText.no_newline {text : List UInt8} (plain : PlainText text) : 10 ∉ text :=
  fun member => (plain 10 member).2.2.2.2 rfl

/-- A plain transaction stays on one line. -/
theorem Tx.Plain.oneLine {tx : Tx} (plain : tx.Plain) : tx.OneLine := PlainText.no_newline plain

/-- So does a plain block. -/
theorem Block.Plain.oneLine {block : Block} (plain : block.Plain) : block.OneLine where
  prevHash := plain.prevHash.no_newline
  hash := plain.hash.no_newline
  txs tx member := (plain.txs tx member).oneLine

/-- The syntax has neither newlines nor terminators, which is decided byte by
byte. -/
theorem inline_marks : ∀ c ∈ syntaxBytes, Inline c := by decide

/-- The text of an array ends at its terminator, so only a newline could break
the line. -/
theorem inline_text (size : Nat) (text : CText size) (oneLine : 10 ∉ text.bytes) : ∀ c ∈ text.bytes, Inline c :=
  fun _ member => ⟨fun zero => text.clean (zero ▸ member), fun newline => oneLine (newline ▸ member)⟩

/-- All text fields of such a transaction stay inside a line. -/
theorem Tx.OneLine.inline {tx : Tx} (oneLine : tx.OneLine) : ∀ c ∈ tx.texts, Inline c := by
  simp only [Tx.OneLine, Tx.texts, List.mem_append, not_or] at oneLine ⊢
  obtain ⟨⟨⟨sender, receiver⟩, signature⟩, txHash⟩ := oneLine
  rintro c (((member | member) | member) | member)
  · exact inline_text _ _ sender c member
  · exact inline_text _ _ receiver c member
  · exact inline_text _ _ signature c member
  · exact inline_text _ _ txHash c member

/-- So do those of such a block. -/
theorem Block.OneLine.inline {block : Block} (oneLine : block.OneLine) : ∀ c ∈ block.texts, Inline c :=
  (forall_block_texts block Inline).mpr ⟨inline_text _ _ oneLine.prevHash, inline_text _ _ oneLine.hash,
    fun tx member => (oneLine.txs tx member).inline⟩

/-- The text of a transaction stays inside a line, by the bytes it is made
of. -/
theorem inline_txPieces (tx : Tx) (oneLine : tx.OneLine) : ∀ c ∈ render (txPieces tx), Inline c :=
  forall_txPieces inline_marks tx oneLine.inline

/-- So does the text of a block. -/
theorem inline_blockPieces (block : Block) (oneLine : block.OneLine) :
    ∀ c ∈ render (blockPieces block []), Inline c :=
  forall_blockPieces inline_marks block oneLine.inline

/-- So does the text of a chain. -/
theorem inline_chainPieces (chain : Blockchain) (oneLine : ∀ block ∈ chain, block.OneLine) :
    ∀ c ∈ render (chainPieces chain), Inline c :=
  forall_chainPieces inline_marks chain fun block member => (oneLine block member).inline

/-! ## Envelopes -/

/-- The fields in front of the payload: only the type, whose value is closed by
a comma. -/
def envelopeFields (type : MsgType) : List Field := [
  ⟨ascii "type", .plain (signedDecimal type.code.toInt), 44⟩,
  ⟨ascii "payload", .plain [], 123⟩]

/-- The pieces of a message whose payload starts with a brace. -/
def envelopePieces (type : MsgType) (rest : List Piece) : List Piece :=
  .plain [123] :: (fieldPieces (envelopeFields type) ++ (rest ++ [.plain [125]]))

/-- The envelope is an object with these fields, so the type is found by its key
even if the payload has a key of that name. -/
theorem envelopeObject (type : MsgType) (rest : List Piece)
    (formed : WellFormed (rest ++ [.plain [125]])) :
    ObjectText (render (envelopePieces type rest)) (envelopeFields type) (rest ++ [.plain [125]]) where
  text := ⟨[123], by decide, rfl⟩
  valid := by
    simp only [envelopeFields, List.mem_cons, List.not_mem_nil, or_false]
    rintro field (rfl | rfl)
    · exact valid_plain _ _ _ (by decide) (signedDecimal_no_quote _) (by decide)
    · exact valid_plain _ _ _ (by decide) (by decide) (by decide)
  tailFormed := formed
  keys := by
    change ∀ key ∈ [ascii "type", ascii "payload"], IsKey key
    decide
  distinct := by
    change [ascii "type", ascii "payload"].Nodup
    decide

/-- The type is read back, and the payload is what the scan finds. -/
theorem protocolParseMsg_envelope (type : MsgType) (rest : List Piece)
    (formed : WellFormed (rest ++ [.plain [125]])) :
    protocolParseMsg (render (envelopePieces type rest)) =
      (type.code, some (scanPayload none 0 false (123 :: (render rest ++ [125])))) := by
  have object := envelopeObject type rest formed
  have code := jsonGetInt_field type.code object 0 rfl rfl rfl
  have payload := jsonFindKey_field object 1 rfl
  simp only [Piece.render, List.nil_append] at payload
  rw [List.dropWhile_cons_of_neg (by decide)] at payload
  have text : render (fieldPieces ((envelopeFields type).drop 2) ++ (rest ++ [.plain [125]])) =
      render rest ++ [125] := by
    simp [envelopeFields]
  simp only [text] at payload
  simp only at code
  simp only [protocolParseMsg, code, payload, Option.map_some]

/-- The buffer of an envelope is measured by its payload, so nothing is cut. A
message without a payload gets the empty object, as in the source. -/
theorem protocolSerializeMsg_fits (type : MsgType) (payload : Option (List UInt8)) :
    protocolSerializeMsg type payload = ascii "\x7b\"type\":" ++ signedDecimal type.code.toInt ++
      ascii ",\"payload\":" ++ payload.getD (ascii "\x7b\x7d") ++ ascii "\x7d\n" := by
  have digits : (signedDecimal type.code.toInt).length ≤ 2 := by cases type <;> decide
  have constants : (ascii "\x7b\"type\":").length = 8 ∧ (ascii ",\"payload\":").length = 11 ∧
      (ascii "\x7d\n").length = 2 ∧ (ascii "\x7b\x7d").length = 2 := by decide
  unfold protocolSerializeMsg
  refine snprintf_fits _ _ ?_
  cases payload with
  | none =>
    simp only [Option.getD_none, List.length_append, constants]
    omega
  | some text =>
    simp only [Option.getD_some, List.length_append, constants]
    omega

/-- The serialiser writes the pieces and a newline. -/
theorem protocolSerializeMsg_eq (type : MsgType) (payload : Option (List UInt8)) (rest : List Piece)
    (shape : payload.getD (ascii "\x7b\x7d") = 123 :: render rest) :
    protocolSerializeMsg type payload = render (envelopePieces type rest) ++ [10] := by
  have p1 : ascii "\x7b\"type\":" = 123 :: 34 :: (ascii "type" ++ [34, 58]) := by decide
  have p2 : ascii ",\"payload\":" = 44 :: 34 :: (ascii "payload" ++ [34, 58]) := by decide
  have p3 : ascii "\x7d\n" = [125, 10] := by decide
  rw [protocolSerializeMsg_fits, p1, p2, p3, shape]
  simp [envelopePieces, envelopeFields, Field.pieces]

/-- An envelope adds syntax only. -/
theorem inline_envelope (type : MsgType) (rest : List Piece) (oneLine : ∀ c ∈ render rest, Inline c) :
    ∀ c ∈ render (envelopePieces type rest), Inline c := by
  have code := forall_signedDecimal inline_marks type.code.toInt
  have keys : (∀ c ∈ ascii "type", Inline c) ∧ ∀ c ∈ ascii "payload", Inline c := by decide
  have marks : ∀ c ∈ [123, 34, 58, 44, 125], Inline c := by decide
  intro c member
  have parts : c ∈ ascii "type" ∨ c ∈ ascii "payload" ∨ c ∈ signedDecimal type.code.toInt ∨
      c ∈ render rest ∨ c ∈ [123, 34, 58, 44, 125] := by
    simp only [envelopePieces, envelopeFields, Field.pieces, fieldPieces_cons, fieldPieces_nil,
      render_plain, render_quoted, render_append, render_nil, List.mem_append, List.mem_cons,
      List.cons_append, List.nil_append, List.not_mem_nil, or_false] at member ⊢
    tauto
  rcases parts with key | key | number | inRest | mark
  · exact keys.1 c key
  · exact keys.2 c key
  · exact code c number
  · exact oneLine c inRest
  · exact marks c mark

/-! ## The end of a payload in step -/

/-- A payload in step ends with its own closing brace. -/
theorem scanPayload_object (middle : List Piece) (clean : ∀ piece ∈ middle, Clean piece)
    (inStep : InStep middle) (tail : List UInt8) :
    scanPayload none 0 false (123 :: (render middle ++ 125 :: tail)) =
      123 :: (render middle ++ [125]) := by
  obtain ⟨last, counts, scanned⟩ := scanPayload_pieces middle (some 123) 1 false (125 :: tail)
    (by decide) clean one_pos inStep.balanced.1 (by simp)
  rw [scanPayload_open _ (by simp), scanned, inStep.balanced.2, inStep.phase]
  simp [scanPayload]

/-- The pieces of a block are clean: its strings end where they were meant to
end. -/
theorem clean_blockPieces (block : Block) : ∀ piece ∈ blockPieces block [], Clean piece := by
  rw [blockPieces_eq]
  intro piece member
  rcases List.mem_append.mp member with first | others
  · obtain rfl := List.mem_singleton.mp first
    exact clean_byte 123 (by decide) (by decide)
  · rcases List.mem_append.mp others with middle | last
    · exact clean_blockMiddle block piece middle
    · obtain rfl := List.mem_singleton.mp last
      exact ⟨by decide, by decide⟩

/-- So are those of all blocks, by induction on the list. -/
theorem clean_blocksPieces (comma : Bool) (blocks : List Block) :
    ∀ piece ∈ blocksPieces comma blocks, Clean piece := by
  induction blocks generalizing comma with
  | nil => exact fun piece member => absurd member List.not_mem_nil
  | cons block rest ih =>
    intro piece member
    simp only [blocksPieces, List.mem_append] at member
    rcases member with (separator | object) | others
    · cases comma with
      | false => exact absurd separator List.not_mem_nil
      | true =>
        obtain rfl := List.mem_singleton.mp separator
        exact clean_byte 44 (by decide) (by decide)
    · exact clean_blockPieces block piece object
    · exact ih true piece others

/-- The blocks of a safe chain close what they open, so the scan of the payload
comes out of them at the depth of the array. -/
theorem inStep_blocksPieces (comma : Bool) (blocks : List Block)
    (safe : ∀ block ∈ blocks, block.Safe) : InStep (blocksPieces comma blocks) := by
  induction blocks generalizing comma with
  | nil => exact inStep_nil
  | cons block rest ih =>
    have object := inStep_blockPieces block (safe block (by simp))
    have others := ih true fun other member => safe other (by simp [member])
    cases comma with
    | false => exact (inStep_nil.append object).append others
    | true => exact (inStep_comma.append object).append others

/-- What stands between the braces of a chain object. -/
def chainMiddle (chain : Blockchain) : List Piece :=
  fieldPieces (chainFields chain) ++ (blocksPieces false chain ++ [.plain [93]])

/-- The object of a chain is its middle between two braces. -/
theorem render_chainPieces (chain : Blockchain) :
    render (chainPieces chain) = 123 :: (render (chainMiddle chain) ++ [125]) := by
  simp [chainPieces, chainMiddle]

/-- The middle of a safe chain is in step. -/
theorem inStep_chainMiddle (chain : Blockchain) (safe : ∀ block ∈ chain, block.Safe) :
    InStep (chainMiddle chain) := by
  have blocks := inStep_blocksPieces false chain safe
  have list := blocks.wrap 91 93 (by decide) (by decide)
  have length := (sameCount_field ⟨ascii "length", .plain (signedDecimal chain.length), 44⟩
    (flatKey (ascii "length") (by decide)) (by decide : 92 ∉ ascii "length") rfl).trans
      (sameCount_plain _ (flat_bracketWeight_signed _))
  have key := sameCount_quoted (ascii "blocks") (flatKey _ (by decide)) (by decide)
  have colon := sameCount_plain [58] (flatKey _ (by decide))
  have nothing := sameCount_plain [] (flatKey _ rfl)
  have same := length.append (key.append (colon.append (nothing.append
    (SameCount.refl ([.plain [91]] ++ (blocksPieces false chain ++ [.plain [93]]))))))
  exact InStep.of_sameCount same list

/-- And its pieces are clean. -/
theorem clean_chainMiddle (chain : Blockchain) : ∀ piece ∈ chainMiddle chain, Clean piece := by
  have values : ∀ field ∈ chainFields chain, ∀ text, field.value = .plain text → 92 ∉ text := by
    simp only [chainFields, List.mem_cons, List.not_mem_nil, or_false]
    rintro field (rfl | rfl) text same <;> cases same
    · exact signedDecimal_no_backslash _
    · decide
  have closes : ∀ field ∈ chainFields chain, field.close ≠ 92 := by simp [chainFields]
  intro piece member
  rcases List.mem_append.mp member with field | others
  · exact clean_fieldPieces _ (chainFields_valid chain) values closes piece field
  · rcases List.mem_append.mp others with object | last
    · exact clean_blocksPieces false chain piece object
    · obtain rfl := List.mem_singleton.mp last
      exact clean_byte 93 (by decide) (by decide)

/-! ## Lines -/

/-- The text of a message without its newline, as `read_message` returns it. -/
def Message.line (message : Message) : List UInt8 := message.text.dropLast

/-- The line of an envelope is parsed whole. -/
theorem parse_line (type : MsgType) (rest : List Piece) (oneLine : ∀ c ∈ render rest, Inline c)
    (formed : WellFormed (rest ++ [.plain [125]])) :
    protocolParseMsg (cstr (render (envelopePieces type rest))) =
      (type.code, some (scanPayload none 0 false (123 :: (render rest ++ [125])))) := by
  have clean : 0 ∉ render (envelopePieces type rest) := fun member =>
    (inline_envelope type rest oneLine 0 member).1 rfl
  rw [cstr_eq_self _ clean]
  exact protocolParseMsg_envelope type rest formed

/-- The text behind the opening brace of a block. -/
def blockRest (block : Block) : List Piece := blockMiddle block ++ [.plain [93, 125]]

/-- The scan of the payload starts behind the opening brace. -/
theorem render_blockRest (block : Block) :
    render (blockPieces block []) = 123 :: render (blockRest block) := by
  simp [blockPieces_eq, blockRest]

/-- The message of a block as pieces of an envelope. -/
theorem newBlock_text (block : Block) (unquoted : block.Unquoted) :
    (Message.newBlock block).text = render (envelopePieces .newBlock (blockRest block)) ++ [10] := by
  rw [Message.text, protocolSerializeBlock_eq block unquoted]
  exact protocolSerializeMsg_eq _ _ _ (render_blockRest block)

/-- And its line, without the newline. -/
theorem newBlock_line (block : Block) (unquoted : block.Unquoted) :
    (Message.newBlock block).line = render (envelopePieces .newBlock (blockRest block)) := by
  rw [Message.line, newBlock_text block unquoted, List.dropLast_concat]

/-- The rest of a block stays inside a line. -/
theorem inline_blockRest (block : Block) (oneLine : block.OneLine) :
    ∀ c ∈ render (blockRest block), Inline c := by
  intro c member
  exact inline_blockPieces block oneLine c (by simp [render_blockRest, member])

/-- What `handle_message` reads from the pieces of a block: the block itself, up
to unused slots, if the scanners are not led astray by its texts. -/
theorem decode_blockRest (block : Block) (hashes : block.HashesPlain) (oneLine : block.OneLine)
    (range : block.CountInRange) (braces : BracesMatch block.listed)
    (enclosed : Enclosed bracketWeight 1 (exposed block.listed)) :
    decode (render (envelopePieces .newBlock (blockRest block))) = some (.newBlock block.compact) := by
  have formed : WellFormed (blockRest block ++ [.plain [125]]) := by
    have object := wellFormed_blockPieces block [.plain [125]] ⟨by decide, trivial⟩
    rw [blockPieces_eq, List.append_assoc] at object
    exact object.2
  have parsed := parse_line .newBlock (blockRest block) (inline_blockRest block oneLine)
    formed
  obtain ⟨extra, either, scanned⟩ := scanPayload_block block hashes enclosed
  rw [render_blockRest, List.cons_append] at scanned
  have plainExtra : 34 ∉ extra := by
    rcases either with rfl | rfl <;> decide
  have read := protocolDeserializeBlock_render block extra plainExtra range braces
  rw [decode, parsed, scanned]
  simp [read]

/-- A block arrives as it was sent, up to unused slots, if its braces match and
none that counts leads the scan of the payload out of it. -/
theorem decode_newBlock (block : Block) (unquoted : block.Unquoted) (oneLine : block.OneLine)
    (range : block.CountInRange) (braces : BracesMatch block.listed)
    (enclosed : Enclosed bracketWeight 1 (exposed block.listed)) :
    decode (Message.newBlock block).line = some (.newBlock block.compact) := by
  rw [newBlock_line block unquoted]
  exact decode_blockRest block unquoted.hashesPlain oneLine range braces enclosed

/-- The text behind the opening brace of a transaction. -/
def txRest (tx : Tx) : List Piece := innerPieces tx ++ [.plain [125]]

/-- The same place in a transaction. -/
theorem render_txRest (tx : Tx) : render (txPieces tx) = 123 :: render (txRest tx) := by
  simp [txPieces_eq, txRest]

/-- The message of a transaction as pieces of an envelope. -/
theorem newTx_text (tx : Tx) (unquoted : tx.Unquoted) :
    (Message.newTx tx).text = render (envelopePieces .newTx (txRest tx)) ++ [10] := by
  rw [Message.text, protocolSerializeTx_eq tx unquoted]
  exact protocolSerializeMsg_eq _ _ _ (render_txRest tx)

/-- The rest of a transaction stays inside a line. -/
theorem inline_txRest (tx : Tx) (oneLine : tx.OneLine) : ∀ c ∈ render (txRest tx), Inline c := by
  intro c member
  exact inline_txPieces tx oneLine c (by simp [render_txRest, member])

/-- The strings of a transaction end where they were meant to end. -/
theorem clean_innerPieces (tx : Tx) : ∀ piece ∈ innerPieces tx, Clean piece := by
  intro piece member
  refine clean_txPieces tx piece ?_
  rw [txPieces_eq]
  simp [member]

/-- The payload of a transaction message is found, possibly with the last brace
of the message behind it. -/
theorem scanPayload_tx (tx : Tx) (enclosed : Enclosed bracketWeight 1 (exposed [tx])) :
    ∃ extra, (extra = [] ∨ extra = [125]) ∧
      scanPayload none 0 false (123 :: (render (innerPieces tx) ++ [125, 125])) =
        123 :: (render (innerPieces tx) ++ 125 :: extra) := by
  have texts : exposed [tx] = countedText false (textPieces tx) := by
    simp [exposed, allTextPieces]
  obtain ⟨text, phase⟩ := sameCount_innerPieces tx false
  rw [texts, ← enclosed_brackets bracketWeight 1 one_pos, ← text,
    enclosed_brackets bracketWeight 1 one_pos] at enclosed
  have still := enclosed_rise bracketWeight 1 one_pos _ enclosed
  obtain ⟨last, counts, scanned⟩ := scanPayload_pieces (innerPieces tx) (some 123) 1 false [125, 125]
    (by decide) (clean_innerPieces tx) one_pos enclosed (by simp)
  have closing (phase : Bool) (depth : Int) (positive : 0 < depth) :
      ∃ extra, (extra = [] ∨ extra = [125]) ∧ scanPayload last depth phase [125, 125] = 125 :: extra := by
    cases phase with
    | true => exact ⟨[125], Or.inr rfl, by simp [scanPayload, positive]⟩
    | false =>
      rcases Int.lt_or_le 1 depth with deep | flat
      · exact ⟨[125], Or.inr rfl, by simp [scanPayload, deep]⟩
      · exact ⟨[], Or.inl rfl, by simp [scanPayload, not_lt.mpr flat]⟩
  obtain ⟨extra, either, found⟩ := closing (phaseAfter false (innerPieces tx))
    (1 + rise bracketWeight (countedText false (innerPieces tx))) still
  exact ⟨extra, either, by rw [scanPayload_open _ (by simp), scanned, found]⟩

/-- What `handle_message` reads from the line of a transaction: the transaction
itself, if the scan of the payload is not led astray by its texts. -/
theorem decode_tx (tx : Tx) (unquoted : tx.Unquoted) (oneLine : tx.OneLine)
    (enclosed : Enclosed bracketWeight 1 (exposed [tx])) :
    decode (Message.newTx tx).line = some (.newTx tx) := by
  have formed : WellFormed (txRest tx ++ [.plain [125]]) := by
    have object := wellFormed_txPieces tx [.plain [125]] ⟨by decide, trivial⟩
    rw [txPieces_eq, List.append_assoc] at object
    exact object.2
  have parsed := parse_line .newTx (txRest tx) (inline_txRest tx oneLine) formed
  obtain ⟨extra, either, scanned⟩ := scanPayload_tx tx enclosed
  have shape : 123 :: (render (txRest tx) ++ [125]) = 123 :: (render (innerPieces tx) ++ [125, 125]) := by
    simp [txRest]
  have read := protocolDeserializeTx_render tx [.plain extra]
    ⟨by rcases either with rfl | rfl <;> decide, trivial⟩
  have whole : render (txPieces tx ++ [.plain extra]) = 123 :: (render (innerPieces tx) ++ 125 :: extra) := by
    simp [txPieces_eq]
  rw [whole] at read
  rw [decode, Message.line, newTx_text tx unquoted, List.dropLast_concat, parsed, shape, scanned]
  simp [MsgType.code, read]

/-- A plain transaction arrives as it was sent. -/
theorem decode_newTx (tx : Tx) (plain : tx.Plain) :
    decode (Message.newTx tx).line = some (.newTx tx) :=
  decode_tx tx plain.safe.unquoted plain.oneLine (by
    rw [exposed_safe [tx] (by simpa using plain.safe)]
    trivial)

/-- The text behind the opening brace of a chain. -/
def chainRest (chain : Blockchain) : List Piece := chainMiddle chain ++ [.plain [125]]

/-- The same place in a chain. -/
theorem render_chainRest (chain : Blockchain) :
    render (chainPieces chain) = 123 :: render (chainRest chain) := by
  simp [render_chainPieces, chainRest]

/-- The message of a chain as pieces of an envelope. -/
theorem chainResponse_text (chain : Blockchain) (fits : chain.length ≤ maxBlocks)
    (safe : ∀ block ∈ chain, block.Safe) : (Message.chainResponse chain).text =
      render (envelopePieces .chainResponse (chainRest chain)) ++ [10] := by
  rw [Message.text, protocolSerializeChain_eq chain fits safe]
  exact protocolSerializeMsg_eq _ _ _ (render_chainRest chain)

/-- The rest of a chain stays inside a line. -/
theorem inline_chainRest (chain : Blockchain) (oneLine : ∀ block ∈ chain, block.OneLine) :
    ∀ c ∈ render (chainRest chain), Inline c := by
  intro c member
  exact inline_chainPieces chain oneLine c (by simp [render_chainRest, member])

/-- The payload of a chain response is the text of the chain, newlines in it
included. -/
theorem protocolParseMsg_chain (chain : Blockchain) (safe : ∀ block ∈ chain, block.Safe) :
    protocolParseMsg (render (envelopePieces .chainResponse (chainRest chain))) =
      (MsgType.chainResponse.code, some (render (chainPieces chain))) := by
  have formed : WellFormed (chainRest chain ++ [.plain [125]]) := by
    have list := wellFormed_blocksPieces false chain [.plain [93], .plain [125], .plain [125]]
      ⟨by decide, by decide, by decide, trivial⟩
    have object := wellFormed_fields _ _ (chainFields_valid chain) list
    simpa [chainRest, chainMiddle] using object
  have scanned := scanPayload_object (chainMiddle chain) (clean_chainMiddle chain)
    (inStep_chainMiddle chain safe) [125]
  have shape : 123 :: (render (chainRest chain) ++ [125]) =
      123 :: (render (chainMiddle chain) ++ 125 :: [125]) := by
    simp [chainRest]
  rw [protocolParseMsg_envelope .chainResponse (chainRest chain) formed, shape, scanned,
    render_chainPieces]

/-- A chain arrives as it was sent, up to unused slots. It has to fit the
receiver's array, and an empty one is refused. -/
theorem decode_chainResponse (chain : Blockchain) (nonempty : chain ≠ [])
    (fits : chain.length ≤ maxBlocks) (safe : ∀ block ∈ chain, block.Safe)
    (oneLine : ∀ block ∈ chain, block.OneLine) :
    decode (Message.chainResponse chain).line = some (.chainResponse (chain.map Block.compact)) := by
  have clean : 0 ∉ render (envelopePieces .chainResponse (chainRest chain)) := fun member =>
    (inline_envelope _ _ (inline_chainRest chain oneLine) 0 member).1 rfl
  have read := protocolDeserializeChain_render chain nonempty fits safe
  rw [decode, Message.line, chainResponse_text chain fits safe, List.dropLast_concat,
    cstr_eq_self _ clean, protocolParseMsg_chain chain safe]
  simp [MsgType.code, read]

/-- A chain response without its newline is parsed into the chain it was written
from, for every chain whose texts have no quotation mark, backslash or brace,
and whose numbers are any that the types hold. -/
theorem chain_round_trip (chain : Blockchain) (nonempty : chain ≠ [])
    (fits : chain.length ≤ maxBlocks) (safe : ∀ block ∈ chain, block.Safe) :
    ∃ line payload,
      protocolSerializeMsg .chainResponse (some (protocolSerializeChain chain)) = line ++ [10] ∧
      protocolParseMsg line = (MsgType.chainResponse.code, some payload) ∧
      protocolDeserializeChain payload = some (chain.map Block.compact) := by
  refine ⟨_, _, chainResponse_text chain fits safe, protocolParseMsg_chain chain safe, ?_⟩
  exact protocolDeserializeChain_render chain nonempty fits safe

/-- A block with the largest index and nonce, the least timestamp and a newline
in a text. -/
def extremeBlock : Block :=
  { Block.zero with
    index := 4294967295
    timestamp := -9223372036854775808
    nonce := 18446744073709551615
    prevHash := CText.ofBytes (ascii "[,]:")
    transactions := fillSlots [{ Tx.zero with
      receiver := CText.ofBytes [97, 10, 98]
      amount := 18446744073709551615
      fee := 18446744073709551615 }]
    txCount := 1 }

/-- The block with extreme numbers, through serialiser, envelope and both
parsers: the largest index and nonce, the least timestamp, and a newline in a
text. -/
theorem extremeBlock_round_trip :
    ∃ line payload,
      protocolSerializeMsg .chainResponse (some (protocolSerializeChain [extremeBlock])) =
        line ++ [10] ∧
      protocolParseMsg line = (MsgType.chainResponse.code, some payload) ∧
      protocolDeserializeChain payload = some ([extremeBlock].map Block.compact) := by
  refine chain_round_trip [extremeBlock] (by simp) (by decide) fun block member => ?_
  obtain rfl := List.mem_singleton.mp member
  exact ⟨by decide, by decide, by decide, by decide⟩

/-! ## Plain messages -/

/-- Messages whose texts cannot lead the scanners astray. Each kind has its own
condition, and a chain must fit the array as well. -/
def Message.Plain : Message → Prop
  | .newBlock block => block.Plain
  | .newTx tx => tx.Plain
  | .chainResponse chain => chain ≠ [] ∧ chain.length ≤ maxBlocks ∧ ∀ block ∈ chain, block.Plain
  | .requestChain | .ping | .pong => True

/-- Messages without a payload. -/
theorem bare_text (type : MsgType) :
    protocolSerializeMsg type none = render (envelopePieces type [.plain [125]]) ++ [10] :=
  protocolSerializeMsg_eq type none _ (by decide)

/-- The text of a plain message is one line and a newline. -/
theorem Message.Plain.text {message : Message} (plain : message.Plain) :
    message.text = message.line ++ [10] ∧ ∀ c ∈ message.line, Inline c := by
  have close (type : MsgType) (rest : List Piece) (oneLine : ∀ c ∈ render rest, Inline c)
      (text : message.text = render (envelopePieces type rest) ++ [10]) :
      message.text = message.line ++ [10] ∧ ∀ c ∈ message.line, Inline c := by
    rw [Message.line, text, List.dropLast_concat]
    exact ⟨rfl, inline_envelope type rest oneLine⟩
  have bare : ∀ c ∈ render [.plain [125]], Inline c := by decide
  cases message with
  | newBlock block =>
    exact close _ _ (inline_blockRest block (Block.Plain.oneLine plain)) (newBlock_text block
      (Block.Plain.safe plain).unquoted)
  | newTx tx => exact close _ _ (inline_txRest tx (Tx.Plain.oneLine plain)) (newTx_text tx
      (Tx.Plain.safe plain).unquoted)
  | requestChain => exact close _ _ bare (bare_text _)
  | chainResponse chain =>
    obtain ⟨-, fits, blocks⟩ := plain
    exact close _ _ (inline_chainRest chain fun block member => (blocks block member).oneLine)
      (chainResponse_text chain fits fun block member => (blocks block member).safe)
  | ping => exact close _ _ bare (bare_text _)
  | pong => exact close _ _ bare (bare_text _)

/-- A plain message is read back from its line. Pongs are ignored. -/
theorem decode_plain (message : Message) (plain : message.Plain) (acts : message ≠ .pong) :
    decode message.line = some message := by
  cases message with
  | newBlock block =>
    have plain : block.Plain := plain
    have read := decode_newBlock block plain.safe.unquoted plain.oneLine plain.range
      (bracesMatch_safe _ plain.safe.txs) (by rw [exposed_safe _ plain.safe.txs]; trivial)
    rw [read, plain.compact]
  | newTx tx => exact decode_newTx tx plain
  | requestChain => decide
  | chainResponse chain =>
    obtain ⟨nonempty, fits, blocks⟩ := plain
    have compact : chain.map Block.compact = chain := by
      conv_rhs => rw [← List.map_id chain]
      exact List.map_congr_left fun block member => (blocks block member).compact
    rw [decode_chainResponse chain nonempty fits (fun block member => (blocks block member).safe)
      fun block member => (blocks block member).oneLine, compact]
  | ping => decide
  | pong => exact absurd rfl acts

/-- A node reacts to the line of a plain message as to the message. -/
theorem handleMessage_line (node : Node ssl) (fd : Nat) (message : Message) (plain : message.Plain) :
    handleMessage node fd message.line = react node fd message := by
  rw [handleMessage_eq]
  by_cases acts : message = .pong
  · subst acts
    rw [show decode (Message.pong).line = none by decide]
    rfl
  · rw [decode_plain message plain acts]

/-! ## Reading lines -/

/-- A line that fits the buffer is read whole. -/
theorem readLoop_line (room : Nat) (line rest : List UInt8) (oneLine : 10 ∉ line)
    (fits : line.length < room) : readLoop room (line ++ 10 :: rest) = some (line, rest) := by
  induction line generalizing room with
  | nil =>
    obtain ⟨room, rfl⟩ : ∃ less, room = less + 1 := ⟨room - 1, by
      simp only [List.length_nil] at fits
      omega⟩
    simp [readLoop]
  | cons c tail ih =>
    obtain ⟨room, rfl⟩ : ∃ less, room = less + 1 := ⟨room - 1, by omega⟩
    have other : c ≠ 10 := fun same => oneLine (by simp [same])
    have later := ih room (fun member => oneLine (by simp [member])) (by simpa using fits)
    simp [readLoop, other, later]

/-- A line that is short enough is read whole, and the rest stays in the
socket. -/
theorem readMessage_line (line rest : List UInt8) (oneLine : 10 ∉ line)
    (short : line.length < maxMsgSize - 1) :
    readMessage (line ++ 10 :: rest) = some (line, rest) := readLoop_line _ line rest oneLine short

end MiniCoin
