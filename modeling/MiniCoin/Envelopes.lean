import MiniCoin.MessageCodec

/-!
# Where a payload ends

`protocol_parse_msg` finds the payload of an envelope exactly if its brackets are in step: the
scan, which takes a quotation mark behind a backslash for an escaped one, comes back to depth
zero at the last byte of the payload and not before. Of a transaction or a block that depends on
the addresses alone, on which of them end in a backslash and on the brackets of those that the
scan takes for text between strings.
-/

namespace MiniCoin

open ByteStrings QuotedText Nesting

/-! ## Payloads that are cut -/

/-- A byte that brings the depth to zero ends the scan. -/
theorem scanPayload_stop (prev : Option UInt8) (depth : Int) (c : UInt8) (rest : List UInt8)
    (steady : c = 34 → prev = some 92) (low : ¬ 0 < depth + bracketWeight c) :
    scanPayload prev depth false (c :: rest) = [c] := by
  have noToggle : ¬ (c = 34 ∧ prev ≠ some 92) := fun both => both.2 (steady both.1)
  have step : (if c = 123 ∨ c = 91 then depth + 1
      else if c = 125 ∨ c = 93 then depth - 1 else depth) = depth + bracketWeight c := by
    unfold bracketWeight
    split_ifs <;> omega
  rw [scanPayload]
  simp only [noToggle, if_false, Bool.false_eq_true, step, low, false_and]

/-- Text between strings that brings the depth to zero ends the scan. -/
theorem scanPayload_text_short (prev : Option UInt8) (depth : Int) (text rest : List UInt8)
    (strong : guarded (prev == some 92) text) (broken : ¬ Enclosed bracketWeight depth text)
    (nonempty : rest ≠ []) :
    (scanPayload prev depth false (text ++ rest)).length ≤ text.length := by
  induction text generalizing prev depth with
  | nil => exact absurd trivial broken
  | cons c tail ih =>
    have steady : c = 34 → prev = some 92 := fun quote => by simpa using strong.1 quote
    rw [List.cons_append, List.length_cons]
    by_cases positive : 0 < depth + bracketWeight c
    · have later := ih (some c) (depth + bracketWeight c) (by simpa using strong.2)
        fun enclosed => broken ⟨positive, enclosed⟩
      rw [scanPayload_byte prev depth false c _ steady (by simpa using positive) (by simp [nonempty]),
        List.length_cons]
      simpa using later
    · rw [scanPayload_stop prev depth c _ steady positive]
      simp

/-- A piece whose counted text brings the depth to zero ends the scan. -/
theorem scanPayload_piece_short (piece : Piece) (prev : Option UInt8) (depth : Int) (inverted : Bool)
    (rest : List UInt8) (counts : prev ≠ some 92) (clean : Clean piece) (positive : 0 < depth)
    (broken : ¬ Enclosed bracketWeight depth (counted inverted piece)) (nonempty : rest ≠ []) :
    (scanPayload prev depth inverted (piece.render ++ rest)).length ≤ piece.render.length := by
  cases piece with
  | plain text =>
    cases inverted with
    | true => exact absurd trivial broken
    | false =>
      exact scanPayload_text_short prev depth text rest (guarded_of_absent text clean.1 _) broken
        nonempty
  | quoted body =>
    cases inverted with
    | false => exact absurd trivial broken
    | true =>
      have shape : (Piece.quoted body).render ++ rest = 34 :: (body ++ 34 :: rest) := by
        simp [Piece.render]
      have inside := scanPayload_text_short (some 34) depth body (34 :: rest) clean broken (by simp)
      rw [shape, scanPayload_quote prev depth true _ counts positive (by simp), List.length_cons]
      simp only [Piece.render, List.length_cons, List.length_append, Bool.not_true] at inside ⊢
      omega

/-- So do several pieces. -/
theorem scanPayload_pieces_short (pieces : List Piece) (prev : Option UInt8) (depth : Int)
    (inverted : Bool) (rest : List UInt8) (counts : prev ≠ some 92)
    (clean : ∀ piece ∈ pieces, Clean piece) (positive : 0 < depth)
    (broken : ¬ Enclosed bracketWeight depth (countedText inverted pieces)) (nonempty : rest ≠ []) :
    (scanPayload prev depth inverted (render pieces ++ rest)).length ≤ (render pieces).length := by
  induction pieces generalizing prev depth inverted with
  | nil => exact absurd trivial broken
  | cons piece others ih =>
    have shape : render (piece :: others) = piece.render ++ render others := rfl
    have nonempty' : render others ++ rest ≠ [] := by simp [nonempty]
    rw [countedText, enclosed_append, not_and] at broken
    rw [shape, List.append_assoc, List.length_append]
    by_cases here : Enclosed bracketWeight depth (counted inverted piece)
    · obtain ⟨last, counts', passed⟩ := scanPayload_piece piece prev depth inverted _ counts
        (clean piece (by simp)) positive here nonempty'
      have later := ih last _ (inverted != flips piece) counts'
        (fun other member => clean other (by simp [member]))
        (enclosed_rise bracketWeight depth positive _ here) (broken here)
      rw [passed, List.length_append]
      omega
    · have cut := scanPayload_piece_short piece prev depth inverted _ counts (clean piece (by simp))
        positive here nonempty'
      omega

/-! ## Payloads that are found -/

/-- A payload is found exactly if its pieces are in step. -/
theorem scanPayload_object_iff (middle : List Piece) (clean : ∀ piece ∈ middle, Clean piece) :
    scanPayload none 0 false (123 :: (render middle ++ [125, 125])) =
        123 :: (render middle ++ [125]) ↔ InStep middle := by
  constructor
  · intro found
    rw [scanPayload_open _ (by simp)] at found
    have inside := (List.cons.inj found).2
    have enclosed : Enclosed bracketWeight 1 (countedText false middle) := by
      by_contra broken
      have short := scanPayload_pieces_short middle (some 123) 1 false [125, 125] (by decide) clean
        one_pos broken (by simp)
      rw [inside, List.length_append] at short
      simp at short
    have still := enclosed_rise bracketWeight 1 one_pos _ enclosed
    obtain ⟨last, -, scanned⟩ := scanPayload_pieces middle (some 123) 1 false [125, 125] (by decide)
      clean one_pos enclosed (by simp)
    rw [scanned, List.append_cancel_left_eq] at inside
    cases phase : phaseAfter false middle with
    | true =>
      rw [phase] at inside
      simp [scanPayload, still] at inside
    | false =>
      rw [phase] at inside
      have flat : rise bracketWeight (countedText false middle) ≤ 0 := by
        simpa [scanPayload] using inside
      exact ⟨⟨enclosed, by omega⟩, phase⟩
  · intro inStep
    exact scanPayload_object middle clean inStep [125]

/-- Pieces that count alike are in step alike. -/
theorem inStep_congr {left right : List Piece} (same : SameCount left right) :
    InStep left ↔ InStep right :=
  ⟨InStep.of_sameCount same.symm, InStep.of_sameCount same⟩

/-- An envelope without its newline is parsed into its type and its payload
exactly if the payload is in step. -/
theorem protocolParseMsg_object_iff (type : MsgType) (payload : List UInt8) (middle : List Piece)
    (shape : payload = 123 :: (render middle ++ [125])) (clean : ∀ piece ∈ middle, Clean piece)
    (formed : WellFormed (middle ++ [.plain [125], .plain [125]])) :
    protocolParseMsg (protocolSerializeMsg type (some payload)).dropLast =
        (type.code, some payload) ↔ InStep middle := by
  have text : protocolSerializeMsg type (some payload) =
      render (envelopePieces type (middle ++ [.plain [125]])) ++ [10] := by
    apply protocolSerializeMsg_eq
    simp [shape]
  have parsed := protocolParseMsg_envelope type (middle ++ [.plain [125]]) (by simpa using formed)
  have scanned : render (middle ++ [.plain [125]]) ++ [125] = render middle ++ [125, 125] := by simp
  rw [text, List.dropLast_concat, parsed, scanned, shape, ← scanPayload_object_iff middle clean]
  simp

/-! ## Addresses -/

/-- Hexadecimal digits of either case, as `sscanf` reads both. -/
def HexText (text : List UInt8) : Prop := ∀ c ∈ text, (hexValue c).isSome

/-- A text can be tested. -/
instance (text : List UInt8) : Decidable (HexText text) := inferInstanceAs (Decidable (∀ c ∈ text, _))

/-- Signature and hash are hexadecimal. -/
def Tx.HexFields (tx : Tx) : Prop := HexText tx.signature.bytes ∧ HexText tx.txHash.bytes

/-- So can a transaction. -/
instance (tx : Tx) : Decidable tx.HexFields := inferInstanceAs (Decidable (_ ∧ _))

/-- The hashes of the block are hexadecimal, and signatures and hashes of its
transactions. -/
def Block.HexFields (block : Block) : Prop :=
  HexText block.prevHash.bytes ∧ HexText block.hash.bytes ∧ ∀ tx ∈ block.listed, tx.HexFields

/-- So can a block. -/
instance (block : Block) : Decidable block.HexFields := inferInstanceAs (Decidable (_ ∧ _))

/-- A byte that is no digit is absent. -/
theorem HexText.absent {text : List UInt8} (hex : HexText text) (c : UInt8)
    (other : hexValue c = none) : c ∉ text := by
  intro member
  have digit := hex c member
  rw [other] at digit
  cases digit

/-- So hexadecimal text has no brackets. -/
theorem HexText.flat {text : List UInt8} (hex : HexText text) : Flat bracketWeight text := by
  intro c member
  have noBracket (bracket : UInt8) (other : hexValue bracket = none) : c ≠ bracket := by
    rintro rfl
    exact hex.absent c other member
  rw [bracketWeight, if_neg, if_neg]
  · rintro (close | close)
    · exact noBracket 125 (by decide) close
    · exact noBracket 93 (by decide) close
  · rintro (opens | opens)
    · exact noBracket 123 (by decide) opens
    · exact noBracket 91 (by decide) opens

/-- Hexadecimal strings do not count. -/
theorem HexText.sameCount {text : List UInt8} (hex : HexText text) : SameCount [.quoted text] [] :=
  sameCount_quoted text hex.flat (hex.absent 92 (by decide))

/-- And neither quotation marks nor backslashes. -/
theorem Tx.HexFields.unquoted {tx : Tx} (hex : tx.HexFields) : tx.Unquoted where
  signature := ⟨hex.1.absent 34 (by decide), hex.1.absent 92 (by decide)⟩
  txHash := ⟨hex.2.absent 34 (by decide), hex.2.absent 92 (by decide)⟩

/-- The same of the hashes of a block and of its transactions. -/
theorem Block.HexFields.unquoted {block : Block} (hex : block.HexFields) : block.Unquoted where
  prevHash := ⟨hex.1.absent 34 (by decide), hex.1.absent 92 (by decide)⟩
  hash := ⟨hex.2.1.absent 34 (by decide), hex.2.1.absent 92 (by decide)⟩
  txs tx member := (hex.2.2 tx member).unquoted

/-- The addresses of a transaction, as strings. -/
def addressPieces (tx : Tx) : List Piece := [.quoted tx.sender.bytes, .quoted tx.receiver.bytes]

/-- The brackets of a block object inside its own braces, and the addresses
between them. -/
def blockAddressPieces (block : Block) : List Piece :=
  [.plain [91]] ++ (block.listed.flatMap (fun tx =>
    [.plain [123]] ++ (addressPieces tx ++ [.plain [125]])) ++ [.plain [93]])

/-- So only the addresses of a transaction count. -/
theorem sameCount_addressPieces (tx : Tx) (hex : tx.HexFields) :
    SameCount (innerPieces tx) (addressPieces tx) := by
  have others := hex.1.sameCount.append hex.2.sameCount
  have texts : SameCount (textPieces tx) (addressPieces tx) :=
    (SameCount.refl (addressPieces tx)).append others
  exact (sameCount_innerPieces tx).trans texts

/-- And those of all transactions, by induction on the list. -/
theorem sameCount_txsAddresses (comma : Bool) (txs : List Tx) (hex : ∀ tx ∈ txs, tx.HexFields) :
    SameCount (txsPieces comma txs)
      (txs.flatMap fun tx => [.plain [123]] ++ (addressPieces tx ++ [.plain [125]])) := by
  induction txs generalizing comma with
  | nil => exact SameCount.refl []
  | cons tx rest ih =>
    have texts : SameCount (textPieces tx) (addressPieces tx) :=
      (sameCount_innerPieces tx).symm.trans (sameCount_addressPieces tx (hex tx (by simp)))
    have object := (SameCount.refl [.plain [123]]).append (texts.append (SameCount.refl [.plain [125]]))
    have others := ih true fun other member => hex other (by simp [member])
    exact (sameCount_txsPieces_cons comma tx rest).trans (object.append others)

/-- And in a block the brackets of its array. -/
theorem sameCount_blockAddresses (block : Block) (hex : block.HexFields) :
    SameCount (blockMiddle block ++ [.plain [93]]) (blockAddressPieces block) := by
  have hashes := hex.1.sameCount.append hex.2.1.sameCount
  have header : SameCount (fieldPieces (blockFields block)) [.plain [91]] :=
    (sameCount_blockFields block).trans (hashes.append (SameCount.refl [.plain [91]]))
  have txs := sameCount_txsAddresses false block.listed hex.2.2
  have same := (header.append txs).append (SameCount.refl [.plain [93]])
  rw [blockAddressPieces, ← List.append_assoc]
  exact same

/-- The addresses of a transaction are in step if neither ends in a backslash,
or if both do and the brackets in the receiver are balanced. -/
theorem inStep_addressPieces (tx : Tx) : InStep (addressPieces tx) ↔
    endsInBackslash tx.sender.bytes = endsInBackslash tx.receiver.bytes ∧
      (endsInBackslash tx.sender.bytes = true → Balanced bracketWeight tx.receiver.bytes) := by
  have text : countedText false (addressPieces tx) =
      if endsInBackslash tx.sender.bytes then tx.receiver.bytes else [] := by
    simp [addressPieces, countedText, counted, flips]
  have phase : phaseAfter false (addressPieces tx) = false ↔
      endsInBackslash tx.sender.bytes = endsInBackslash tx.receiver.bytes := by
    simp [addressPieces, phaseAfter, flips]
  constructor
  · rintro ⟨balanced, step⟩
    refine ⟨phase.mp step, fun ends => ?_⟩
    rwa [text, if_pos ends] at balanced
  · rintro ⟨step, balanced⟩
    refine ⟨?_, phase.mpr step⟩
    rw [text]
    split
    · next ends => exact balanced ends
    · exact inStep_nil.balanced

/-! ## Round trips -/

/-- The payload of a transaction is read back from its envelope exactly if
neither address ends in a backslash, or if both do and the brackets in the
receiver are balanced. -/
theorem txEnvelope_iff (type : MsgType) (tx : Tx) (hex : tx.HexFields) :
    protocolParseMsg (protocolSerializeMsg type (some (protocolSerializeTx tx))).dropLast =
        (type.code, some (protocolSerializeTx tx)) ↔
      endsInBackslash tx.sender.bytes = endsInBackslash tx.receiver.bytes ∧
        (endsInBackslash tx.sender.bytes = true → Balanced bracketWeight tx.receiver.bytes) := by
  have shape : protocolSerializeTx tx = 123 :: (render (innerPieces tx) ++ [125]) := by
    rw [protocolSerializeTx_eq tx hex.unquoted, txPieces_eq]
    simp
  have formed : WellFormed (innerPieces tx ++ [.plain [125], .plain [125]]) := by
    have object := wellFormed_txPieces tx [.plain [125]] ⟨by decide, trivial⟩
    rw [txPieces_eq] at object
    simpa using object.2
  rw [protocolParseMsg_object_iff type _ _ shape (clean_innerPieces tx) formed,
    inStep_congr (sameCount_addressPieces tx hex), inStep_addressPieces]

/-- The payload of a block is read back from its envelope exactly if its
brackets and addresses are in step. -/
theorem blockEnvelope_iff (type : MsgType) (block : Block) (hex : block.HexFields) :
    protocolParseMsg (protocolSerializeMsg type (some (protocolSerializeBlock block))).dropLast =
        (type.code, some (protocolSerializeBlock block)) ↔ InStep (blockAddressPieces block) := by
  have shape : protocolSerializeBlock block =
      123 :: (render (blockMiddle block ++ [.plain [93]]) ++ [125]) := by
    rw [protocolSerializeBlock_eq block hex.unquoted, blockPieces_eq]
    simp
  have clean : ∀ piece ∈ blockMiddle block ++ [.plain [93]], Clean piece := by
    intro piece member
    rcases List.mem_append.mp member with middle | last
    · exact clean_blockMiddle block piece middle
    · obtain rfl := List.mem_singleton.mp last
      exact clean_byte 93 (by decide) (by decide)
  have formed : WellFormed ((blockMiddle block ++ [.plain [93]]) ++ [.plain [125], .plain [125]]) := by
    have object := wellFormed_fields (blockFields block)
      (txsPieces false block.listed ++ [.plain [93], .plain [125], .plain [125]])
      (blockFields_valid block)
      (wellFormed_txsPieces false block.listed [.plain [93], .plain [125], .plain [125]]
        ⟨by decide, by decide, by decide, trivial⟩)
    simpa [blockMiddle] using object
  rw [protocolParseMsg_object_iff type _ _ shape clean formed,
    inStep_congr (sameCount_blockAddresses block hex)]

/-- Transactions and blocks are read back from their envelopes exactly if their
addresses are in step. The scan takes a quotation mark behind a backslash for an
escaped one, even if the backslash itself is escaped. -/
theorem envelope_round_trip_iff (type : MsgType) (tx : Tx) (txHex : tx.HexFields) (block : Block)
    (blockHex : block.HexFields) :
    (protocolParseMsg (protocolSerializeMsg type (some (protocolSerializeTx tx))).dropLast =
        (type.code, some (protocolSerializeTx tx)) ↔
      endsInBackslash tx.sender.bytes = endsInBackslash tx.receiver.bytes ∧
        (endsInBackslash tx.sender.bytes = true → Balanced bracketWeight tx.receiver.bytes)) ∧
    (protocolParseMsg (protocolSerializeMsg type (some (protocolSerializeBlock block))).dropLast =
        (type.code, some (protocolSerializeBlock block)) ↔ InStep (blockAddressPieces block)) := by
  constructor
  · exact txEnvelope_iff type tx txHex
  · exact blockEnvelope_iff type block blockHex

/-- A payment between two addresses. -/
def paymentBetween (sender receiver : List UInt8) : Tx :=
  { Tx.zero with
    sender := CText.ofBytes sender
    receiver := CText.ofBytes receiver
    amount := 1
    txHash := CText.ofBytes (List.replicate 64 102) }

/-- Both addresses end in a backslash, and the brackets are balanced. -/
def bracketedPayment : Tx := paymentBetween (ascii "a\\") (ascii "[b]\\")

/-- A block that lists this payment. -/
def bracketedBlock : Block :=
  { Block.zero with
    transactions := fillSlots [bracketedPayment]
    txCount := 1 }

/-- Their signatures and hashes are hexadecimal. -/
theorem bracketed_hexFields : bracketedPayment.HexFields ∧ bracketedBlock.HexFields := by
  decide +kernel

/-- The payment survives the envelope because its brackets are balanced,
although both addresses turn the phase around. -/
theorem envelope_round_trip_iff_here :
    (protocolParseMsg
        (protocolSerializeMsg .newTx (some (protocolSerializeTx bracketedPayment))).dropLast =
        (MsgType.newTx.code, some (protocolSerializeTx bracketedPayment)) ↔
      endsInBackslash bracketedPayment.sender.bytes = endsInBackslash bracketedPayment.receiver.bytes ∧
        (endsInBackslash bracketedPayment.sender.bytes = true →
          Balanced bracketWeight bracketedPayment.receiver.bytes)) ∧
    (protocolParseMsg
        (protocolSerializeMsg .newTx (some (protocolSerializeBlock bracketedBlock))).dropLast =
        (MsgType.newTx.code, some (protocolSerializeBlock bracketedBlock)) ↔
      InStep (blockAddressPieces bracketedBlock)) :=
  envelope_round_trip_iff .newTx bracketedPayment bracketed_hexFields.1 bracketedBlock
    bracketed_hexFields.2

/-- The payload of a sender that ends in a backslash runs into the envelope: the
closing brace of the object is taken for a byte of a string. -/
theorem envelope_overrun : (paymentBetween (ascii "a\\") (ascii "b")).HexFields ∧
    protocolParseMsg (protocolSerializeMsg .newTx (some (protocolSerializeTx
      (paymentBetween (ascii "a\\") (ascii "b"))))).dropLast ≠
      (MsgType.newTx.code, some (protocolSerializeTx (paymentBetween (ascii "a\\") (ascii "b")))) := by
  decide +kernel

end MiniCoin
