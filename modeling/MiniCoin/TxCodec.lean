import MiniCoin.SerializedTexts

/-!
# Transactions as text

`protocol_serialize_tx` writes the fields of a transaction and `protocol_deserialize_tx`
finds them again, also when other text follows the object. Sender and receiver may hold
any bytes. The signature and the stored hash are written without escaping, so they are
read back if they contain no quotation mark and no backslash.
-/

namespace MiniCoin

open ByteStrings QuotedText

/-- The signature and the stored hash can be written as they are.
`protocol_serialize_tx` does not escape them. -/
structure Tx.Unquoted (tx : Tx) : Prop where
  signature : 34 ∉ tx.signature.bytes ∧ 92 ∉ tx.signature.bytes
  txHash : 34 ∉ tx.txHash.bytes ∧ 92 ∉ tx.txHash.bytes

/-- The fields of a transaction in the order of `protocol_serialize_tx`. -/
def txFields (tx : Tx) : List Field := [
  ⟨ascii "sender", .quoted (escape tx.sender.bytes), 44⟩,
  ⟨ascii "receiver", .quoted (escape tx.receiver.bytes), 44⟩,
  ⟨ascii "amount", .plain (decimal tx.amount.toNat), 44⟩,
  ⟨ascii "fee", .plain (decimal tx.fee.toNat), 44⟩,
  ⟨ascii "signature", .quoted (escape tx.signature.bytes), 44⟩,
  ⟨ascii "tx_hash", .quoted (escape tx.txHash.bytes), 125⟩]

/-- The pieces of a transaction object. -/
def txPieces (tx : Tx) : List Piece := .plain [123] :: fieldPieces (txFields tx)

/-- The pieces between the braces. -/
def innerPieces (tx : Tx) : List Piece :=
  fieldPieces ((txFields tx).take 5) ++
    [.quoted (ascii "tx_hash"), .plain [58], .quoted (escape tx.txHash.bytes)]

/-- The object is its inner pieces between two braces. -/
theorem txPieces_eq (tx : Tx) :
    txPieces tx = [.plain [123]] ++ (innerPieces tx ++ [.plain [125]]) := by
  simp [txPieces, innerPieces, txFields, Field.pieces]

/-- A number has no quotation mark. -/
theorem decimal_no_quote (n : Nat) : 34 ∉ decimal n := fun member =>
  absurd (decimal_digits n 34 member) (by decide)

/-- Every field is one that a search by keys passes over or finds: texts are
escaped, and so guarded. -/
theorem txFields_valid (tx : Tx) : ∀ field ∈ txFields tx, field.Valid := by
  simp only [txFields, List.mem_cons, List.not_mem_nil, or_false]
  rintro field (rfl | rfl | rfl | rfl | rfl | rfl)
  · exact valid_quoted _ _ _ (by decide) (guarded_escape _) (by decide)
  · exact valid_quoted _ _ _ (by decide) (guarded_escape _) (by decide)
  · exact valid_plain _ _ _ (by decide) (decimal_no_quote _) (by decide)
  · exact valid_plain _ _ _ (by decide) (decimal_no_quote _) (by decide)
  · exact valid_quoted _ _ _ (by decide) (guarded_escape _) (by decide)
  · exact valid_quoted _ _ _ (by decide) (guarded_escape _) (by decide)

/-- The keys of these fields. -/
def txKeys : List (List UInt8) :=
  [ascii "sender", ascii "receiver", ascii "amount", ascii "fee", ascii "signature", ascii "tx_hash"]

/-- They are the keys of the fields. -/
theorem txFields_keys (tx : Tx) : (txFields tx).map Field.key = txKeys := rfl

/-- A transaction object with other pieces behind it. -/
theorem txObject (tx : Tx) (tail : List Piece) (tailFormed : WellFormed tail) :
    ObjectText (render (txPieces tx ++ tail)) (txFields tx) tail where
  text := ⟨[123], by decide, rfl⟩
  valid := txFields_valid tx
  tailFormed := tailFormed
  keys := by
    rw [txFields_keys]
    decide
  distinct := by
    rw [txFields_keys]
    decide

/-- Whatever follows the object, the transaction is read. -/
theorem protocolDeserializeTx_render (tx : Tx) (tail : List Piece) (tailFormed : WellFormed tail) :
    protocolDeserializeTx (render (txPieces tx ++ tail)) = (0, tx) := by
  have object := txObject tx tail tailFormed
  have sender := jsonGetString_field addrLen tx.sender object 0 rfl rfl
  have receiver := jsonGetString_field addrLen tx.receiver object 1 rfl rfl
  have amount := jsonGetUint64_field tx.amount object 2 rfl rfl rfl
  have fee := jsonGetUint64_field tx.fee object 3 rfl rfl rfl
  have signature := jsonGetString_field sigLen tx.signature object 4 rfl rfl
  have txHash := jsonGetString_field 65 tx.txHash object 5 rfl rfl
  simp only at sender receiver amount fee signature txHash
  simp only [protocolDeserializeTx, sender, receiver, amount, fee, signature, txHash,
    Option.getD_some]

/-! ## The serialiser -/

/-- The texts between the values, as keys in quotation marks. -/
theorem txPunctuation :
    ascii "\x7b\"sender\":\"" = 123 :: 34 :: (ascii "sender" ++ [34, 58, 34]) ∧
    ascii "\",\"receiver\":\"" = 34 :: 44 :: 34 :: (ascii "receiver" ++ [34, 58, 34]) ∧
    ascii "\",\"amount\":" = 34 :: 44 :: 34 :: (ascii "amount" ++ [34, 58]) ∧
    ascii ",\"fee\":" = 44 :: 34 :: (ascii "fee" ++ [34, 58]) ∧
    ascii ",\"signature\":\"" = 44 :: 34 :: (ascii "signature" ++ [34, 58, 34]) ∧
    ascii "\",\"tx_hash\":\"" = 34 :: 44 :: 34 :: (ascii "tx_hash" ++ [34, 58, 34]) ∧
    ascii "\"\x7d" = [34, 125] := by decide

/-- The text of a transaction is its pieces. Signature and hash are not escaped
by the source, so they must not need it. -/
theorem txText_eq (tx : Tx) (unquoted : tx.Unquoted) : txText tx = render (txPieces tx) := by
  obtain ⟨p1, p2, p3, p4, p5, p6, p7⟩ := txPunctuation
  rw [txText, p1, p2, p3, p4, p5, p6, p7]
  simp [txPieces, txFields, Field.pieces, escape_eq_self _ unquoted.signature.1 unquoted.signature.2,
    escape_eq_self _ unquoted.txHash.1 unquoted.txHash.2]

/-- A transaction object has fewer than 600 bytes. -/
theorem txPieces_length (tx : Tx) (unquoted : tx.Unquoted) :
    (render (txPieces tx)).length < 600 := by
  have short := txText_length tx
  rw [← txText_eq tx unquoted]
  omega

/-- The serialiser writes the pieces, and its buffer is large enough for
them. -/
theorem protocolSerializeTx_eq (tx : Tx) (unquoted : tx.Unquoted) :
    protocolSerializeTx tx = render (txPieces tx) :=
  (protocolSerializeTx_text tx).trans (txText_eq tx unquoted)

/-- A transaction is read back from its own text, whatever its addresses are: a
key inside an escaped address is never followed by the colon of a key. -/
theorem tx_round_trip (tx : Tx) (unquoted : tx.Unquoted) :
    protocolDeserializeTx (protocolSerializeTx tx) = (0, tx) := by
  rw [protocolSerializeTx_eq tx unquoted]
  simpa using protocolDeserializeTx_render tx [] trivial

/-- A sender that looks like a key, and 64 backslashes as the receiver. -/
def trickyTx : Tx where
  sender := CText.ofBytes (ascii "\",\"receiver\":\"\x7d\\")
  receiver := CText.ofBytes (List.replicate 64 92)
  amount := 18446744073709551615
  fee := 18446744073709551615
  signature := CText.ofBytes (ascii "[\x7b0,")
  txHash := CText.ofBytes (List.replicate 64 102)

/-- The transaction with keys and quotation marks in its addresses, written and
read back. -/
theorem trickyTx_round_trip :
    protocolDeserializeTx (protocolSerializeTx trickyTx) = (0, trickyTx) :=
  tx_round_trip trickyTx ⟨by decide, by decide⟩

end MiniCoin
