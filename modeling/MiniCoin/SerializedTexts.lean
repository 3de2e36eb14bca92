import MiniCoin.FieldLookup

/-!
# The texts in full

What the serialisers of `protocol.c` print if their buffers have no end, and how long it is at
most. Every field is bounded by its array or by its type, so the buffers of 1024, 8192, 16384 and
`length * 16384 + 256` bytes take the whole text, whatever the fields hold.
-/

namespace MiniCoin

open ByteStrings QuotedText

/-- Escaping at most doubles a text, and an array of `size` bytes holds one
less. -/
theorem escape_bytes_length (size : Nat) (text : CText size) :
    (escape text.bytes).length ≤ 2 * (size - 1) := by
  have doubled := escape_length text.bytes
  have bound := text.bound
  omega

/-- An escaped text has no terminator inside, since its text has none and a
backslash is not one. -/
theorem escape_clean (text : List UInt8) (clean : 0 ∉ text) : 0 ∉ escape text := fun member =>
  (mem_escape text 0 member).elim clean (by decide)

/-- An unsigned number of 64 bits has at most twenty digits. -/
theorem decimal_uint64_length (n : UInt64) : (decimal n.toNat).length ≤ 20 :=
  decimal_length n.toNat 20 (lt_trans n.toNat_lt (by decide)) (by decide)

/-- Digits are never the terminator. -/
theorem decimal_clean (n : Nat) : 0 ∉ decimal n := fun member =>
  absurd (decimal_digits n 0 member) (by decide)

/-- A signed number has at most one byte more than its magnitude has digits, the
minus sign. -/
theorem signedDecimal_length (z : Int) (digits : Nat) (small : z.natAbs < 10 ^ digits)
    (positive : 0 < digits) : (signedDecimal z).length ≤ digits + 1 := by
  have magnitude := decimal_length z.natAbs digits small positive
  unfold signedDecimal
  split
  · simpa using magnitude
  · omega

/-- Neither digits nor the minus sign are the terminator. -/
theorem signedDecimal_clean (z : Int) : 0 ∉ signedDecimal z := by
  unfold signedDecimal
  split
  · simp [decimal_clean]
  · exact decimal_clean _

/-! ## Transactions -/

/-- The object that `protocol_serialize_tx` prints. Only sender and receiver are
escaped, as in the source: signature and hash go through as they are. -/
def txText (tx : Tx) : List UInt8 :=
  ascii "\x7b\"sender\":\"" ++ escape tx.sender.bytes ++ ascii "\",\"receiver\":\"" ++
    escape tx.receiver.bytes ++ ascii "\",\"amount\":" ++ decimal tx.amount.toNat ++ ascii ",\"fee\":" ++
    decimal tx.fee.toNat ++ ascii ",\"signature\":\"" ++ tx.signature.bytes ++ ascii "\",\"tx_hash\":\"" ++
    tx.txHash.bytes ++ ascii "\"\x7d"

/-- The longest object has two escaped addresses of 128 bytes, two numbers of
twenty digits, a full signature and hash, and 72 bytes of keys and
punctuation. -/
theorem txText_length (tx : Tx) : (txText tx).length ≤ 560 := by
  have sender := escape_bytes_length addrLen tx.sender
  have receiver := escape_bytes_length addrLen tx.receiver
  have signature : tx.signature.bytes.length < 129 := tx.signature.bound
  have txHash : tx.txHash.bytes.length < 65 := tx.txHash.bound
  have amount := decimal_uint64_length tx.amount
  have fee := decimal_uint64_length tx.fee
  have constants : (ascii "\x7b\"sender\":\"").length = 11 ∧ (ascii "\",\"receiver\":\"").length = 14 ∧
      (ascii "\",\"amount\":").length = 11 ∧ (ascii ",\"fee\":").length = 7 ∧
      (ascii ",\"signature\":\"").length = 14 ∧ (ascii "\",\"tx_hash\":\"").length = 13 ∧
      (ascii "\"\x7d").length = 2 := by decide
  simp only [txText, List.length_append, constants, addrLen] at sender receiver ⊢
  omega

/-- No terminator stands inside the object, so its C string is the whole
text. -/
theorem txText_clean (tx : Tx) : 0 ∉ txText tx := by
  have constants : 0 ∉ ascii "\x7b\"sender\":\"" ∧ 0 ∉ ascii "\",\"receiver\":\"" ∧
      0 ∉ ascii "\",\"amount\":" ∧ 0 ∉ ascii ",\"fee\":" ∧ 0 ∉ ascii ",\"signature\":\"" ∧
      0 ∉ ascii "\",\"tx_hash\":\"" ∧ 0 ∉ ascii "\"\x7d" := by decide
  simp only [txText, List.mem_append, constants, escape_clean _ tx.sender.clean,
    escape_clean _ tx.receiver.clean, decimal_clean, tx.signature.clean, tx.txHash.clean, or_self,
    not_false_eq_true]

/-- 560 bytes are below the 1024 of the buffer, so `snprintf` cuts nothing. -/
theorem protocolSerializeTx_text (tx : Tx) : protocolSerializeTx tx = txText tx := by
  have fits := txText_length tx
  simp only [protocolSerializeTx, jsonEscape_eq]
  exact snprintf_fits 1024 (txText tx) (by omega)

/-! ## Blocks -/

/-- The array of the transactions. -/
def txsText (txs : List Tx) : List UInt8 := ascii "[" ++ commaText false (txs.map txText) ++ ascii "]"

/-- The object that `protocol_serialize_block` prints, with the array of its
transactions. -/
def blockText (block : Block) : List UInt8 :=
  ascii "\x7b\"index\":" ++ decimal block.index.toNat ++ ascii ",\"timestamp\":" ++
    signedDecimal block.timestamp.toInt ++ ascii ",\"prev_hash\":\"" ++ block.prevHash.bytes ++
    ascii "\",\"nonce\":" ++ decimal block.nonce.toNat ++ ascii ",\"hash\":\"" ++ block.hash.bytes ++
    ascii "\",\"tx_count\":" ++ signedDecimal block.txCount.toInt ++ ascii ",\"transactions\":" ++
    txsText block.listed ++ ascii "\x7d"

/-- At most ten objects, nine commas and the brackets. -/
theorem txsText_length (txs : List Tx) (few : txs.length ≤ maxTxPerBlock) : (txsText txs).length ≤ 5612 := by
  have objects := commaText_length false (txs.map txText) 560 fun text member => by
    obtain ⟨tx, -, rfl⟩ := List.mem_map.mp member
    exact txText_length tx
  have brackets : (ascii "[").length = 1 ∧ (ascii "]").length = 1 := by decide
  have count : txs.length ≤ 10 := few
  simp only [txsText, List.length_append, List.length_map, brackets] at objects ⊢
  omega

/-- The array has no terminator inside, because no object has one. -/
theorem txsText_clean (txs : List Tx) : 0 ∉ txsText txs := by
  have objects := commaText_clean false (txs.map txText) fun text member => by
    obtain ⟨tx, -, rfl⟩ := List.mem_map.mp member
    exact txText_clean tx
  have brackets : 0 ∉ ascii "[" ∧ 0 ∉ ascii "]" := by decide
  simp only [txsText, List.mem_append, brackets, objects, or_self, not_false_eq_true]

/-- The bound of a whole block: the array, the numbers at full width and two
full hashes. -/
theorem blockText_length (block : Block) : (blockText block).length ≤ 5900 := by
  have txs := txsText_length block.listed block.listed_length_le
  have index := decimal_length block.index.toNat 10 (lt_trans block.index.toNat_lt (by decide)) (by decide)
  have nonce := decimal_uint64_length block.nonce
  have stampLower := block.timestamp.le_toInt
  have stampUpper := block.timestamp.toInt_lt
  have stamp := signedDecimal_length block.timestamp.toInt 19 (by omega) (by decide)
  have countLower := block.txCount.le_toInt
  have countUpper := block.txCount.toInt_lt
  have count := signedDecimal_length block.txCount.toInt 10 (by omega) (by decide)
  have prevHash : block.prevHash.bytes.length < 65 := block.prevHash.bound
  have hash : block.hash.bytes.length < 65 := block.hash.bound
  have constants : (ascii "\x7b\"index\":").length = 9 ∧ (ascii ",\"timestamp\":").length = 13 ∧
      (ascii ",\"prev_hash\":\"").length = 14 ∧ (ascii "\",\"nonce\":").length = 10 ∧
      (ascii ",\"hash\":\"").length = 9 ∧ (ascii "\",\"tx_count\":").length = 13 ∧
      (ascii ",\"transactions\":").length = 16 ∧ (ascii "\x7d").length = 1 := by decide
  simp only [blockText, List.length_append, constants]
  omega

/-- No terminator stands inside a block either. -/
theorem blockText_clean (block : Block) : 0 ∉ blockText block := by
  have constants : 0 ∉ ascii "\x7b\"index\":" ∧ 0 ∉ ascii ",\"timestamp\":" ∧ 0 ∉ ascii ",\"prev_hash\":\"" ∧
      0 ∉ ascii "\",\"nonce\":" ∧ 0 ∉ ascii ",\"hash\":\"" ∧ 0 ∉ ascii "\",\"tx_count\":" ∧
      0 ∉ ascii ",\"transactions\":" ∧ 0 ∉ ascii "\x7d" := by decide
  simp only [blockText, List.mem_append, constants, decimal_clean, signedDecimal_clean, block.prevHash.clean,
    block.hash.clean, txsText_clean, or_self, not_false_eq_true]

/-- The transaction buffer takes all objects of a block and the brackets. -/
theorem appendTransactions_text (txs : List Tx) (few : txs.length ≤ maxTxPerBlock) :
    ((appendTransactions false txs ⟨ascii "[", 1⟩).print 8192 (ascii "]")).text = txsText txs := by
  have fits := txsText_length txs few
  have texts : txs.map protocolSerializeTx = txs.map txText :=
    List.map_congr_left fun tx _ => protocolSerializeTx_text tx
  simp only [txsText, List.length_append] at fits
  have objects := Buffer.loop_fits 8192 appendTransactions protocolSerializeTx (fun _ _ => rfl)
    (fun _ _ _ _ => rfl) false txs (ascii "[") (by rw [texts, List.length_append]; omega)
  rw [texts] at objects
  rw [show (⟨ascii "[", 1⟩ : Buffer) = ⟨ascii "[", (ascii "[").length⟩ from rfl, objects,
    Buffer.print_fits _ _ _ (by rw [List.length_append]; omega)]
  rfl

/-- 5900 bytes are below the 16384 of the buffer, and the array below its
8192. -/
theorem protocolSerializeBlock_text (block : Block) : protocolSerializeBlock block = blockText block := by
  have fits := blockText_length block
  simp only [protocolSerializeBlock, appendTransactions_text block.listed block.listed_length_le]
  exact snprintf_fits 16384 (blockText block) (by omega)

/-! ## Chains -/

/-- What stands before the first block: the length of the chain and the opening
of the array. -/
def chainHeader (chain : Blockchain) : List UInt8 :=
  ascii "\x7b\"length\":" ++ signedDecimal chain.length ++ ascii ",\"blocks\":["

/-- The object that `protocol_serialize_chain` prints, all blocks included. -/
def chainText (chain : Blockchain) : List UInt8 :=
  chainHeader chain ++ commaText false (chain.map blockText) ++ ascii "]\x7d"

/-- A chain has at most ten thousand blocks, so its length has at most five
digits. -/
theorem chainHeader_length (chain : Blockchain) (fits : chain.length ≤ maxBlocks) :
    (chainHeader chain).length ≤ 27 := by
  have fits' : chain.length ≤ 10000 := fits
  have digits := signedDecimal_length chain.length 5 (by omega) (by decide)
  have constants : (ascii "\x7b\"length\":").length = 10 ∧ (ascii ",\"blocks\":[").length = 11 := by decide
  simp only [chainHeader, List.length_append, constants]
  omega

/-- The bound grows with the chain, by one block and one comma at a time. -/
theorem chainText_length (chain : Blockchain) (fits : chain.length ≤ maxBlocks) :
    (chainText chain).length ≤ 5901 * chain.length + 29 := by
  have header := chainHeader_length chain fits
  have objects := commaText_length false (chain.map blockText) 5900 fun text member => by
    obtain ⟨block, -, rfl⟩ := List.mem_map.mp member
    exact blockText_length block
  have closing : (ascii "]\x7d").length = 2 := by decide
  simp only [chainText, List.length_append, List.length_map, closing] at objects ⊢
  omega

/-- No terminator stands inside the text of a chain. -/
theorem chainText_clean (chain : Blockchain) : 0 ∉ chainText chain := by
  have objects := commaText_clean false (chain.map blockText) fun text member => by
    obtain ⟨block, -, rfl⟩ := List.mem_map.mp member
    exact blockText_clean block
  have constants : 0 ∉ ascii "\x7b\"length\":" ∧ 0 ∉ ascii ",\"blocks\":[" ∧ 0 ∉ ascii "]\x7d" := by decide
  simp only [chainText, chainHeader, List.mem_append, constants, objects, signedDecimal_clean, or_self,
    not_false_eq_true]

/-- The buffer grows with the chain too, by 16384 bytes a block, so it takes
every block whole. The remaining size never reaches zero inside the loop. -/
theorem protocolSerializeChain_text (chain : Blockchain) (fits : chain.length ≤ maxBlocks) :
    protocolSerializeChain chain = chainText chain := by
  have whole := chainText_length chain fits
  have texts : chain.map protocolSerializeBlock = chain.map blockText :=
    List.map_congr_left fun block _ => protocolSerializeBlock_text block
  simp only [chainText, List.length_append] at whole
  have header : Buffer.print (chain.length * 16384 + 256) ⟨[], 0⟩ (chainHeader chain) =
      ⟨chainHeader chain, (chainHeader chain).length⟩ :=
    Buffer.print_fits _ [] _ (by rw [List.length_nil]; omega)
  have objects := Buffer.loop_fits (chain.length * 16384 + 256) (appendBlocks (chain.length * 16384 + 256))
    protocolSerializeBlock (fun _ _ => rfl) (fun _ _ _ _ => rfl) false chain (chainHeader chain)
    (by rw [texts, List.length_append]; omega)
  rw [texts] at objects
  simp only [protocolSerializeChain]
  rw [← chainHeader, header, objects, Buffer.print_fits _ _ _ (by rw [List.length_append]; omega)]
  rfl

end MiniCoin
