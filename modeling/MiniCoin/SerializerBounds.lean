import MiniCoin.CheckedPrints
import MiniCoin.SerializedTexts

/-!
# The serialisers on arrays

The serialisers of `protocol.c` once more, on arrays of the sizes that the source declares. What an
array holds before it is written is arbitrary, and `malloc` is assumed to succeed. A character that
`json_escape` leaves out, a print that is cut and an offset behind its buffer are faults, as is
every store outside an array. No such fault happens, and the texts are printed in full.
-/

namespace MiniCoin

open ByteStrings QuotedText CheckedStrings CheckedPrints

namespace Arrays

/-! ## Transactions -/

/-- The backslash in front of a quotation mark or a backslash. -/
def escapeMark {n : Nat} (c : UInt8) (j : Nat) (dst : Vector UInt8 n) : Printed (Nat × Vector UInt8 n) :=
  if c = 34 ∨ c = 92 then do
    let dst ← access (store dst j 92)
    pure (j + 1, dst)
  else pure (j, dst)

/-- The loop of `json_escape`: the index that it ends with, and the array. -/
def escapeLoop {n : Nat} (dstSize : Nat) :
    (src : List UInt8) → (j : Nat) → Vector UInt8 n → Printed (Nat × Vector UInt8 n)
  | [], j, dst => pure (j, dst)
  | c :: src, j, dst => do
    let limit ← minus dstSize 2
    -- the loop would end before the string does
    if limit ≤ j then .error .dropped
    else do
      let (j, dst) ← escapeMark c j dst
      let dst ← access (store dst j c)
      escapeLoop dstSize src (j + 1) dst

/-- `json_escape`. -/
def jsonEscape {n : Nat} (src : List UInt8) (dst : Vector UInt8 n) (dstSize : Nat) : Printed (Vector UInt8 n) := do
  let (j, dst) ← escapeLoop dstSize src 0 dst
  access (store dst j 0)

/-- The arrays of `protocol_serialize_tx`, as they are found. They are not
initialised by the source, so nothing may depend on what they hold. -/
structure TxMemory where
  buf : Vector UInt8 1024
  senderEsc : Vector UInt8 (addrLen * 2)
  receiverEsc : Vector UInt8 (addrLen * 2)

/-- `protocol_serialize_tx`. -/
def protocolSerializeTx (memory : TxMemory) (tx : Tx) : Printed (Vector UInt8 1024) := do
  let senderEsc ← jsonEscape tx.sender.bytes memory.senderEsc (addrLen * 2)
  let receiverEsc ← jsonEscape tx.receiver.bytes memory.receiverEsc (addrLen * 2)
  let sender ← textOf senderEsc
  let receiver ← textOf receiverEsc
  let (buf, _) ← snprintfAt memory.buf 0 1024 (ascii "\x7b\"sender\":\"" ++ sender ++ ascii "\",\"receiver\":\"" ++
    receiver ++ ascii "\",\"amount\":" ++ decimal tx.amount.toNat ++ ascii ",\"fee\":" ++ decimal tx.fee.toNat ++
    ascii ",\"signature\":\"" ++ tx.signature.bytes ++ ascii "\",\"tx_hash\":\"" ++ tx.txHash.bytes ++
    ascii "\"\x7d")
  pure buf

/-! ## Blocks -/

/-- The arrays of `protocol_serialize_block`, and those of each call it makes.
`txs_buf` is initialised. -/
structure BlockMemory where
  txs : Nat → TxMemory
  buf : Vector UInt8 16384

/-- `tx_json` for `block->transactions[i]`. -/
def transactionJson (memory : BlockMemory) (block : Block) (i : Nat) : Printed (List UInt8) :=
  if inside : i < maxTxPerBlock then do
    let buf ← protocolSerializeTx (memory.txs i) block.transactions[i]
    textOf buf
  else .error (.access .read)

/-- `protocol_serialize_block`. -/
def protocolSerializeBlock (memory : BlockMemory) (block : Block) : Printed (Vector UInt8 16384) := do
  let txsBuf := initialised 8192 (ascii "[")
  let (txsBuf, offset) ← printItems 8192 (transactionJson memory block) block.count 0 txsBuf 1
  let (txsBuf, _) ← printAt 8192 txsBuf offset (ascii "]")
  let txs ← textOf txsBuf
  let (buf, _) ← snprintfAt memory.buf 0 16384 (ascii "\x7b\"index\":" ++ decimal block.index.toNat ++
    ascii ",\"timestamp\":" ++ signedDecimal block.timestamp.toInt ++ ascii ",\"prev_hash\":\"" ++
    block.prevHash.bytes ++ ascii "\",\"nonce\":" ++ decimal block.nonce.toNat ++ ascii ",\"hash\":\"" ++
    block.hash.bytes ++ ascii "\",\"tx_count\":" ++ signedDecimal block.txCount.toInt ++
    ascii ",\"transactions\":" ++ txs ++ ascii "\x7d")
  pure buf

/-! ## Chains -/

/-- The buffer of `protocol_serialize_chain`, and the arrays of each call it
makes. -/
structure ChainMemory where
  blocks : Nat → BlockMemory
  buf : (size : Nat) → Vector UInt8 size

/-- `block_json` for `chain->blocks[i]`. -/
def blockJson (memory : ChainMemory) (chain : Blockchain) (i : Nat) : Printed (List UInt8) :=
  match chain[i]? with
  | none => .error (.access .read)
  | some block =>
    if maxBlocks ≤ i then .error (.access .read)
    else do
      let buf ← protocolSerializeBlock (memory.blocks i) block
      textOf buf

/-- `protocol_serialize_chain`. The size of the buffer is computed as an
`int`. -/
def protocolSerializeChain (memory : ChainMemory) (chain : Blockchain) :
    Printed (Vector UInt8 (chain.length * 16384 + 256)) :=
  let bufSize := chain.length * 16384 + 256
  if 2 ^ 31 ≤ bufSize then .error .wrapped
  else do
    let (buf, offset) ← snprintfAt (memory.buf bufSize) 0 bufSize
      (ascii "\x7b\"length\":" ++ signedDecimal chain.length ++ ascii ",\"blocks\":[")
    let (buf, offset) ← printItems bufSize (blockJson memory chain) chain.length 0 buf offset
    let (buf, _) ← printAt bufSize buf offset (ascii "]\x7d")
    pure buf

end Arrays

/-! ## Transactions -/

/-- A quote or a backslash gets a backslash before it, stored inside the
array. -/
theorem escapeMark_exact {n : Nat} (c : UInt8) (written : List UInt8) (dst : Vector UInt8 n)
    (begins : Begins dst written) (room : written.length < n) :
    ∃ marked, Arrays.escapeMark c written.length dst =
        .ok ((written ++ if c = 34 ∨ c = 92 then [92] else []).length, marked) ∧
      Begins marked (written ++ if c = 34 ∨ c = 92 then [92] else []) := by
  unfold Arrays.escapeMark
  split_ifs with special
  · obtain ⟨marked, run, shows⟩ := begins.store 92 room
    refine ⟨marked, ?_, shows⟩
    rw [run]
    simp [bind, Except.bind, pure, Except.pure]
  · exact ⟨dst, by simp [pure, Except.pure], by simpa using begins⟩

/-- With two bytes for each character and two more, no character is dropped. -/
theorem escapeLoop_exact {n dstSize : Nat} (inside : dstSize ≤ n) (src written : List UInt8) (dst : Vector UInt8 n)
    (begins : Begins dst written) (room : written.length + 2 * src.length + 2 ≤ dstSize) :
    ∃ escaped, Arrays.escapeLoop dstSize src written.length dst = .ok ((written ++ escape src).length, escaped) ∧
      Begins escaped (written ++ escape src) := by
  induction src generalizing written dst with
  | nil => exact ⟨dst, by simp [Arrays.escapeLoop, escape, pure, Except.pure], by simpa [escape] using begins⟩
  | cons c rest ih =>
    simp only [List.length_cons] at room
    obtain ⟨marked, mark, begun⟩ := escapeMark_exact c written dst begins (by omega)
    have whole : written ++ escape (c :: rest) =
        (written ++ if c = 34 ∨ c = 92 then [92] else []) ++ [c] ++ escape rest := by
      rw [escape_cons]
      split_ifs <;> simp
    have short : (written ++ if c = 34 ∨ c = 92 then [92] else []).length ≤ written.length + 1 := by
      split_ifs <;> simp
    generalize (written ++ if c = 34 ∨ c = 92 then [92] else []) = front at mark begun whole short
    obtain ⟨stored, run, next⟩ := begun.store c (by omega)
    obtain ⟨escaped, others, all⟩ := ih (front ++ [c]) stored next (by
      simp only [List.length_append, List.length_singleton]
      omega)
    rw [whole]
    refine ⟨escaped, ?_, all⟩
    rw [List.length_append, List.length_singleton] at others
    rw [Arrays.escapeLoop, minus, if_pos (by omega)]
    simp only [bind, Except.bind]
    rw [if_neg (by omega)]
    simp only [mark, run, others]

/-- An address of full length, each byte escaped, fits the array of twice its
size. -/
theorem jsonEscape_exact (text : CText addrLen) (dst : Vector UInt8 (addrLen * 2)) :
    ∃ escaped, Arrays.jsonEscape text.bytes dst (addrLen * 2) = .ok escaped ∧ textOf escaped = .ok (escape text.bytes) := by
  have bound : text.bytes.length < 65 := text.bound
  have doubled := escape_length text.bytes
  obtain ⟨escaped, run, shows⟩ := escapeLoop_exact le_rfl text.bytes [] dst (begins_nil dst)
    (by simp only [List.length_nil, addrLen]; omega)
  obtain ⟨ended, stored, all⟩ := shows.store 0 (by simp only [List.nil_append, addrLen]; omega)
  refine ⟨ended, ?_, all.read (escape_clean _ text.clean)⟩
  rw [List.length_nil] at run
  rw [Arrays.jsonEscape, run]
  exact stored

/-- The transaction's text and its terminator fit the array of
`protocol_serialize_tx`. -/
theorem arrays_tx (memory : Arrays.TxMemory) (tx : Tx) :
    ∃ buf, Arrays.protocolSerializeTx memory tx = .ok buf ∧ textOf buf = .ok (txText tx) := by
  obtain ⟨senderEsc, sender, senderText⟩ := jsonEscape_exact tx.sender memory.senderEsc
  obtain ⟨receiverEsc, receiver, receiverText⟩ := jsonEscape_exact tx.receiver memory.receiverEsc
  have short := txText_length tx
  obtain ⟨buf, printed, shows⟩ := snprintfAt_exact (txText tx) [] 1024 memory.buf (begins_nil _) (by omega) (by simp)
  rw [List.nil_append] at shows
  refine ⟨buf, ?_, shows.read (txText_clean tx)⟩
  rw [Arrays.protocolSerializeTx, sender]
  simp only [bind, Except.bind, receiver, senderText, receiverText]
  rw [List.length_nil, txText] at printed
  rw [printed]
  rfl

/-! ## Blocks -/

/-- The slot of the static array holds the text of its transaction. -/
theorem transactionJson_exact (memory : Arrays.BlockMemory) (block : Block) (i : Nat) (text : List UInt8)
    (listed : (block.listed.map txText)[i]? = some text) : Arrays.transactionJson memory block i = .ok text := by
  rw [List.getElem?_map] at listed
  obtain ⟨tx, slot, rfl⟩ := Option.map_eq_some_iff.mp listed
  obtain ⟨inside, rfl⟩ := List.getElem?_eq_some_iff.mp slot
  have bound : i < maxTxPerBlock := by
    have few := block.listed_length_le
    omega
  obtain ⟨buf, run, read⟩ := arrays_tx (memory.txs i) block.transactions[i]
  rw [Arrays.transactionJson, dif_pos bound]
  simp only [bind, Except.bind, run, read]
  simp [Block.listed]

/-- The block's text and its terminator fit, with ten transactions at most. -/
theorem arrays_block (memory : Arrays.BlockMemory) (block : Block) (range : block.CountInRange) :
    ∃ buf, Arrays.protocolSerializeBlock memory block = .ok buf ∧ textOf buf = .ok (blockText block) := by
  have count : (block.listed.map txText).length = block.count := by
    have listed := block.listed_length range
    rw [List.length_map, Block.count]
    omega
  have few := txsText_length block.listed block.listed_length_le
  have short := blockText_length block
  simp only [txsText, List.length_append] at few
  obtain ⟨objects, loop, listed⟩ := printItems_exact 8192 (Arrays.transactionJson memory block) le_rfl
    (block.listed.map txText) 0 (fun j text at_ => by
      rw [Nat.zero_add]
      exact transactionJson_exact memory block j text at_)
    (ascii "[") (initialised 8192 (ascii "[")) (begins_initialised 8192 _ (by decide))
    (by simp only [Nat.lt_irrefl, decide_false, List.length_append]; omega)
  rw [count] at loop
  simp only [Nat.lt_irrefl, decide_false] at loop listed
  obtain ⟨txsBuf, closed, list⟩ := printAt_exact 8192 (ascii "]") _ objects listed
    (by simp only [List.length_append]; omega) le_rfl
  have txs : textOf txsBuf = .ok (txsText block.listed) := list.read (txsText_clean block.listed)
  obtain ⟨buf, printed, shows⟩ := snprintfAt_exact (blockText block) [] 16384 memory.buf (begins_nil _)
    (by omega) (by simp)
  rw [List.nil_append] at shows
  refine ⟨buf, ?_, shows.read (blockText_clean block)⟩
  rw [List.length_nil, blockText] at printed
  rw [Arrays.protocolSerializeBlock]
  rw [show (ascii "[").length = 1 from rfl] at loop
  simp only [bind, Except.bind, loop, closed, txs, printed]
  rfl

/-! ## Chains -/

/-- The slot of the static array holds the text of its block. -/
theorem blockJson_exact (memory : Arrays.ChainMemory) (chain : Blockchain) (fits : chain.length ≤ maxBlocks)
    (range : ∀ block ∈ chain, block.CountInRange) (i : Nat) (text : List UInt8)
    (listed : (chain.map blockText)[i]? = some text) : Arrays.blockJson memory chain i = .ok text := by
  rw [List.getElem?_map] at listed
  obtain ⟨block, slot, rfl⟩ := Option.map_eq_some_iff.mp listed
  have inside := (List.getElem?_eq_some_iff.mp slot).1
  obtain ⟨buf, run, read⟩ := arrays_block (memory.blocks i) block (range block (List.mem_of_getElem? slot))
  rw [Arrays.blockJson, slot]
  simp only
  rw [if_neg (by omega)]
  simp only [bind, Except.bind, run, read]

/-- The chain's text and its terminator fit, with as many blocks as the limit
allows. -/
theorem arrays_chain (memory : Arrays.ChainMemory) (chain : Blockchain) (fits : chain.length ≤ maxBlocks)
    (range : ∀ block ∈ chain, block.CountInRange) :
    ∃ buf, Arrays.protocolSerializeChain memory chain = .ok buf ∧ textOf buf = .ok (chainText chain) := by
  have fits' : chain.length ≤ 10000 := fits
  have whole := chainText_length chain fits
  simp only [chainText, List.length_append] at whole
  obtain ⟨begun, header, first⟩ := snprintfAt_exact (chainHeader chain) [] (chain.length * 16384 + 256)
    (memory.buf (chain.length * 16384 + 256)) (begins_nil _) (by omega) (by simp)
  rw [List.nil_append] at first
  obtain ⟨objects, loop, listed⟩ := printItems_exact (chain.length * 16384 + 256) (Arrays.blockJson memory chain)
    le_rfl (chain.map blockText) 0 (fun j text at_ => by
      rw [Nat.zero_add]
      exact blockJson_exact memory chain fits range j text at_)
    (chainHeader chain) begun first.left
    (by simp only [Nat.lt_irrefl, decide_false, List.length_append]; omega)
  simp only [Nat.lt_irrefl, decide_false, List.length_map] at loop listed
  obtain ⟨buf, closed, list⟩ := printAt_exact (chain.length * 16384 + 256) (ascii "]\x7d") _ objects listed
    (by simp only [List.length_append]; omega) le_rfl
  refine ⟨buf, ?_, list.read (chainText_clean chain)⟩
  rw [List.length_nil, chainHeader] at header
  rw [chainHeader] at loop closed
  rw [Arrays.protocolSerializeChain]
  simp only
  rw [if_neg (by omega)]
  simp only [bind, Except.bind, header, loop, closed]
  rfl

/-- Whatever the fields hold, and whatever the arrays held before, nothing is
dropped or cut and nothing leaves its array: the serialisers print the texts in
full. -/
theorem serialisers_suffice :
    (∀ memory tx, ∃ buf, Arrays.protocolSerializeTx memory tx = .ok buf ∧ textOf buf = .ok (txText tx) ∧
        protocolSerializeTx tx = txText tx) ∧
      (∀ memory (block : Block), block.CountInRange →
        ∃ buf, Arrays.protocolSerializeBlock memory block = .ok buf ∧ textOf buf = .ok (blockText block) ∧
          protocolSerializeBlock block = blockText block) ∧
      ∀ memory (chain : Blockchain), chain.length ≤ maxBlocks → (∀ block ∈ chain, block.CountInRange) →
        ∃ buf, Arrays.protocolSerializeChain memory chain = .ok buf ∧ textOf buf = .ok (chainText chain) ∧
          protocolSerializeChain chain = chainText chain := by
  refine ⟨fun memory tx => ?_, fun memory block range => ?_, fun memory chain fits range => ?_⟩
  · obtain ⟨buf, run, text⟩ := arrays_tx memory tx
    exact ⟨buf, run, text, protocolSerializeTx_text tx⟩
  · obtain ⟨buf, run, text⟩ := arrays_block memory block range
    exact ⟨buf, run, text, protocolSerializeBlock_text block⟩
  · obtain ⟨buf, run, text⟩ := arrays_chain memory chain fits range
    exact ⟨buf, run, text, protocolSerializeChain_text chain fits⟩

/-- Arrays that nothing was written to. -/
def strayMemory : Arrays.ChainMemory where
  blocks _ := ⟨fun _ => ⟨Vector.replicate _ 170, Vector.replicate _ 170, Vector.replicate _ 170⟩, Vector.replicate _ 170⟩
  buf size := Vector.replicate size 170

/-- The longest payment: every byte of the addresses is escaped, and no field
has room left. -/
def longestTx : Tx where
  sender := ⟨List.replicate 64 34, by simp, by simp⟩
  receiver := ⟨List.replicate 64 92, by simp, by simp⟩
  amount := 18446744073709551615
  fee := 18446744073709551615
  signature := ⟨List.replicate 128 102, by simp, by simp⟩
  txHash := ⟨List.replicate 64 102, by simp, by simp⟩

/-- Ten of them, with the longest numbers. -/
def longestBlock : Block where
  index := 4294967295
  timestamp := -9223372036854775808
  transactions := Vector.replicate _ longestTx
  txCount := 10
  prevHash := ⟨List.replicate 64 102, by simp, by simp⟩
  nonce := 18446744073709551615
  hash := ⟨List.replicate 64 102, by simp, by simp⟩

/-- Ten transactions with full addresses that are escaped throughout and with
numbers of twenty digits, in a block and in a chain of two of them. -/
theorem serialisers_suffice_longest :
    (∃ buf, Arrays.protocolSerializeBlock (strayMemory.blocks 0) longestBlock = .ok buf ∧
      textOf buf = .ok (blockText longestBlock) ∧ protocolSerializeBlock longestBlock = blockText longestBlock) ∧
    (∃ buf, Arrays.protocolSerializeChain strayMemory [longestBlock, longestBlock] = .ok buf ∧
      textOf buf = .ok (chainText [longestBlock, longestBlock]) ∧
      protocolSerializeChain [longestBlock, longestBlock] = chainText [longestBlock, longestBlock]) ∧
    (txText longestTx).length = 560 :=
  ⟨serialisers_suffice.2.1 (strayMemory.blocks 0) longestBlock (by decide),
    serialisers_suffice.2.2 strayMemory [longestBlock, longestBlock] (by decide) (by decide),
    by decide +kernel⟩

end MiniCoin
