import MiniCoin.Chains
import MiniCoin.QuotedText

/-!
# Message texts

The serialisers and parsers of `protocol.c`. Parsers work on the suffix that the C
pointer designates, with the end of the list as the terminator, and follow the source
loop by loop: the substring search for a key, the copy of a string value with its
limit, the do-while that matches braces of an object, and the do-while that finds the
end of a payload. Serialisers keep the buffer sizes of the source. Allocation is
assumed to succeed.

Braces in string constants are written as `\x7b` and `\x7d`.
-/

namespace MiniCoin

open ByteStrings

/-- `msg_type_t`. The numbers are those of the source, as they are written into
the envelope. -/
inductive MsgType where
  | newBlock | newTx | requestChain | chainResponse | peerList | ping | pong
  deriving DecidableEq

/-- The value of the enumerator. -/
def MsgType.code : MsgType → Int32
  | newBlock => 0
  | newTx => 1
  | requestChain => 2
  | chainResponse => 3
  | peerList => 4
  | ping => 5
  | pong => 6

/-! ## JSON helpers -/

/-- The loop of `json_escape` on a destination of `dstSize` bytes. It stops with
two bytes left, even where the next character needs no escape. -/
def jsonEscapeLoop (dstSize : Nat) : List UInt8 → List UInt8 → List UInt8
  | [], dst => dst
  | c :: src, dst =>
    if dst.length < dstSize - 2 then
      jsonEscapeLoop dstSize src (dst ++ (if c = 34 ∨ c = 92 then [92] else []) ++ [c])
    else dst

/-- `json_escape`. -/
def jsonEscape (src : List UInt8) (dstSize : Nat) : List UInt8 := jsonEscapeLoop dstSize src []

/-- `json_find_key`: the text after the colon of the first quoted key,
without the blanks in front of it. The second search allows one space before
the colon. -/
def jsonFindKey (json key : List UInt8) : Option (List UInt8) :=
  let hit := match strstr json (34 :: (key ++ [34, 58])) with
    | some p => some p
    | none => strstr json (34 :: (key ++ [34, 32, 58]))
  match hit with
  | none => none
  | some p =>
    match strchr 58 p with
    | none => none
    | some colon => some ((colon.drop 1).dropWhile fun c => c == 32 || c == 9)

/-- The copy loop of `json_get_string` with room for `room` bytes. A backslash
is dropped and the byte behind it copied, whatever it is. -/
def copyString : Nat → List UInt8 → List UInt8
  | 0, _ => []
  | _ + 1, [] => []
  | room + 1, c :: rest =>
    if c = 34 then []
    else if c = 92 then
      match rest with
      | [] => [c]
      | d :: tail => d :: copyString room tail
    else c :: copyString room rest

/-- `json_get_string` into an array of `size` bytes. It fails if the value does
not begin with a quotation mark. -/
def jsonGetString (size : Nat) [NeZero size] (json key : List UInt8) : Option (CText size) :=
  match jsonFindKey json key with
  | some (34 :: p) => some (CText.ofBytes (copyString (size - 1) p))
  | _ => none

/-- `json_get_uint64`. A value that is no number is read as zero. -/
def jsonGetUint64 (json key : List UInt8) : Option UInt64 := (jsonFindKey json key).map strtoull

/-- `json_get_int`, through `long` and a cast. -/
def jsonGetInt (json key : List UInt8) : Option Int32 :=
  (jsonFindKey json key).map fun p => (strtol p).toInt32

/-! ## Transactions -/

/-- `protocol_serialize_tx`. Only the addresses are escaped. -/
def protocolSerializeTx (tx : Tx) : List UInt8 :=
  let senderEsc := jsonEscape tx.sender.bytes (addrLen * 2)
  let receiverEsc := jsonEscape tx.receiver.bytes (addrLen * 2)
  snprintf 1024 (ascii "\x7b\"sender\":\"" ++ senderEsc ++ ascii "\",\"receiver\":\"" ++ receiverEsc ++
    ascii "\",\"amount\":" ++ decimal tx.amount.toNat ++ ascii ",\"fee\":" ++ decimal tx.fee.toNat ++
    ascii ",\"signature\":\"" ++ tx.signature.bytes ++ ascii "\",\"tx_hash\":\"" ++ tx.txHash.bytes ++
    ascii "\"\x7d")

/-- `protocol_deserialize_tx`: the return code and the record as it was filled
until then. Optional fields keep their zero when they are missing. -/
def protocolDeserializeTx (json : List UInt8) : Int × Tx :=
  match jsonGetString addrLen json (ascii "sender") with
  | none => (-1, Tx.zero)
  | some sender =>
    let tx := { Tx.zero with sender := sender }
    match jsonGetString addrLen json (ascii "receiver") with
    | none => (-1, tx)
    | some receiver =>
      let tx := { tx with receiver := receiver }
      match jsonGetUint64 json (ascii "amount") with
      | none => (-1, tx)
      | some amount =>
        let tx := { tx with amount := amount }
        let tx := { tx with fee := (jsonGetUint64 json (ascii "fee")).getD tx.fee }
        let tx := { tx with
          signature := (jsonGetString sigLen json (ascii "signature")).getD tx.signature }
        (0, { tx with txHash := (jsonGetString 65 json (ascii "tx_hash")).getD tx.txHash })

/-! ## Blocks -/

/-- The loop of `protocol_serialize_block` over the transactions; the flag tells
whether a comma is due. -/
def appendTransactions : Bool → List Tx → Buffer → Buffer
  | _, [], txsBuf => txsBuf
  | comma, tx :: rest, txsBuf =>
    let txsBuf := if comma then txsBuf.print 8192 (ascii ",") else txsBuf
    appendTransactions true rest (txsBuf.print 8192 (protocolSerializeTx tx))

/-- `protocol_serialize_block`. The array is printed into a buffer of its own
first. -/
def protocolSerializeBlock (block : Block) : List UInt8 :=
  let txsBuf := appendTransactions false block.listed ⟨ascii "[", 1⟩
  let txs := (txsBuf.print 8192 (ascii "]")).text
  snprintf 16384 (ascii "\x7b\"index\":" ++ decimal block.index.toNat ++ ascii ",\"timestamp\":" ++
    signedDecimal block.timestamp.toInt ++ ascii ",\"prev_hash\":\"" ++ block.prevHash.bytes ++
    ascii "\",\"nonce\":" ++ decimal block.nonce.toNat ++ ascii ",\"hash\":\"" ++ block.hash.bytes ++
    ascii "\",\"tx_count\":" ++ signedDecimal block.txCount.toInt ++ ascii ",\"transactions\":" ++ txs ++
    ascii "\x7d")

/-- The do-while that matches the braces of an object, started at its opening
brace: the object and the text behind it. -/
def matchBraces : Int → List UInt8 → List UInt8 × List UInt8
  | _, [] => ([], [])
  | depth, c :: rest =>
    let depth := if c = 123 then depth + 1 else if c = 125 then depth - 1 else depth
    if 0 < depth ∧ rest ≠ [] then
      let (object, p) := matchBraces depth rest
      (c :: object, p)
    else ([c], rest)

/-- The loop of `protocol_deserialize_block` over the transaction objects, for
at most the given number of slots. The result of each parse is ignored, as in
the source. -/
def parseTransactions : Nat → List UInt8 → List Tx
  | 0, _ => []
  | slots + 1, txsStart =>
    match strchr 123 txsStart with
    | none => []
    | some objStart =>
      let (object, p) := matchBraces 0 objStart
      (protocolDeserializeTx object).2 :: parseTransactions slots p

/-- The slots of a zeroed block after the first ones were filled. -/
def fillSlots (txs : List Tx) : Vector Tx maxTxPerBlock := Vector.ofFn fun i => txs.getD i Tx.zero

/-- A slot holds its transaction, or zeros where there are fewer
transactions. -/
theorem fillSlots_getElem? (txs : List Tx) (i : Nat) :
    (fillSlots txs).toList[i]? = if i < maxTxPerBlock then some (txs.getD i Tx.zero) else none := by
  rw [Vector.getElem?_toList, fillSlots, Vector.getElem?_ofFn]
  split <;> rfl

/-- Filled slots are read back, if there are enough of them. -/
theorem fillSlots_take (txs : List Tx) (fits : txs.length ≤ maxTxPerBlock) :
    (fillSlots txs).toList.take txs.length = txs := by
  refine List.ext_getElem? fun i => ?_
  by_cases inside : i < txs.length
  · rw [List.getElem?_take_of_lt inside, Vector.getElem?_toList,
      Vector.getElem?_eq_getElem (by omega)]
    simp [fillSlots, inside]
  · rw [List.getElem?_eq_none (by simp; omega), List.getElem?_eq_none (by omega)]

/-- `protocol_deserialize_block`. The six header fields are mandatory, the array
is not, and the count is stored as it was read. -/
def protocolDeserializeBlock (json : List UInt8) : Option Block := do
  let index ← jsonGetUint64 json (ascii "index")
  let timestamp ← jsonGetUint64 json (ascii "timestamp")
  let prevHash ← jsonGetString hashHexLen json (ascii "prev_hash")
  let nonce ← jsonGetUint64 json (ascii "nonce")
  let hash ← jsonGetString hashHexLen json (ascii "hash")
  let txCount ← jsonGetInt json (ascii "tx_count")
  let txs := match jsonFindKey json (ascii "transactions") with
    | some (91 :: txsStart) => parseTransactions (min txCount.toInt.toNat maxTxPerBlock) txsStart
    | _ => []
  pure {
    index := index.toUInt32
    timestamp := timestamp.toInt64
    transactions := fillSlots txs
    txCount := txCount
    prevHash := prevHash
    nonce := nonce
    hash := hash }

/-! ## Chains -/

/-- The loop of `protocol_serialize_chain`. -/
def appendBlocks (bufSize : Nat) : Bool → List Block → Buffer → Buffer
  | _, [], buf => buf
  | comma, block :: rest, buf =>
    let buf := if comma then buf.print bufSize (ascii ",") else buf
    appendBlocks bufSize true rest (buf.print bufSize (protocolSerializeBlock block))

/-- `protocol_serialize_chain`, into a buffer that is measured by the number of
blocks. -/
def protocolSerializeChain (chain : Blockchain) : List UInt8 :=
  let bufSize := chain.length * 16384 + 256
  let header := ascii "\x7b\"length\":" ++ signedDecimal chain.length ++ ascii ",\"blocks\":["
  let buf := appendBlocks bufSize false chain (Buffer.print bufSize ⟨[], 0⟩ header)
  (buf.print bufSize (ascii "]\x7d")).text

/-- The loop of `protocol_deserialize_chain`: it stops early when no object is
left, and fails with the first block that does not parse. -/
def parseBlocks : Nat → List UInt8 → Option (List Block)
  | 0, _ => some []
  | slots + 1, blocksStart =>
    match strchr 123 blocksStart with
    | none => some []
    | some objStart =>
      let (object, p) := matchBraces 0 objStart
      match protocolDeserializeBlock object with
      | none => none
      | some block => (parseBlocks slots p).map (block :: ·)

/-- `protocol_deserialize_chain` into a zeroed chain. The stated length bounds
the loop, but a shorter array is taken as well. -/
def protocolDeserializeChain (json : List UInt8) : Option Blockchain :=
  match jsonGetInt json (ascii "length") with
  | none => none
  | some length =>
    if length.toInt ≤ 0 ∨ maxBlocks < length.toInt then none
    else
      match jsonFindKey json (ascii "blocks") with
      | some (91 :: blocksStart) => parseBlocks length.toInt.toNat blocksStart
      | _ => none

/-! ## Envelopes -/

/-- `protocol_serialize_msg`; a missing payload prints as an empty object. -/
def protocolSerializeMsg (type : MsgType) (payload : Option (List UInt8)) : List UInt8 :=
  let payloadLen := match payload with
    | some text => text.length
    | none => 2
  snprintf (payloadLen + 128) (ascii "\x7b\"type\":" ++ signedDecimal type.code.toInt ++
    ascii ",\"payload\":" ++ payload.getD (ascii "\x7b\x7d") ++ ascii "\x7d\n")

/-- The do-while of `protocol_parse_msg` that finds the end of the payload.
`prev` is the byte before the current one, if the scan has passed one. -/
def scanPayload (prev : Option UInt8) (depth : Int) (inString : Bool) :
    List UInt8 → List UInt8
  | [] => []
  | c :: rest =>
    let toggles := c = 34 ∧ prev ≠ some 92
    let inString' := if toggles then !inString else inString
    let depth' :=
      if toggles then depth
      else if inString then depth
      else if c = 123 ∨ c = 91 then depth + 1
      else if c = 125 ∨ c = 93 then depth - 1
      else depth
    if 0 < depth' ∧ rest ≠ [] then c :: scanPayload (some c) depth' inString' rest else [c]

/-- `protocol_parse_msg`: the type and the payload. The type is -1 when none is
found. -/
def protocolParseMsg (json : List UInt8) : Int32 × Option (List UInt8) :=
  match jsonGetInt json (ascii "type") with
  | none => (-1, none)
  | some type => (type, (jsonFindKey json (ascii "payload")).map (scanPayload none 0 false))

end MiniCoin
