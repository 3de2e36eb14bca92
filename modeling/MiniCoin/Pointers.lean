import MiniCoin.Blocks
import MiniCoin.Chains
import MiniCoin.CheckedStrings

/-!
# The parsers on pointers

The parsers of `protocol.c` once more, on pointers and arrays: every byte is read at a position,
every field is a `char` array of the size that the source declares, and every object is copied
into an allocation of its own, which is assumed to succeed. Reading behind a terminator or storing
outside an array leaves them without a result.
-/

namespace MiniCoin

open ByteStrings CheckedStrings

namespace Pointers

/-! ## JSON helpers -/

/-- The end of `json_find_key`: the value behind the colon, without blanks. -/
def valueBehind (json : CString) (p : Nat) : Checked (Option Nat) := do
  match ← json.strchr 58 p with
  | none => pure none
  | some colon =>
    let value ← json.skipWhile (fun c => c == 32 || c == 9) (colon + 1)
    pure (some value)

/-- `json_find_key`. The key is put between quotation marks in an array of 128
bytes. -/
def jsonFindKey (json : CString) (key : List UInt8) : Checked (Option Nat) := do
  match ← json.strstr (snprintf 128 (34 :: (key ++ [34, 58]))) 0 with
  | some p => valueBehind json p
  | none =>
    match ← json.strstr (snprintf 128 (34 :: (key ++ [34, 32, 58]))) 0 with
    | some p => valueBehind json p
    | none => pure none

/-- The copy loop of `json_get_string`: the index it ends with, and the
array. -/
def copyLoop {size : Nat} (json : CString) (p i : Nat) (out : Vector UInt8 size) :
    Checked (Nat × Vector UInt8 size) :=
  match inside : json.read p with
  | .error fault => .error fault
  | .ok c =>
    if c ≠ 0 ∧ c ≠ 34 ∧ i < size - 1 then do
      -- `*(p + 1)` is read behind a backslash only
      let next ← if c = 92 then json.read (p + 1) else pure 0
      if next ≠ 0 then do
        let byte ← json.read (p + 1)
        let out ← store out i byte
        copyLoop json (p + 2) (i + 1) out
      else do
        let byte ← json.read p
        let out ← store out i byte
        copyLoop json (p + 1) (i + 1) out
    else .ok (i, out)
termination_by json.bytes.length + 1 - p
decreasing_by
  all_goals
    have := CString.read_inside inside
    omega

/-- `json_get_string`; nothing is written when it fails. -/
def jsonGetString {size : Nat} (json : CString) (key : List UInt8) (out : Vector UInt8 size) :
    Checked (Option (Vector UInt8 size)) := do
  match ← jsonFindKey json key with
  | none => pure none
  | some p =>
    let c ← json.read p
    if c ≠ 34 then pure none
    else
      let (i, out) ← copyLoop json (p + 1) 0 out
      let out ← store out i 0
      pure (some out)

/-- `json_get_uint64`. -/
def jsonGetUint64 (json : CString) (key : List UInt8) : Checked (Option UInt64) := do
  match ← jsonFindKey json key with
  | none => pure none
  | some p => pure (some (← json.strtoull p))

/-- `json_get_int`. -/
def jsonGetInt (json : CString) (key : List UInt8) : Checked (Option Int32) := do
  match ← jsonFindKey json key with
  | none => pure none
  | some p => pure (some (← json.strtol p).toInt32)

/-! ## Transactions -/

/-- `tx_t` in memory, array by array. What a parser leaves behind a terminator
is part of it. -/
structure TxCells where
  sender : Vector UInt8 addrLen
  receiver : Vector UInt8 addrLen
  amount : UInt64
  fee : UInt64
  signature : Vector UInt8 sigLen
  txHash : Vector UInt8 65

/-- A transaction after `memset`. -/
def TxCells.zero : TxCells :=
  ⟨Vector.replicate addrLen 0, Vector.replicate addrLen 0, 0, 0, Vector.replicate sigLen 0,
    Vector.replicate 65 0⟩

/-- `protocol_deserialize_tx`: the return code and the record as it was filled
until then. -/
def protocolDeserializeTx (json : CString) : Checked (Int × TxCells) := do
  let tx := TxCells.zero
  match ← jsonGetString json (ascii "sender") tx.sender with
  | none => pure (-1, tx)
  | some sender =>
    let tx := { tx with sender := sender }
    match ← jsonGetString json (ascii "receiver") tx.receiver with
    | none => pure (-1, tx)
    | some receiver =>
      let tx := { tx with receiver := receiver }
      match ← jsonGetUint64 json (ascii "amount") with
      | none => pure (-1, tx)
      | some amount =>
        let tx := { tx with amount := amount }
        let tx := { tx with fee := (← jsonGetUint64 json (ascii "fee")).getD tx.fee }
        let signature ← jsonGetString json (ascii "signature") tx.signature
        let tx := { tx with signature := signature.getD tx.signature }
        let txHash ← jsonGetString json (ascii "tx_hash") tx.txHash
        pure (0, { tx with txHash := txHash.getD tx.txHash })

/-- Every text field of the record has a terminator. -/
def TxCells.Terminated (tx : TxCells) : Prop :=
  0 ∈ tx.sender.toList ∧ 0 ∈ tx.receiver.toList ∧ 0 ∈ tx.signature.toList ∧ 0 ∈ tx.txHash.toList

/-! ## Blocks -/

/-- `block_t` in memory, with all its slots. -/
structure BlockCells where
  index : UInt32
  timestamp : Int64
  transactions : Vector TxCells maxTxPerBlock
  txCount : Int32
  prevHash : Vector UInt8 hashHexLen
  nonce : UInt64
  hash : Vector UInt8 hashHexLen

/-- A block after `memset`. -/
def BlockCells.zero : BlockCells :=
  ⟨0, 0, Vector.replicate maxTxPerBlock TxCells.zero, 0, Vector.replicate hashHexLen 0, 0,
    Vector.replicate hashHexLen 0⟩

/-- Every text field of the block and of its slots has a terminator. -/
def BlockCells.Terminated (block : BlockCells) : Prop :=
  0 ∈ block.prevHash.toList ∧ 0 ∈ block.hash.toList ∧ ∀ tx ∈ block.transactions.toList, tx.Terminated

/-- The do-while that matches the braces of an object: the position behind
it. -/
def matchBraces (json : CString) (p : Nat) (depth : Int) : Checked Nat :=
  match inside : json.read p with
  | .error fault => .error fault
  | .ok c =>
    let depth := if c = 123 then depth + 1 else if c = 125 then depth - 1 else depth
    if 0 < depth then do
      let next ← json.read (p + 1)
      if next ≠ 0 then matchBraces json (p + 1) depth else .ok (p + 1)
    else .ok (p + 1)
termination_by json.bytes.length + 1 - p
decreasing_by
  have := CString.read_inside inside
  omega

/-- The loop of `protocol_deserialize_block`. The code of each parse is ignored,
as in the source. -/
def transactionsLoop (json : CString) (txCount : Int32) (i txsStart : Nat)
    (transactions : Vector TxCells maxTxPerBlock) : Checked (Vector TxCells maxTxPerBlock) :=
  if _ : (i : Int) < txCount.toInt ∧ i < maxTxPerBlock then do
    match ← json.strchr 123 txsStart with
    | none => pure transactions
    | some objStart =>
      let p ← matchBraces json objStart 0
      let txJson ← json.copy objStart (p - objStart)
      let parsed ← protocolDeserializeTx txJson
      let transactions ← store transactions i parsed.2
      transactionsLoop json txCount (i + 1) p transactions
  else pure transactions
termination_by maxTxPerBlock - i

/-- The transactions of `protocol_deserialize_block`, behind the bracket that
opens their array. -/
def blockTransactions (json : CString) (txCount : Int32)
    (transactions : Vector TxCells maxTxPerBlock) : Checked (Vector TxCells maxTxPerBlock) := do
  match ← jsonFindKey json (ascii "transactions") with
  | none => pure transactions
  | some txsStart =>
    let c ← json.read txsStart
    if c = 91 then transactionsLoop json txCount 0 (txsStart + 1) transactions
    else pure transactions

/-- `protocol_deserialize_block`: the return code and the record as it was
filled until then. -/
def protocolDeserializeBlock (json : CString) : Checked (Int × BlockCells) := do
  let block := BlockCells.zero
  match ← jsonGetUint64 json (ascii "index") with
  | none => pure (-1, block)
  | some index =>
  let block := { block with index := index.toUInt32 }
  match ← jsonGetUint64 json (ascii "timestamp") with
  | none => pure (-1, block)
  | some timestamp =>
  let block := { block with timestamp := timestamp.toInt64 }
  match ← jsonGetString json (ascii "prev_hash") block.prevHash with
  | none => pure (-1, block)
  | some prevHash =>
  let block := { block with prevHash := prevHash }
  match ← jsonGetUint64 json (ascii "nonce") with
  | none => pure (-1, block)
  | some nonce =>
  let block := { block with nonce := nonce }
  match ← jsonGetString json (ascii "hash") block.hash with
  | none => pure (-1, block)
  | some hash =>
  let block := { block with hash := hash }
  match ← jsonGetInt json (ascii "tx_count") with
  | none => pure (-1, block)
  | some txCount =>
  let block := { block with txCount := txCount }
  let transactions ← blockTransactions json block.txCount block.transactions
  pure (0, { block with transactions := transactions })

/-! ## Chains -/

/-- `blockchain_t` in memory. The blocks behind `length` are there too, and are
never read. -/
structure ChainCells where
  blocks : Vector BlockCells maxBlocks
  length : Nat

/-- Every text field of the blocks in use has a terminator, and they are in the
array. -/
def ChainCells.Terminated (chain : ChainCells) : Prop :=
  chain.length ≤ maxBlocks ∧ ∀ block ∈ chain.blocks.toList.take chain.length, block.Terminated

/-- The loop of `protocol_deserialize_chain`, which ends at the first block that
does not parse. -/
def blocksLoop (json : CString) (length : Int32) (i blocksStart : Nat) (chain : ChainCells) :
    Checked (Int × ChainCells) :=
  if _ : (i : Int) < length.toInt then do
    match ← json.strchr 123 blocksStart with
    | none => pure (0, chain)
    | some objStart =>
      let p ← matchBraces json objStart 0
      let blockJson ← json.copy objStart (p - objStart)
      let parsed ← protocolDeserializeBlock blockJson
      let blocks ← store chain.blocks i parsed.2
      if parsed.1 ≠ 0 then pure (-1, { chain with blocks := blocks })
      else blocksLoop json length (i + 1) p { chain with blocks := blocks, length := chain.length + 1 }
  else pure (0, chain)
termination_by length.toInt.toNat - i
decreasing_by omega

/-- `protocol_deserialize_chain` into the chain of the caller. -/
def protocolDeserializeChain (json : CString) (chain : ChainCells) : Checked (Int × ChainCells) := do
  match ← jsonGetInt json (ascii "length") with
  | none => pure (-1, chain)
  | some length =>
    if length.toInt ≤ 0 ∨ maxBlocks < length.toInt then pure (-1, chain)
    else
      match ← jsonFindKey json (ascii "blocks") with
      | none => pure (-1, chain)
      | some blocksStart =>
        let c ← json.read blocksStart
        if c = 91 then blocksLoop json length 0 (blocksStart + 1) { chain with length := 0 }
        else pure (-1, chain)

/-! ## Envelopes -/

/-- Whether a byte opens or closes a string. The byte in front of a quotation
mark is read unless the mark is the first byte of the payload. -/
def togglesString (json : CString) (start q : Nat) (c : UInt8) : Checked Bool :=
  if c ≠ 34 then pure false
  else if q = start then pure true
  else do
    let previous ← json.read (q - 1)
    pure (previous != 92)

/-- The do-while of `protocol_parse_msg`: the position behind the payload. -/
def payloadLoop (json : CString) (start q : Nat) (depth : Int) (inString : Bool) : Checked Nat :=
  match inside : json.read q with
  | .error fault => .error fault
  | .ok c => do
    let toggles ← togglesString json start q c
    let depth :=
      if toggles then depth
      else if inString then depth
      else if c = 123 ∨ c = 91 then depth + 1
      else if c = 125 ∨ c = 93 then depth - 1
      else depth
    if 0 < depth then
      let next ← json.read (q + 1)
      if next ≠ 0 then payloadLoop json start (q + 1) depth (if toggles then !inString else inString)
      else pure (q + 1)
    else pure (q + 1)
termination_by json.bytes.length + 1 - q
decreasing_by
  have := CString.read_inside inside
  omega

/-- `protocol_parse_msg`. An empty payload is a copy of the terminator alone. -/
def protocolParseMsg (json : CString) : Checked (Int32 × Option CString) := do
  match ← jsonGetInt json (ascii "type") with
  | none => pure (-1, none)
  | some type =>
    match ← jsonFindKey json (ascii "payload") with
    | none => pure (type, none)
    | some start =>
      let q ← payloadLoop json start start 0 false
      let payload ← json.copy start (q - start)
      pure (type, some payload)

end Pointers

end MiniCoin
