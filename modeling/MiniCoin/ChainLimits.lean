import MiniCoin.CutLines
import MiniCoin.Framing
import MiniCoin.PlainRuns

/-!
# Chains that can be synchronised

A chain response is one line. The reader's buffer cuts it when the chain is long: the peer then
reads a chain without its last blocks, or no chain at all, and takes the rest of the line for
further messages. A chain that was mined by honest nodes arrives exactly if its line exceeds the
buffer by closing marks only.
-/

namespace MiniCoin

open ByteStrings QuotedText

variable {ssl : OpenSSL}

/-! ## Reading all lines -/

/-- What `read_message` returns is taken from the stream. -/
theorem readLoop_shorter (room : Nat) (stream line rest : List UInt8)
    (read : readLoop room stream = some (line, rest)) :
    line.length + rest.length ≤ stream.length ∧ (0 < room → rest.length < stream.length) ∧
      line ⊆ stream ∧ rest ⊆ stream := by
  fun_induction readLoop room stream generalizing line rest with
  | case1 stream =>
    obtain ⟨rfl, rfl⟩ := Prod.mk.inj (Option.some.inj read)
    exact ⟨by simp, by simp, List.nil_subset _, List.Subset.refl _⟩
  | case2 room => cases read
  | case3 room stream =>
    obtain ⟨rfl, rfl⟩ := Prod.mk.inj (Option.some.inj read)
    exact ⟨by simp, by simp, List.nil_subset _, List.subset_cons_self _ _⟩
  | case4 room c stream other ih =>
    obtain ⟨⟨later, left⟩, found, same⟩ := Option.map_eq_some_iff.mp read
    obtain ⟨rfl, rfl⟩ := Prod.mk.inj same
    obtain ⟨length, -, inLine, inRest⟩ := ih _ _ found
    refine ⟨?_, fun _ => ?_, List.cons_subset_cons c inLine,
      List.Subset.trans inRest (List.subset_cons_self _ _)⟩
    · simp only [List.length_cons]
      omega
    · simp only [List.length_cons]
      omega

/-- The loop of `peer_handler` on the bytes that wait in its socket. A line that
is too long is handled in parts, each as a line of its own. -/
def peerHandler (node : Node ssl) (fd : Nat) (stream : List UInt8) : Node ssl :=
  match _read : readMessage stream with
  | none => node
  | some (line, rest) => peerHandler (handleMessage node fd line).1 fd rest
termination_by stream.length
decreasing_by exact (readLoop_shorter _ _ _ _ _read).2.1 (by decide)

/-- A full buffer ends a message. -/
theorem readLoop_full (line rest : List UInt8) (oneLine : 10 ∉ line) :
    readLoop line.length (line ++ rest) = some (line, rest) := by
  induction line with
  | nil => cases rest <;> rfl
  | cons c tail ih =>
    have other : c ≠ 10 := fun same => oneLine (by simp [same])
    have later := ih fun member => oneLine (by simp [member])
    simp [readLoop, other, later]

/-- Text without the first key of an envelope changes nothing. -/
theorem peerHandler_headless (node : Node ssl) (fd : Nat) (stream : List UInt8) (absent : 121 ∉ stream) :
    peerHandler node fd stream = node := by
  induction length : stream.length using Nat.strong_induction_on generalizing stream with
  | _ size ih =>
  rw [peerHandler]
  split
  · rfl
  · next line rest read =>
    obtain ⟨-, shorter, inLine, inRest⟩ := readLoop_shorter _ _ _ _ read
    have nothing := decode_headless line fun member => absent (inLine member)
    rw [handleMessage_eq, nothing]
    exact ih rest.length (by have := shorter (by decide); omega) rest (fun member => absent (inRest member)) rfl

/-! ## The size of a response -/

/-- The length of texts with commas between them: one for each text after the
first. -/
def joinedSize : List Nat → Nat
  | [] => 0
  | first :: rest => first + (rest.map (· + 1)).sum

/-- The length of a transaction object whose texts need no escapes. -/
def txSize (tx : Tx) : Nat :=
  72 + tx.texts.length + (decimal tx.amount.toNat).length + (decimal tx.fee.toNat).length

/-- The length of a block object, which lists such transactions. -/
def blockSize (block : Block) : Nat :=
  87 + block.prevHash.bytes.length + block.hash.bytes.length + (decimal block.index.toNat).length +
    (signedDecimal block.timestamp.toInt).length + (decimal block.nonce.toNat).length +
    (signedDecimal block.txCount.toInt).length + joinedSize (block.listed.map txSize)

/-- The length of a chain response with its newline: 45 bytes of envelope and
keys, the length of the chain in digits, and its blocks. -/
def responseSize (chain : Blockchain) : Nat :=
  45 + (signedDecimal chain.length).length + joinedSize (chain.map blockSize)

/-- The length of joined texts depends on their lengths only. -/
theorem commaText_joinedSize (objects : List (List UInt8)) :
    (commaText false objects).length = joinedSize (objects.map List.length) := by
  have commas (rest : List (List UInt8)) :
      (commaText true rest).length = ((rest.map List.length).map (· + 1)).sum := by
    induction rest with
    | nil => rfl
    | cons object rest ih =>
      have separator : (ascii ",").length = 1 := by decide
      simp only [commaText, if_true, List.length_append, separator, ih, List.map_cons, List.sum_cons]
      omega
  cases objects with
  | nil => rfl
  | cons object rest => simp [commaText, joinedSize, commas]

/-- That is how long the text of a transaction is. -/
theorem txSize_eq (tx : Tx) (safe : tx.Safe) : (render (txPieces tx)).length = txSize tx := by
  have keys : (ascii "sender").length = 6 ∧ (ascii "receiver").length = 8 ∧ (ascii "amount").length = 6 ∧
      (ascii "fee").length = 3 ∧ (ascii "signature").length = 9 ∧ (ascii "tx_hash").length = 7 := by decide
  simp only [txPieces, txFields, fieldPieces_cons, fieldPieces_nil, Field.pieces, List.cons_append,
    List.nil_append, render_plain, render_quoted, render_nil, List.length_cons, List.length_append,
    List.length_nil, safe.sender.escape, safe.receiver.escape, safe.signature.escape, safe.txHash.escape,
    keys, txSize, Tx.texts]
  omega

/-- And that of a block. -/
theorem blockSize_eq (block : Block) (safe : block.Safe) :
    (render (blockPieces block [])).length = blockSize block := by
  have keys : (ascii "index").length = 5 ∧ (ascii "timestamp").length = 9 ∧
      (ascii "prev_hash").length = 9 ∧ (ascii "nonce").length = 5 ∧ (ascii "hash").length = 4 ∧
      (ascii "tx_count").length = 8 ∧ (ascii "transactions").length = 12 := by decide
  have txs : (render (txsPieces false block.listed)).length = joinedSize (block.listed.map txSize) := by
    rw [render_txsPieces, commaText_joinedSize, List.map_map]
    exact congrArg joinedSize (List.map_congr_left fun tx member => txSize_eq tx (safe.txs tx member))
  simp only [blockPieces, blockFields, fieldPieces_cons, fieldPieces_nil, Field.pieces, List.cons_append,
    List.nil_append, render_plain, render_quoted, render_append, render_nil, List.length_cons,
    List.length_append, List.length_nil, safe.prevHash.escape, safe.hash.escape, keys, txs, blockSize]
  omega

/-- And the line of a whole chain, newline included. The limit is stated with
this number. -/
theorem responseSize_eq (chain : Blockchain) (fits : chain.length ≤ maxBlocks)
    (safe : ∀ block ∈ chain, block.Safe) :
    (Message.chainResponse chain).text.length = responseSize chain := by
  have keys : (ascii "type").length = 4 ∧ (ascii "payload").length = 7 ∧ (ascii "length").length = 6 ∧
      (ascii "blocks").length = 6 ∧
      (signedDecimal MsgType.chainResponse.code.toInt).length = 1 := by decide
  have blocks : (render (blocksPieces false chain)).length = joinedSize (chain.map blockSize) := by
    rw [render_blocksPieces, commaText_joinedSize, List.map_map]
    exact congrArg joinedSize
      (List.map_congr_left fun block member => blockSize_eq block (safe block member))
  have rest := congrArg List.length (render_chainRest chain)
  simp only [chainPieces, chainFields, fieldPieces_cons, fieldPieces_nil, Field.pieces, List.cons_append,
    List.nil_append, render_plain, render_quoted, render_append, render_nil, List.length_cons,
    List.length_append, List.length_nil, keys, blocks] at rest
  rw [chainResponse_text chain fits safe]
  simp only [envelopePieces, envelopeFields, fieldPieces_cons, fieldPieces_nil, Field.pieces,
    List.cons_append, List.nil_append, render_plain, render_quoted, render_append, render_nil,
    List.length_cons, List.length_append, List.length_nil, keys, responseSize]
  omega

/-! ## Reading a chain response -/

/-- Such texts have no newline. -/
theorem Block.Coded.oneLine {block : Block} (coded : block.Coded) : block.OneLine := by
  have newline : ¬ CodeByte 10 := by decide
  exact ⟨fun member => newline (coded.prevHash 10 member), fun member => newline (coded.hash 10 member),
    fun tx member inTexts => newline ((coded.txs tx member).texts 10 inTexts)⟩

/-- What `read_message` returns first of a chain response, and the rest of the
line. -/
theorem readMessage_response (chain : Blockchain) (coded : ∀ block ∈ chain, block.Coded) :
    ∃ rest, readMessage (responseLine chain ++ [10]) =
        some ((responseLine chain).take (maxMsgSize - 1), rest) ∧ 121 ∉ rest := by
  have oneLine : 10 ∉ responseLine chain := fun member =>
    (inline_envelope _ _ (inline_chainRest chain fun block inChain => (coded block inChain).oneLine) 10
      member).2 rfl
  have parts : responseLine chain =
      123 :: render (fieldPieces (envelopeFields .chainResponse)) ++ (render (chainRest chain) ++ [125]) := by
    simp [responseLine, envelopePieces]
  have header : (123 :: render (fieldPieces (envelopeFields .chainResponse))).length = 21 := by decide
  have body : 121 ∉ render (chainRest chain) ++ [125] := by
    intro member
    rcases List.mem_append.mp member with inRest | last
    · exact (forall_chainPieces body_marks chain
        (fun block inChain c inTexts => ((coded block inChain).texts c inTexts).body) 121
        (by rw [render_chainRest]; exact List.mem_cons_of_mem _ inRest)).2.2 rfl
    · exact absurd last (by decide)
  have size : maxMsgSize = 1048576 := rfl
  rcases Nat.lt_or_ge (responseLine chain).length (maxMsgSize - 1) with short | long
  · refine ⟨[], ?_, List.not_mem_nil⟩
    rw [List.take_of_length_le (by omega)]
    exact readMessage_line _ [] oneLine short
  · refine ⟨(responseLine chain).drop (maxMsgSize - 1) ++ [10], ?_, fun member => ?_⟩
    · have full := readLoop_full ((responseLine chain).take (maxMsgSize - 1))
        ((responseLine chain).drop (maxMsgSize - 1) ++ [10])
        fun member => oneLine (List.mem_of_mem_take member)
      rwa [List.length_take_of_le long, ← List.append_assoc, List.take_append_drop] at full
    · rcases List.mem_append.mp member with inRest | newline
      · have lengths := congrArg List.length parts
        rw [List.length_append, header] at lengths
        have suffix : (responseLine chain).drop (maxMsgSize - 1) <:+ render (chainRest chain) ++ [125] := by
          refine List.suffix_of_suffix_length_le (List.drop_suffix _ _) ?_ ?_
          · rw [parts]
            exact List.suffix_append _ _
          · rw [List.length_drop]
            omega
        exact body (suffix.subset inRest)
      · exact absurd newline (by decide)

/-- A line that is a chain response or nothing makes a longer valid chain the
peer's own exactly if it is read as the response with this chain. -/
theorem handleMessage_chain (chain : Blockchain) (valid : chain.IsChain (Linked ssl.sha256))
    (peer : Node ssl) (fd : Nat) (shorter : peer.chain.length < chain.length) (raw : List UInt8)
    (only : ∀ message, decode raw = some message → ∃ other, message = .chainResponse other) :
    (handleMessage peer fd raw).1.chain = chain ↔ decode raw = some (.chainResponse chain) := by
  have different : peer.chain ≠ chain := fun same => by
    rw [same] at shorter
    exact lt_irrefl _ shorter
  rw [handleMessage_eq]
  cases read : decode raw with
  | none => simp [different]
  | some message =>
    obtain ⟨other, rfl⟩ := only message read
    rw [Option.some.injEq, Message.chainResponse.injEq]
    simp only [react]
    cases replaced : chainReplace ssl.sha256 peer.chain other with
    | none =>
      refine iff_of_false different fun same => ?_
      have accepted := (chainReplace_iff ssl.sha256 peer.chain chain chain).mpr ⟨shorter, valid, rfl⟩
      rw [← same, replaced] at accepted
      cases accepted
    | some after =>
      obtain ⟨-, -, rfl⟩ := (chainReplace_iff _ _ _ _).mp replaced
      exact Iff.rfl

/-- All that a peer takes from a chain response is its first line. -/
theorem peerHandler_text (chain : Blockchain) (coded : ∀ block ∈ chain, block.Coded)
    (fits : chain.length ≤ maxBlocks) (peer : Node ssl) (fd : Nat) :
    peerHandler peer fd (Message.chainResponse chain).text =
      (handleMessage peer fd ((responseLine chain).take (maxMsgSize - 1))).1 := by
  obtain ⟨rest, first, headless⟩ := readMessage_response chain coded
  have text : (Message.chainResponse chain).text = responseLine chain ++ [10] :=
    chainResponse_text _ fits fun block member => (coded block member).safe
  rw [text, peerHandler]
  split
  · next none =>
    rw [first] at none
    cases none
  · next line left read =>
    rw [first] at read
    obtain ⟨rfl, rfl⟩ := Prod.mk.inj (Option.some.inj read)
    exact peerHandler_headless _ fd _ headless

/-- A peer with a shorter chain ends with this chain exactly if its line exceeds
the buffer by at most the closing marks. -/
theorem peerHandler_response (others : List Block) (last : Block)
    (coded : ∀ block ∈ others ++ [last], block.Coded) (nonempty : last.listed ≠ [])
    (fits : (others ++ [last]).length ≤ maxBlocks)
    (valid : ((others ++ [last]).map Block.compact).IsChain (Linked ssl.sha256)) (peer : Node ssl) (fd : Nat)
    (shorter : peer.chain.length < (others ++ [last]).length) :
    (peerHandler peer fd (Message.chainResponse (others ++ [last])).text).chain =
        (others ++ [last]).map Block.compact ↔
      responseSize (others ++ [last]) ≤ maxMsgSize + 7 := by
  have safe : ∀ block ∈ others ++ [last], block.Safe := fun block member => (coded block member).safe
  have text : (Message.chainResponse (others ++ [last])).text = responseLine (others ++ [last]) ++ [10] :=
    chainResponse_text _ fits safe
  have split := List.take_append_drop (maxMsgSize - 1) (responseLine (others ++ [last]))
  have size : maxMsgSize = 1048576 := rfl
  have header : 10 ≤ (responseLine (others ++ [last])).length := by
    simp [responseLine, envelopePieces, envelopeFields, Field.pieces]
    omega
  have only := decode_response_only (others ++ [last]) coded _ _ split (by
    rw [List.length_take]
    omega)
  rw [peerHandler_text _ coded fits, handleMessage_chain _ valid peer fd (by simpa using shorter) _ only,
    decode_cut others last coded nonempty fits _ _ split, ← responseSize_eq _ fits safe, text,
    List.length_drop, List.length_append, List.length_singleton]
  omega

/-- A chain that is one block arrives. -/
theorem peerHandler_single (genesis : Block) (coded : genesis.Coded)
    (valid : ([genesis].map Block.compact).IsChain (Linked ssl.sha256)) (peer : Node ssl) (fd : Nat)
    (shorter : peer.chain.length < [genesis].length) :
    (peerHandler peer fd (Message.chainResponse [genesis]).text).chain = [genesis].map Block.compact ∧
      responseSize [genesis] ≤ maxMsgSize := by
  have fits : [genesis].length ≤ maxBlocks := by simp [maxBlocks]
  have codedAll : ∀ block ∈ [genesis], block.Coded := by simpa using coded
  have safe : ∀ block ∈ [genesis], block.Safe := fun block member => (codedAll block member).safe
  have oneLine : ∀ block ∈ [genesis], block.OneLine := fun block member => (codedAll block member).oneLine
  have text : (Message.chainResponse [genesis]).text = responseLine [genesis] ++ [10] :=
    chainResponse_text _ fits safe
  have size : maxMsgSize = 1048576 := rfl
  have small : responseSize [genesis] ≤ 7000 := by
    have block := blockPieces_length genesis coded.safe.unquoted
    rw [blockSize_eq genesis coded.safe] at block
    have digits : (signedDecimal ((1 : Nat) : Int)).length = 1 := by decide
    simp only [responseSize, List.length_singleton, digits, List.map_cons, List.map_nil, joinedSize,
      List.sum_nil]
    omega
  have length := responseSize_eq [genesis] fits safe
  rw [text, List.length_append, List.length_singleton] at length
  have whole : (responseLine [genesis]).take (maxMsgSize - 1) = (Message.chainResponse [genesis]).line := by
    rw [Message.line, text, List.dropLast_concat]
    exact List.take_of_length_le (by omega)
  have read := decode_chainResponse [genesis] (by simp) fits safe oneLine
  refine ⟨?_, by omega⟩
  rw [peerHandler_text _ codedAll fits, whole, handleMessage_chain _ valid peer fd (by simpa using shorter)]
  · exact read
  · intro message found
    rw [read] at found
    exact ⟨_, (Option.some.inj found).symm⟩

/-! ## Honest mining -/

/-- What a user whose node has this chain sends to a hexadecimal address. It is
signed by the wallet of the node. -/
def Paid (ssl : OpenSSL) (chain : Blockchain) (tx : Tx) : Prop :=
  ∃ (node : Node ssl) (receiver : Token) (amount fee : UInt64), node.chain = chain ∧
    (∀ c ∈ receiver.bytes, isHex c = true) ∧ doSendTx node receiver amount fee = some tx

/-- The chains that honest mining reaches from the genesis block. The payments
in the mempool were sent by users whose nodes had such chains, too. -/
inductive Mined (ssl : OpenSSL) : Blockchain → Prop where
  | genesis {chain : Blockchain} (created : chainInit ssl.sha256 = some chain) : Mined ssl chain
  | block {chain grown : Blockchain} {mempool : List Tx} {wallet : Wallet ssl} {tip mined : Block}
      {time : Int64} {attempts : UInt64} (seen : Tx → Blockchain) (before : Mined ssl chain)
      (known : ∀ tx ∈ mempool, Mined ssl (seen tx)) (paid : ∀ tx ∈ mempool, Paid ssl (seen tx) tx)
      (read : chainLastBlock chain = some tip)
      (found : blockMine ssl.sha256 (fillBlock ssl.sha256 chain mempool wallet.address
        (blockAfter tip time)) = some (attempts, mined))
      (accepted : chainAddBlock ssl.sha256 chain mined = some grown) : Mined ssl grown

/-- What holds of all that is created holds of mined chains. -/
theorem Mined.contents {contents : Contents} (lawful : contents.Lawful ssl)
    (sent : ∀ chain tx, Paid ssl chain tx → contents.tx tx) {chain : Blockchain} (mined : Mined ssl chain) :
    contents.chain chain := by
  induction mined with
  | genesis created => exact lawful.started _ created
  | @block chain grown mempool wallet tip mined time attempts seen before known paid read found accepted ih =>
    obtain ⟨follows, rfl⟩ := extends_of_chainAddBlock _ _ _ _ accepted
    exact lawful.extended _ _ ih (lawful.mined _ attempts mined
      ⟨chain, mempool, wallet, _, ⟨chain, tip, time, ih, read, rfl⟩, fun tx member => sent _ tx (paid tx member),
        rfl⟩ found) follows

/-- Blocks of addresses, signatures and hashes that list a transaction, on a
first block that need not. -/
def codedContents (ssl : OpenSSL) : Contents where
  tx := Tx.Coded
  block block := block.Coded ∧ block.compact = block ∧ block.listed ≠ []
  chain chain := chain.length ≤ maxBlocks ∧ chain.IsChain (Linked ssl.sha256) ∧
    ∃ genesis rest, chain = genesis :: rest ∧ genesis.Coded ∧ genesis.compact = genesis ∧
      ∀ block ∈ rest, block.Coded ∧ block.compact = block ∧ block.listed ≠ []

/-- Hexadecimal digits are among these bytes. -/
theorem codeByte_hex {c : UInt8} (hex : isHex c = true) : CodeByte c := Or.inl hex

/-- So a digest is made of them. -/
theorem hexDigest_coded (digest : Vector UInt8 32) : ∀ c ∈ (hexDigest digest).bytes, CodeByte c :=
  fun c member => codeByte_hex (hexText32_isHex digest c member)

/-- So is the address of a wallet. -/
theorem address_coded (wallet : Wallet ssl) : ∀ c ∈ wallet.address.bytes, CodeByte c := by
  rw [wallet.exported]
  exact fun c member => codeByte_hex (hexText32_isHex _ c member)

/-- So is a transaction with such addresses, and its hash is never empty. -/
theorem tx_coded (tx : Tx) (sender : ∀ c ∈ tx.sender.bytes, CodeByte c)
    (receiver : ∀ c ∈ tx.receiver.bytes, CodeByte c) (signature : ∀ c ∈ tx.signature.bytes, CodeByte c)
    (digest : Vector UInt8 32) (hash : tx.txHash = hexDigest digest) : tx.Coded := by
  refine ⟨fun c member => ?_, fun none => ?_⟩
  · simp only [Tx.texts, List.mem_append] at member
    rcases member with ((inSender | inReceiver) | inSignature) | inHash
    · exact sender c inSender
    · exact receiver c inReceiver
    · exact signature c inSignature
    · rw [hash] at inHash
      exact hexDigest_coded digest c inHash
  · have length := hexText32_length digest
    rw [hash] at none
    rw [show (hexText32 digest).bytes = [] from none] at length
    cases length

/-- So is what `do_send` makes for a hexadecimal receiver. -/
theorem paid_coded (chain : Blockchain) (tx : Tx) (paid : Paid ssl chain tx) : tx.Coded := by
  obtain ⟨node, receiver, amount, fee, -, hex, made⟩ := paid
  obtain ⟨-, -, signed⟩ := doSendTx_some node receiver amount fee tx made
  obtain ⟨sig, -, rfl⟩ := Option.map_eq_some_iff.mp signed
  refine tx_coded _ (address_coded node.wallet) (fun c member => ?_) (fun c member => ?_) _ rfl
  · exact codeByte_hex (hex c (CText.mem_ofBytes receiver.bytes c member))
  · exact codeByte_hex (hexText_isHex sig.toList c (CText.mem_ofBytes _ c member))

/-- So is the reward, whose sender and signature are capital letters. -/
theorem coinbaseTx_coded (sha : Sha256) (wallet : Wallet ssl) (txs : List Tx) :
    (coinbaseTx sha wallet.address txs).Coded :=
  tx_coded _ (show ∀ c ∈ coinbaseAddr.bytes, CodeByte c by decide) (address_coded wallet)
    (show ∀ c ∈ (CText.ofBytes (ascii "COINBASE") : CText sigLen).bytes, CodeByte c by decide) _ rfl

/-- So is the hash of a valid block, as it is a digest. -/
theorem hash_coded (sha : Sha256) (block : Block) (valid : blockValidate sha block = true) :
    ∀ c ∈ block.hash.bytes, CodeByte c := by
  rw [((blockValidate_iff sha block).mp valid).1]
  exact hexDigest_coded _

/-- Blocks that are mined list the reward at least, and chains keep their
links. -/
theorem lawful_coded (ssl : OpenSSL) : (codedContents ssl).Lawful ssl where
  started chain created := by
    obtain ⟨genesis, made, rfl⟩ := Option.map_eq_some_iff.mp created
    obtain ⟨⟨nonce, hash, same⟩, valid⟩ := blockCreateGenesis_some ssl.sha256 genesis made
    have hashCoded := hash_coded ssl.sha256 genesis valid
    refine ⟨by simp [maxBlocks], List.isChain_singleton _, genesis, [], rfl, ?_, ?_, by simp⟩ <;> subst same
    · exact ⟨show ∀ c ∈ genesisTemplate.prevHash.bytes, CodeByte c by decide, hashCoded,
        fun tx inList => absurd inList List.not_mem_nil, ⟨(by decide : 0 ≤ genesisTemplate.txCount.toInt),
          (by decide : genesisTemplate.InBounds)⟩⟩
    · rfl
  extended chain block holds new follows := by
    obtain ⟨-, valid, genesis, rest, rfl, first, compact, others⟩ := holds
    obtain ⟨room, last, tip, -, linked⟩ := follows
    refine ⟨by simpa using room, isChain_append_block _ _ last block valid tip linked, genesis,
      rest ++ [block], rfl, first, compact, fun other member => ?_⟩
    rcases List.mem_append.mp member with old | appended
    · exact others other old
    · exact List.mem_singleton.mp appended ▸ new
  mined filled attempts block filledFrom found := by
    obtain ⟨chain, mempool, wallet, begun, ⟨tips, last, time, holds, tip, rfl⟩, txs, rfl⟩ := filledFrom
    obtain ⟨-, valid⟩ := blockMine_some ssl.sha256 _ block attempts found
    have hashCoded := hash_coded ssl.sha256 block valid
    obtain ⟨-, -, genesis, rest, rfl, first, -, others⟩ := holds
    have lastCoded : last.Coded := by
      rcases List.mem_cons.mp (List.mem_of_getLast? tip) with rfl | inRest
      · exact first
      · exact (others last inRest).1
    have content := blockMine_sameContent found
    refine ⟨⟨?_, hashCoded, fun tx member => ?_, ?_⟩, ?_, ?_⟩
    · rw [content.prevHash]
      exact lastCoded.hash
    · rw [content.listed, fillBlock_listed] at member
      rcases List.mem_cons.mp member with rfl | selected
      · exact coinbaseTx_coded ssl.sha256 wallet _
      · exact txs tx ((selectTxs_sublist _ _).subset selected)
    · rw [Block.CountInRange, Block.InBounds, content.txCount]
      exact fillBlock_countInRange _ _ _ _ _
    · exact blockMine_compact ssl.sha256 _ block attempts found
        (fillBlock_compact ssl.sha256 chain mempool wallet.address _)
    · rw [content.listed, fillBlock_listed]
      exact List.cons_ne_nil _ _

/-- The blocks of a mined chain. -/
theorem Mined.coded {chain : Blockchain} (mined : Mined ssl chain) :
    (codedContents ssl).chain chain ∧ ∀ block ∈ chain, block.Coded := by
  have holds := mined.contents (lawful_coded ssl) paid_coded
  refine ⟨holds, fun block member => ?_⟩
  obtain ⟨-, -, genesis, rest, rfl, first, -, others⟩ := holds
  rcases List.mem_cons.mp member with rfl | inRest
  · exact first
  · exact (others block inRest).1

/-- What `do_send` makes for a hexadecimal receiver is plain. -/
theorem paid_plain (chain : Blockchain) (tx : Tx) (paid : Paid ssl chain tx) : tx.Plain := by
  obtain ⟨node, receiver, amount, fee, -, hex, made⟩ := paid
  exact doSendTx_plain node receiver amount fee tx (plainText_hex _ hex) made

/-- A response with a mined chain is a plain message. -/
theorem Mined.plain {chain : Blockchain} (mined : Mined ssl chain) : (Message.chainResponse chain).Plain :=
  mined.contents (lawful_plain ssl) paid_plain

/-- A peer that reads the response with a mined chain ends with this chain
exactly if the response fits. -/
theorem mined_arrives {chain : Blockchain} (mined : Mined ssl chain) (peer : Node ssl) (fd : Nat)
    (shorter : peer.chain.length < chain.length) :
    (peerHandler peer fd (Message.chainResponse chain).text).chain = chain ↔
      responseSize chain ≤ maxMsgSize + 7 := by
  obtain ⟨⟨fits, valid, genesis, rest, rfl, first, compactFirst, others⟩, coded⟩ := mined.coded
  have compact : (genesis :: rest).map Block.compact = genesis :: rest := by
    conv_rhs => rw [← List.map_id (genesis :: rest)]
    refine List.map_congr_left fun block member => ?_
    rcases List.mem_cons.mp member with rfl | inRest
    · exact compactFirst
    · exact (others block inRest).2.1
  rcases List.eq_nil_or_concat rest with rfl | ⟨before, last, rfl⟩
  · obtain ⟨arrives, small⟩ := peerHandler_single genesis first (by rwa [compact]) peer fd shorter
    rw [compact] at arrives
    exact iff_of_true arrives (by omega)
  · have shape : genesis :: before.concat last = (genesis :: before) ++ [last] := by simp
    have listed := (others last (by simp)).2.2
    rw [shape] at coded compact fits valid shorter ⊢
    have response := peerHandler_response (genesis :: before) last coded listed fits (by rwa [compact]) peer
      fd shorter
    rwa [compact] at response

/-! ## How long a chain may be -/

/-- Bounds of each length, and one comma, bound the whole. -/
theorem joinedSize_cons_bounds (low high first : Nat) (rest : List Nat)
    (bounds : ∀ size ∈ rest, low ≤ size ∧ size ≤ high) :
    first + (low + 1) * rest.length ≤ joinedSize (first :: rest) ∧
      joinedSize (first :: rest) ≤ first + (high + 1) * rest.length := by
  have sums : (low + 1) * rest.length ≤ (rest.map (· + 1)).sum ∧
      (rest.map (· + 1)).sum ≤ (high + 1) * rest.length := by
    induction rest with
    | nil => simp
    | cons size rest ih =>
      have here := bounds size List.mem_cons_self
      have later := ih fun other member => bounds other (List.mem_cons_of_mem size member)
      simp only [List.map_cons, List.sum_cons, List.length_cons, Nat.mul_succ]
      omega
  simp only [joinedSize]
  omega

/-- What a block takes at least, without and with transactions, and at most. -/
theorem blockSize_bounds (block : Block) (coded : block.Coded) :
    91 ≤ blockSize block ∧ (block.listed ≠ [] → 166 ≤ blockSize block) ∧ blockSize block ≤ 5900 := by
  have upper := blockText_length block
  rw [blockText_eq block coded.safe.unquoted, blockSize_eq block coded.safe] at upper
  have index := List.length_pos_of_ne_nil (decimal_ne_nil block.index.toNat)
  have timestamp := List.length_pos_of_ne_nil (signedDecimal_ne_nil block.timestamp.toInt)
  have nonce := List.length_pos_of_ne_nil (decimal_ne_nil block.nonce.toNat)
  have txCount := List.length_pos_of_ne_nil (signedDecimal_ne_nil block.txCount.toInt)
  refine ⟨?_, fun nonempty => ?_, upper⟩
  · simp only [blockSize]
    omega
  · obtain ⟨first, others, listed⟩ := List.exists_cons_of_ne_nil nonempty
    have hashed := List.length_pos_of_ne_nil (coded.txs first (by simp [listed])).hashed
    have amount := List.length_pos_of_ne_nil (decimal_ne_nil first.amount.toNat)
    have fee := List.length_pos_of_ne_nil (decimal_ne_nil first.fee.toNat)
    simp only [blockSize, listed, List.map_cons, joinedSize, txSize, Tx.texts, List.length_append]
    omega

/-- The response grows with the chain. -/
theorem responseSize_bounds {chain : Blockchain} (mined : Mined ssl chain) :
    167 * chain.length ≤ responseSize chain + 30 ∧ responseSize chain ≤ 5901 * chain.length + 50 := by
  obtain ⟨⟨fits, -, genesis, rest, rfl, first, -, others⟩, -⟩ := mined.coded
  obtain ⟨least, -, most⟩ := blockSize_bounds genesis first
  have later : ∀ size ∈ rest.map blockSize, 166 ≤ size ∧ size ≤ 5900 := by
    intro size member
    obtain ⟨block, inRest, rfl⟩ := List.mem_map.mp member
    obtain ⟨coded, -, nonempty⟩ := others block inRest
    obtain ⟨-, full, most⟩ := blockSize_bounds block coded
    exact ⟨full nonempty, most⟩
  obtain ⟨lower, upper⟩ := joinedSize_cons_bounds 166 5900 (blockSize genesis) _ later
  have digits := List.length_pos_of_ne_nil (signedDecimal_ne_nil ((genesis :: rest).length : Int))
  have few : (signedDecimal ((genesis :: rest).length : Int)).length ≤ 5 := by
    have plain : signedDecimal ((genesis :: rest).length : Int) = decimal (genesis :: rest).length := rfl
    rw [plain]
    exact decimal_length _ 5 (lt_of_le_of_lt fits (by decide)) (by decide)
  rw [List.length_map] at lower upper
  simp only [responseSize, List.map_cons, List.length_cons] at digits few ⊢
  omega

end MiniCoin
