import MiniCoin.Contents
import MiniCoin.GenesisBlock

/-!
# Runs with plain texts

Nodes that exchange plain and short messages only. As long as users send to plain
addresses, all that nodes create is plain, so a run of the network of bytes is a run of the
network of messages. Lines can only be too long when they carry a long chain.
-/

namespace MiniCoin

open ByteStrings QuotedText Runs

variable {ι : Type} {ssl : OpenSSL}

/-! ## What nodes create -/

/-- Plain transactions and blocks, and chains of them that fit a receiver. -/
def plainContents : Contents where
  tx := Tx.Plain
  block := Block.Plain
  chain chain := chain ≠ [] ∧ chain.length ≤ maxBlocks ∧ ∀ block ∈ chain, block.Plain

/-- A digest is printed in hexadecimal digits, and these are plain. -/
theorem plain_hexDigest (digest : Vector UInt8 32) : PlainText (hexDigest digest).bytes :=
  plainText_hex _ (hexText32_isHex digest)

/-- So is the address of a wallet, whose key is exported in such digits. -/
theorem plain_address (wallet : Wallet ssl) : PlainText wallet.address.bytes := by
  rw [wallet.exported]
  exact plainText_hex _ (hexText32_isHex _)

/-- And a signature, even if it is cut to the array. -/
theorem plain_signature (sig : Vector UInt8 64) :
    PlainText (CText.ofBytes (hexText sig.toList) : CText sigLen).bytes := by
  refine plainText_hex _ fun c member => ?_
  exact hexText_isHex sig.toList c (CText.mem_ofBytes _ c member)

/-- A transaction is plain if its four texts are. -/
theorem plain_tx (tx : Tx) (sender : PlainText tx.sender.bytes) (receiver : PlainText tx.receiver.bytes)
    (signature : PlainText tx.signature.bytes) (txHash : PlainText tx.txHash.bytes) : tx.Plain := by
  intro c member
  simp only [Tx.texts, List.mem_append] at member
  rcases member with ((inSender | inReceiver) | inSignature) | inHash
  · exact sender c inSender
  · exact receiver c inReceiver
  · exact signature c inSignature
  · exact txHash c inHash

/-- What a user sends to a plain address. -/
theorem doSendTx_plain (node : Node ssl) (receiver : Token) (amount fee : UInt64) (tx : Tx)
    (plain : PlainText receiver.bytes) (made : doSendTx node receiver amount fee = some tx) :
    tx.Plain := by
  obtain ⟨-, -, signed⟩ := doSendTx_some node receiver amount fee tx made
  obtain ⟨sig, -, rfl⟩ := Option.map_eq_some_iff.mp signed
  refine plain_tx _ (plain_address node.wallet) (fun c member => ?_) (plain_signature sig)
    (plain_hexDigest _)
  exact plain c (CText.mem_ofBytes receiver.bytes c member)

/-- The reward of a miner is plain: its sender is a constant and its receiver a
wallet. -/
theorem coinbaseTx_plain (sha : Sha256) (wallet : Wallet ssl) (txs : List Tx) :
    (coinbaseTx sha wallet.address txs).Plain :=
  plain_tx _ (show PlainText coinbaseAddr.bytes by decide) (plain_address wallet)
    (show PlainText (CText.ofBytes (ascii "COINBASE") : CText sigLen).bytes by decide)
    (plain_hexDigest _)

/-- A filled block has zero in its unused slots. -/
theorem fillBlock_compact (sha : Sha256) (chain : Blockchain) (mempool : List Tx)
    (minerAddr : CText addrLen) (block : Block) :
    (fillBlock sha chain mempool minerAddr block).compact =
      fillBlock sha chain mempool minerAddr block := by
  rw [Block.compact, fillBlock_listed]
  rfl

/-- A block that was filled lists at least the reward, and no more than it has
slots for. -/
theorem fillBlock_countInRange (sha : Sha256) (chain : Blockchain) (mempool : List Tx)
    (minerAddr : CText addrLen) (block : Block) :
    (fillBlock sha chain mempool minerAddr block).CountInRange := by
  refine ⟨?_, fillBlock_inBounds sha chain mempool minerAddr block⟩
  rw [fillBlock_count]
  omega

/-- Mining leaves the unused slots as they are. -/
theorem blockMine_compact (sha : Sha256) (filled block : Block) (attempts : UInt64)
    (found : blockMine sha filled = some (attempts, block)) (compact : filled.compact = filled) :
    block.compact = block := by
  have slots := congrArg Block.transactions compact
  have listed := (blockMine_sameContent found).listed
  obtain ⟨⟨nonce, hash, rfl⟩, -⟩ := blockMine_some sha filled block attempts found
  rw [Block.compact, listed]
  exact congrArg (fun transactions =>
    { filled with transactions := transactions, nonce := nonce, hash := hash }) slots

/-- A valid block stores a computed hash. -/
theorem plain_hash (sha : Sha256) (block : Block) (valid : blockValidate sha block = true) :
    PlainText block.hash.bytes := by
  rw [((blockValidate_iff sha block).mp valid).1]
  exact plain_hexDigest _

/-- What nodes create out of plain data is plain, so nothing else can arise in a
run where users type plain addresses. -/
theorem lawful_plain (ssl : OpenSSL) : plainContents.Lawful ssl where
  started chain created := by
    obtain ⟨genesis, made, rfl⟩ := Option.map_eq_some_iff.mp created
    obtain ⟨⟨nonce, hash, same⟩, valid⟩ := blockCreateGenesis_some ssl.sha256 genesis made
    have hashPlain := plain_hash ssl.sha256 genesis valid
    refine ⟨by simp, by simp [maxBlocks], fun block member => ?_⟩
    obtain rfl := List.mem_singleton.mp member
    subst same
    exact ⟨show PlainText genesisTemplate.prevHash.bytes by decide, hashPlain,
      fun tx inList => absurd inList List.not_mem_nil, ⟨(by decide : 0 ≤ genesisTemplate.txCount.toInt),
        (by decide : genesisTemplate.InBounds)⟩, rfl⟩
  extended chain block holds new follows := by
    obtain ⟨nonempty, fits, plain⟩ := holds
    have room : chain.length < maxBlocks := follows.1
    refine ⟨by simp, by simpa using room, fun other member => ?_⟩
    rcases List.mem_append.mp member with old | last
    · exact plain other old
    · exact List.mem_singleton.mp last ▸ new
  mined filled attempts block filledFrom found := by
    obtain ⟨chain, mempool, wallet, begun, ⟨tips, last, time, holds, tip, rfl⟩, txs, rfl⟩ := filledFrom
    obtain ⟨-, valid⟩ := blockMine_some ssl.sha256 _ block attempts found
    have hashPlain := plain_hash ssl.sha256 block valid
    have lastPlain := holds.2.2 last (List.mem_of_getLast? tip)
    have content := blockMine_sameContent found
    refine ⟨?_, hashPlain, fun tx member => ?_, ?_, ?_⟩
    · rw [content.prevHash]
      exact lastPlain.hash
    · rw [content.listed, fillBlock_listed] at member
      rcases List.mem_cons.mp member with rfl | selected
      · exact coinbaseTx_plain ssl.sha256 wallet _
      · exact txs tx ((selectTxs_sublist _ _).subset selected)
    · rw [Block.CountInRange, Block.InBounds, content.txCount]
      exact fillBlock_countInRange _ _ _ _ _
    · exact blockMine_compact ssl.sha256 _ block attempts found
        (fillBlock_compact ssl.sha256 chain mempool wallet.address _)

/-- The contents of a message are plain exactly if the message is. -/
theorem inMessage_plain (message : Message) : plainContents.InMessage message ↔ message.Plain := by
  cases message <;> rfl

/-! ## Readable networks -/

/-- All stored and waiting texts are plain, and all waiting lines fit the
buffer. -/
structure Readable (net : Network ι ssl Message) : Prop where
  plain : plainContents.InNetwork net
  short : ∀ socket, ∀ message ∈ net.channel socket, message.text.length < maxMsgSize

/-- Users send to plain addresses. -/
def PlainTexts : NetEvent ι → Prop
  | .act _ (.send receiver _ _) => PlainText receiver.bytes
  | _ => True

/-- Plain and short is all that a line needs to arrive as it was sent. -/
theorem Readable.deliverable {net : Network ι ssl Message} (readable : Readable net) :
    Deliverable net := by
  intro socket message waits
  exact ⟨(inMessage_plain message).mp (readable.plain.channels socket message waits),
    readable.short socket message waits⟩

/-- A user who types plain addresses sends plain transactions. -/
theorem sends_plain (net : Network ι ssl Message) (event : NetEvent ι) (plain : PlainTexts event) :
    plainContents.Sends net event := by
  cases event with
  | act i action =>
    cases action with
    | send receiver amount fee =>
      exact fun tx made => doSendTx_plain _ receiver amount fee tx plain made
    | mineTip | mineSelect | mineAdd | mineBroadcast => trivial
  | deliver | connect | accept | closed => trivial

/-- At the start nothing waits and every chain is the genesis block. -/
theorem readable_started (net : Network ι ssl Message) (started : net.Started) : Readable net where
  plain := Contents.inNetwork_started (lawful_plain ssl) net started
  short socket message waits := by simp [started.channel socket] at waits

/-- The network of messages with the same nodes and nothing under way. -/
def Network.quiet (net : Network ι ssl UInt8) : Network ι ssl Message :=
  ⟨net.nodes, net.remote, fun _ => []⟩

/-- Without waiting bytes the two networks are the same. -/
theorem represent_quiet (net : Network ι ssl UInt8) (quiet : ∀ socket, net.channel socket = []) :
    net.quiet.represent = net :=
  Network.ext rfl rfl (funext fun socket => (quiet socket).symm)

/-- So a start of one is a start of the other. -/
theorem quiet_started (net : Network ι ssl UInt8) (started : net.Started) : net.quiet.Started :=
  ⟨started.nodes, started.remote, fun _ => rfl⟩

variable [DecidableEq ι]

/-- The lines that a step sends fit the buffer of `read_message`. It is a
condition on the run, since chains may grow beyond it. -/
def ShortLines (net : Network ι ssl UInt8) (event : NetEvent ι) : Prop :=
  ∀ move, net.move bytes event = some move →
    ∀ packet ∈ move.packets, packet.message.text.length < maxMsgSize

/-- A step keeps the network readable, if what is typed is plain and what is
sent is short. -/
theorem readable_step (net next : Network ι ssl Message) (event : NetEvent ι)
    (readable : Readable net) (plain : PlainTexts event) (short : ShortLines net.represent event)
    (stepped : net.step messages event = some next) : Readable next := by
  refine ⟨Contents.inNetwork_step (lawful_plain ssl) net next event readable.plain
    (sends_plain net event plain) stepped, ?_⟩
  obtain ⟨move, moved, rfl⟩ := Option.map_eq_some_iff.mp stepped
  intro socket message waits
  rcases move.mem_post socket message waits with old | ⟨packet, member, rfl⟩
  · cases move_moves net event move moved with
    | acted acts => exact readable.short socket message old
    | @delivered i fd first rest node packets waiting reacts =>
      by_cases here : socket = (i, fd)
      · subst here
        refine readable.short (i, fd) message ?_
        rw [waiting]
        exact List.mem_cons_of_mem _ (by simpa [Network.drain] using old)
      · exact readable.short socket message (by simpa [Network.drain, here, Network.put] using old)
    | peers peers remote greeting => exact readable.short socket message old
  · refine short move.represent ?_ packet member
    rw [move_represent net event readable.deliverable, moved]
    rfl

/-- A run of the network of bytes is a run of the network of messages, whose
steps meet the same conditions. -/
theorem run_represent (condition : Network ι ssl UInt8 → NetEvent ι → Prop)
    (plain : ∀ net event, condition net event → PlainTexts event)
    (short : ∀ net event, condition net event → ShortLines net event)
    (start : Network ι ssl Message) (events : List (NetEvent ι)) (readable : Readable start)
    (every : Every (Network.step bytes) condition start.represent events) :
    run (Network.step bytes) start.represent events =
        (run (Network.step messages) start events).map Network.represent ∧
      Every (Network.step messages) (fun net event => condition net.represent event) start events := by
  have agrees : ∀ net event, Readable net → condition net.represent event →
      Network.step bytes net.represent event =
        (Network.step messages net event).map Network.represent :=
    fun net event readable _ => step_represent net event readable.deliverable
  have preserved : ∀ net event next, Readable net → condition net.represent event →
      Network.step messages net event = some next → Readable next :=
    fun net event next readable met stepped =>
      readable_step net next event readable (plain _ _ met) (short _ _ met) stepped
  exact ⟨run_map _ _ Network.represent condition Readable agrees preserved start events readable every,
    every_map _ _ Network.represent condition Readable agrees preserved start events readable every⟩

/-! ## Short runs -/

/-- An envelope adds 23 bytes at most. -/
theorem serializeMsg_length (type : MsgType) (payload : List UInt8) :
    (protocolSerializeMsg type (some payload)).length ≤ payload.length + 23 := by
  have digits : (signedDecimal type.code.toInt).length ≤ 2 := by cases type <;> decide
  have constants : (ascii "\x7b\"type\":").length = 8 ∧ (ascii ",\"payload\":").length = 11 ∧
      (ascii "\x7d\n").length = 2 := by decide
  rw [protocolSerializeMsg_fits]
  simp only [Option.getD_some, List.length_append, constants]
  omega

/-- The line of a block is far shorter than the buffer of a reader. -/
theorem newBlock_length (block : Block) (unquoted : block.Unquoted) :
    (Message.newBlock block).text.length ≤ 7000 := by
  have object := blockPieces_length block unquoted
  have line := serializeMsg_length .newBlock (render (blockPieces block []))
  rw [Message.text, protocolSerializeBlock_eq block unquoted]
  omega

/-- So is the line of a transaction. -/
theorem newTx_length (tx : Tx) (unquoted : tx.Unquoted) :
    (Message.newTx tx).text.length ≤ 7000 := by
  have object := txPieces_length tx unquoted
  have line := serializeMsg_length .newTx (render (txPieces tx))
  rw [Message.text, protocolSerializeTx_eq tx unquoted]
  omega

/-- The blocks of a chain decide how long its line is; the other lines are
short. -/
theorem text_length (message : Message) (plain : message.Plain) (limit : Nat)
    (few : ∀ chain, message = .chainResponse chain → chain.length ≤ limit) :
    message.text.length ≤ 6501 * limit + 7000 := by
  cases message with
  | newBlock block => exact le_trans (newBlock_length block (Block.Plain.safe plain).unquoted) (by omega)
  | newTx tx => exact le_trans (newTx_length tx (Tx.Plain.safe plain).unquoted) (by omega)
  | chainResponse chain =>
    have short := few chain rfl
    obtain ⟨-, fits, blocks⟩ := plain
    have safe : ∀ block ∈ chain, block.Safe := fun block member => (blocks block member).safe
    have blocks := blocksPieces_length false chain safe
    have fits' : chain.length ≤ 10000 := fits
    have digits := signedDecimal_length chain.length 5 (by omega) (by decide)
    have keys : (ascii "length").length = 6 ∧ (ascii "blocks").length = 6 := by decide
    have line := serializeMsg_length .chainResponse (render (chainPieces chain))
    have object : (render (chainPieces chain)).length ≤ 6501 * chain.length + 40 := by
      simp only [chainPieces, chainFields, Field.pieces, fieldPieces_cons, fieldPieces_nil,
        render_plain, render_quoted, render_append, render_nil, List.length_append, List.length_cons,
        List.cons_append, List.nil_append, List.length_nil, keys]
      omega
    rw [Message.text, protocolSerializeChain_eq chain fits safe]
    omega
  | requestChain | ping | pong =>
    have text : ∀ type : MsgType, (protocolSerializeMsg type none).length ≤ 25 := by
      intro type
      cases type <;> decide
    exact le_trans (text _) (by omega)

/-- No chain is longer than this, stored or under way. It grows by one at most
in each step, so short runs have short lines. -/
structure ChainsWithin (limit : Nat) (net : Network ι ssl Message) : Prop where
  nodes : ∀ i, (net.nodes i).chain.length ≤ limit
  channels : ∀ socket, ∀ chain, .chainResponse chain ∈ net.channel socket → chain.length ≤ limit

/-- A step makes chains longer by at most one block. -/
theorem chainsWithin_move (limit : Nat) (net : Network ι ssl Message) (event : NetEvent ι)
    (move : Move ι ssl Message) (within : ChainsWithin limit net)
    (moved : net.move messages event = some move) :
    ChainsWithin (limit + 1) move.net ∧
      ∀ packet ∈ move.packets, ∀ chain, packet.message = .chainResponse chain →
        chain.length ≤ limit := by
  have still : ∀ i, (net.nodes i).chain.length ≤ limit + 1 := fun i => Nat.le_succ_of_le (within.nodes i)
  have channels : ∀ socket chain, .chainResponse chain ∈ net.channel socket →
      chain.length ≤ limit + 1 :=
    fun socket chain waits => Nat.le_succ_of_le (within.channels socket chain waits)
  have longer (i : ι) (node : Node ssl) (new : node.chain.length ≤ limit + 1) :
      ∀ j, ((net.put i node).nodes j).chain.length ≤ limit + 1 :=
    net.forall_put i node (fun node => node.chain.length ≤ limit + 1) still new
  have grown (i : ι) (block : Block) (chain : Blockchain)
      (accepted : chainAddBlock ssl.sha256 (net.nodes i).chain block = some chain) :
      chain.length ≤ limit + 1 := by
    obtain ⟨-, rfl⟩ := extends_of_chainAddBlock _ _ _ _ accepted
    simpa using within.nodes i
  cases move_moves net event move moved with
  | @acted i action node packets acts =>
    cases acts with
    | refused receiver amount fee made => exact ⟨⟨longer i _ (still i), channels⟩, by simp⟩
    | sent idle made =>
      refine ⟨⟨longer i _ (by rw [onNewTx_chain]; exact still i), channels⟩, fun packet member => ?_⟩
      obtain ⟨fd, -, rfl⟩ := List.mem_map.mp member
      intro chain same
      cases same
    | tip | selected | abandoned => exact ⟨⟨longer i _ (still i), channels⟩, by simp⟩
    | added filled found accepted =>
      exact ⟨⟨longer i _ (grown i _ _ accepted), channels⟩, by simp⟩
    | announced added =>
      refine ⟨⟨longer i _ (still i), channels⟩, fun packet member => ?_⟩
      obtain ⟨fd, -, rfl⟩ := List.mem_map.mp member
      intro chain same
      cases same
  | @delivered i fd message rest node packets waiting reacts =>
    have drained (node : Node ssl) (new : node.chain.length ≤ limit + 1) :
        ChainsWithin (limit + 1) ((net.put i node).drain (i, fd) rest) := by
      refine ⟨longer i node new, fun socket chain member => ?_⟩
      by_cases here : socket = (i, fd)
      · subst here
        refine channels (i, fd) chain ?_
        rw [waiting]
        exact List.mem_cons_of_mem _ (by simpa [Network.drain] using member)
      · exact channels socket chain (by simpa [Network.drain, here, Network.put] using member)
    cases reacts with
    | nothing message => exact ⟨drained _ (still i), by simp⟩
    | block accepted =>
      refine ⟨drained _ (grown i _ _ accepted), fun packet member => ?_⟩
      obtain ⟨fd, -, rfl⟩ := List.mem_map.mp member
      intro chain same
      cases same
    | tx tx => exact ⟨drained _ (by rw [onNewTx_chain]; exact still i), by simp⟩
    | request =>
      refine ⟨drained _ (still i), fun packet member chain same => ?_⟩
      obtain rfl := List.mem_singleton.mp member
      obtain rfl := Message.chainResponse.inj same
      exact within.nodes i
    | chain accepted =>
      obtain ⟨-, -, rfl⟩ := (chainReplace_iff _ _ _ _).mp accepted
      exact ⟨drained _ (channels (i, fd) _ (by rw [waiting]; exact List.mem_cons_self)), by simp⟩
    | ping => exact ⟨drained _ (still i), by simp⟩
  | @peers _ i packets peers remote greeting =>
    refine ⟨⟨longer i _ (still i), channels⟩, fun packet member chain same => ?_⟩
    rcases greeting packet member with request | ⟨tx, -, resent⟩
    · rw [request] at same
      cases same
    · rw [resent] at same
      cases same

/-- A step makes chains longer by one block at most. -/
theorem chainsWithin_step (limit : Nat) (net next : Network ι ssl Message) (event : NetEvent ι)
    (within : ChainsWithin limit net) (stepped : net.step messages event = some next) :
    ChainsWithin (limit + 1) next := by
  obtain ⟨move, moved, rfl⟩ := Option.map_eq_some_iff.mp stepped
  obtain ⟨before, sent⟩ := chainsWithin_move limit net event move within moved
  refine ⟨by rw [(move.post_nodes messages).1]; exact before.nodes, fun socket chain waits => ?_⟩
  rcases move.mem_post socket _ waits with old | ⟨packet, member, same⟩
  · exact before.channels socket chain old
  · exact Nat.le_succ_of_le (sent packet member chain same.symm)

/-- In a run of at most 150 steps that starts with short chains, all lines are
short. -/
theorem shortLines_of_few_steps (limit : Nat) (start : Network ι ssl Message)
    (events : List (NetEvent ι)) (readable : Readable start) (within : ChainsWithin limit start)
    (few : events.length + limit ≤ 150) (plain : ∀ event ∈ events, PlainTexts event) :
    Every (Network.step bytes) (fun net event => PlainTexts event ∧ ShortLines net event)
      start.represent events := by
  induction events generalizing start limit with
  | nil => trivial
  | cons event rest ih =>
    have here := plain event (by simp)
    have short : ShortLines start.represent event := by
      intro move moved packet member
      rw [move_represent start event readable.deliverable] at moved
      obtain ⟨typed, typedMoved, rfl⟩ := Option.map_eq_some_iff.mp moved
      obtain ⟨-, sent⟩ := Contents.inNetwork_move (lawful_plain ssl) start event typed readable.plain
        (sends_plain start event here) typedMoved
      obtain ⟨-, small⟩ := chainsWithin_move limit start event typed within typedMoved
      have length := text_length packet.message ((inMessage_plain _).mp (sent packet member)) limit
        (small packet member)
      have size : maxMsgSize = 1048576 := rfl
      simp only [List.length_cons] at few
      omega
    refine ⟨⟨here, short⟩, fun next stepped => ?_⟩
    rw [step_represent start event readable.deliverable] at stepped
    obtain ⟨typed, typedStepped, rfl⟩ := Option.map_eq_some_iff.mp stepped
    refine ih (limit + 1) typed (readable_step start typed event readable here short typedStepped)
      (chainsWithin_step limit start typed event within typedStepped) ?_
      fun other member => plain other (by simp [member])
    simp only [List.length_cons] at few
    omega

/-! ## Two processes -/

/-- Two processes that have just started, for examples. -/
def pair (α : Type) : Network (Fin 2) stubSsl α where
  nodes i := freshNode (stubWallet i.val.toUInt8)
  remote _ := none
  channel _ := []

/-- Both have just started. -/
theorem pair_started (α : Type) : (pair α).Started :=
  ⟨fun i => stubNode_started i.val.toUInt8, fun _ => rfl, fun _ => rfl⟩

/-- A short run of the two is evaluated on messages. -/
theorem pair_run (events : List (NetEvent (Fin 2))) (reached : Network (Fin 2) stubSsl Message)
    (few : events.length ≤ 149) (plain : ∀ event ∈ events, PlainTexts event)
    (ran : run (Network.step messages) (pair Message) events = some reached) :
    Every (Network.step bytes) (fun net event => PlainTexts event ∧ ShortLines net event)
        (pair UInt8) events ∧
      run (Network.step bytes) (pair UInt8) events = some reached.represent := by
  have readable := readable_started (pair Message) (pair_started Message)
  have same : (pair Message).represent = pair UInt8 := rfl
  have every := shortLines_of_few_steps 1 (pair Message) events readable
    ⟨fun _ => Nat.le_refl 1, by simp [pair]⟩ (by omega) plain
  obtain ⟨agree, -⟩ := run_represent _ (fun _ _ both => both.1) (fun _ _ both => both.2)
    (pair Message) events readable every
  rw [same] at every agree
  exact ⟨every, by rw [agree, ran]; rfl⟩

end MiniCoin
