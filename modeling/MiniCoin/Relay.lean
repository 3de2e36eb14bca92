import MiniCoin.EconomicValidity
import MiniCoin.PlainRuns
import MiniCoin.ReadTexts

/-!
# Relaying a block

A node that accepts a block sends it on, and a peer with the same chain should accept it.
The way leads through two scans for brackets that read texts as they stand, and through a
serialiser that does not escape signatures and hashes. So the peer reads the same block if
signatures and hashes contain nothing to escape and the braces in the texts do no harm.
Newlines need no condition: a node gets texts from lines and from the keyboard only.
-/

namespace MiniCoin

open ByteStrings QuotedText Nesting Runs

variable {ssl : OpenSSL}

/-! ## Texts without newlines -/

/-- Everything without newlines. -/
def lineContents : Contents where
  tx := Tx.OneLine
  block := Block.OneLine
  chain chain := ∀ block ∈ chain, block.OneLine

/-- The receiver is read by `scanf("%s")`, which stops at a newline, so what
`do_send` makes has none. -/
theorem doSendTx_oneLine (node : Node ssl) (receiver : Token) (amount fee : UInt64) (tx : Tx)
    (made : doSendTx node receiver amount fee = some tx) : tx.OneLine := by
  obtain ⟨-, -, signed⟩ := doSendTx_some node receiver amount fee tx made
  obtain ⟨sig, -, rfl⟩ := Option.map_eq_some_iff.mp signed
  have solid : 10 ∉ receiver.bytes := fun member => absurd (receiver.solid 10 member) (by decide)
  have stored : 10 ∉ (CText.ofBytes receiver.bytes : CText addrLen).bytes :=
    fun member => solid (CText.mem_ofBytes _ _ member)
  simp only [Tx.OneLine, Tx.texts, List.mem_append, not_or]
  exact ⟨⟨⟨(plain_address node.wallet).no_newline, stored⟩, (plain_signature sig).no_newline⟩,
    (plain_hexDigest _).no_newline⟩

/-- Texts without newlines are a property that every part of the program keeps.
This is what the run lemmas over `Contents` ask for. -/
theorem lawful_lines (ssl : OpenSSL) : lineContents.Lawful ssl where
  started chain created := by
    obtain ⟨-, -, plain⟩ := (lawful_plain ssl).started chain created
    exact fun block member => (plain block member).oneLine
  extended chain block holds new follows := by
    intro other member
    rcases List.mem_append.mp member with old | last
    · exact holds other old
    · exact List.mem_singleton.mp last ▸ new
  mined filled attempts block filledFrom found := by
    obtain ⟨chain, mempool, wallet, begun, ⟨tips, last, time, holds, tip, rfl⟩, txs, rfl⟩ := filledFrom
    obtain ⟨-, valid⟩ := blockMine_some ssl.sha256 _ block attempts found
    have content := blockMine_sameContent found
    refine ⟨?_, (plain_hash ssl.sha256 block valid).no_newline, fun tx member => ?_⟩
    · rw [content.prevHash]
      exact (holds last (List.mem_of_getLast? tip)).hash
    · rw [content.listed, fillBlock_listed] at member
      rcases List.mem_cons.mp member with rfl | selected
      · exact (coinbaseTx_plain ssl.sha256 wallet _).oneLine
      · exact txs tx ((selectTxs_sublist _ _).subset selected)

/-- Lines, as `read_message` returns them, contain no newline. -/
def LineEvent : Event → Prop
  | .receive _ line => 10 ∉ line
  | _ => True

/-- For a message the property is that its texts hold no newline. -/
theorem inMessage_lines (message : Message) : lineContents.InMessage message ↔ message.OneLine := by
  cases message <;> rfl

/-- A node that starts holds the genesis block only, whose texts are fixed. -/
theorem inNode_started_lines (node : Node ssl) (started : Started node) :
    lineContents.InNode node :=
  ⟨(lawful_lines ssl).started _ started.chain, by simp [started.mempool],
    by rw [started.mining]; trivial⟩

/-- The step lemma for one node: whatever it reads or does, its texts stay free
of newlines. -/
theorem inNode_lines (node next : Node ssl) (event : Event) (holds : lineContents.InNode node)
    (line : LineEvent event) (stepped : nodeNext node event = some next) :
    lineContents.InNode next := by
  obtain ⟨packets, steps⟩ := nodeNext_steps node next event stepped
  cases steps with
  | ignored unread => exact holds
  | reacted read reacts =>
    have carried := (inMessage_lines _).mpr (oneLine_of_decode _ _ line read)
    exact (Contents.inNode_reacts (lawful_lines ssl) holds carried reacts).1
  | acted acts =>
    exact (Contents.inNode_acts (lawful_lines ssl) holds acts
      fun receiver amount fee _ tx made => doSendTx_oneLine node receiver amount fee tx made).1
  | peers peers greeting => exact ⟨holds.chain, holds.mempool, holds.mining⟩

/-- A process that reads lines stores no newlines. -/
theorem inNode_run_lines (start node : Node ssl) (events : List Event) (started : Started start)
    (lines : ∀ event ∈ events, LineEvent event) (ran : run nodeNext start events = some node) :
    lineContents.InNode node :=
  run_invariant nodeNext (fun _ event => LineEvent event) lineContents.InNode
    (fun node event next holds line stepped => inNode_lines node next event holds line stepped)
    start node events (inNode_started_lines start started)
    (every_of_mem nodeNext LineEvent start events lines) ran

/-! ## One hop -/

/-- The step in which the node accepts a block, mined or received with a
transaction count in range. -/
def Accepts (node : Node ssl) (block : Block) : Event → Prop
  | .action .mineAdd => ∃ filled attempts, node.mining = .selected filled ∧
      blockMine ssl.sha256 filled = some (attempts, block) ∧ Extends ssl.sha256 node.chain block
  | .receive _ line => decode line = some (.newBlock block) ∧ block.CountInRange ∧
      Extends ssl.sha256 node.chain block
  | _ => False

/-- The texts do not lead the serialiser and the scans astray: hashes are
printed as they are, and braces in addresses are counted by the parser of the
array. -/
structure Relayable (block : Block) : Prop where
  unquoted : block.Unquoted
  braces : BracesMatch block.listed
  enclosed : Enclosed bracketWeight 1 (exposed block.listed)

/-- The two blocks agree in the header and in the listed transactions. The slots
that are not listed are not sent. -/
structure SameBlock (block copy : Block) : Prop where
  index : copy.index = block.index
  timestamp : copy.timestamp = block.timestamp
  prevHash : copy.prevHash = block.prevHash
  nonce : copy.nonce = block.nonce
  hash : copy.hash = block.hash
  txCount : copy.txCount = block.txCount
  listed : copy.listed = block.listed

/-- The peer reads the line of the block and appends the same block. Its
forwarding is then the same again. -/
def RelayAgrees (peer : Node ssl) (fd : Nat) (block : Block) : Prop :=
  ∀ rest, ∃ line copy, readMessage ((Message.newBlock block).text ++ rest) = some (line, rest) ∧
    (handleMessage peer fd line).1.chain = peer.chain ++ [copy] ∧ SameBlock block copy

/-- A block that a node accepts can be sent on in one line. -/
theorem accepted_oneLine (node : Node ssl) (block : Block) (event : Event)
    (holds : lineContents.InNode node) (line : LineEvent event) (accepts : Accepts node block event) :
    block.OneLine := by
  cases event with
  | action action =>
    cases action with
    | mineAdd =>
      obtain ⟨filled, attempts, stage, found, -⟩ := accepts
      have before : lineContents.Filled ssl filled := by simpa [Contents.InMining, stage] using holds.mining
      exact (lawful_lines ssl).mined filled attempts block before found
    | send | mineTip | mineSelect | mineBroadcast => exact accepts.elim
  | receive fd raw => exact oneLine_of_decode raw _ line accepts.1
  | accept | connect | closed => exact accepts.elim

/-- A block that a node accepts has its count in range: of a received one
`Accepts` says so, and `do_mine` fills no more than the array holds. -/
theorem accepted_countInRange (node : Node ssl) (block : Block) (event : Event)
    (holds : lineContents.InNode node) (accepts : Accepts node block event) : block.CountInRange := by
  cases event with
  | action action =>
    cases action with
    | mineAdd =>
      obtain ⟨filled, attempts, stage, found, -⟩ := accepts
      have before : lineContents.Filled ssl filled := by simpa [Contents.InMining, stage] using holds.mining
      obtain ⟨chain, mempool, wallet, begun, -, -, rfl⟩ := before
      rw [Block.CountInRange, Block.InBounds, (blockMine_sameContent found).txCount]
      exact fillBlock_countInRange _ _ _ _ _
    | send | mineTip | mineSelect | mineBroadcast => exact accepts.elim
  | receive fd raw => exact accepts.2.1
  | accept | connect | closed => exact accepts.elim

/-- The step does append the block. -/
theorem accepted_appended (node : Node ssl) (block : Block) (event : Event)
    (accepts : Accepts node block event) :
    Extends ssl.sha256 node.chain block ∧
      ∃ next, nodeNext node event = some next ∧ next.chain = node.chain ++ [block] := by
  cases event with
  | action action =>
    cases action with
    | mineAdd =>
      obtain ⟨filled, attempts, stage, found, follows⟩ := accepts
      have grown := chainAddBlock_of_extends _ _ _ follows
      exact ⟨follows, _, by simp [nodeNext, nodeStep, act, mineAdd, stage, found, grown]; rfl, rfl⟩
    | send | mineTip | mineSelect | mineBroadcast => exact accepts.elim
  | receive fd raw =>
    obtain ⟨read, -, follows⟩ := accepts
    have grown := chainAddBlock_of_extends _ _ _ follows
    refine ⟨follows, _, rfl, ?_⟩
    simp [handleMessage_eq, read, react, grown]
  | accept | connect | closed => exact accepts.elim

/-- Unused slots do not matter for `chain_add_block`. -/
theorem extends_compact (sha : Sha256) (chain : Blockchain) (block : Block)
    (range : block.CountInRange) (follows : Extends sha chain block) :
    Extends sha chain block.compact := by
  obtain ⟨room, last, tip, index, link, valid⟩ := follows
  refine ⟨room, last, tip, index, link, ?_⟩
  rw [blockValidate_compact sha block range]
  exact valid

/-- Clearing unused slots gives the same block for every reader of the slots in
use. -/
theorem sameBlock_compact (block : Block) (range : block.CountInRange) :
    SameBlock block block.compact :=
  ⟨rfl, rfl, rfl, rfl, rfl, rfl, listed_compact block range⟩

/-- A block that a process accepts, and whose texts are relayable, is read by
every peer with the same chain as the same block, and accepted. -/
theorem relay_agrees (start node peer : Node ssl) (events : List Event) (event : Event)
    (block : Block) (fd : Nat) (started : Started start) (lines : ∀ early ∈ events, LineEvent early)
    (line : LineEvent event) (ran : run nodeNext start events = some node)
    (accepts : Accepts node block event) (same : peer.chain = node.chain)
    (short : (Message.newBlock block).line.length < maxMsgSize - 1) (relayable : Relayable block) :
    (∃ next, nodeNext node event = some next ∧ next.chain = node.chain ++ [block]) ∧
      RelayAgrees peer fd block := by
  have holds := inNode_run_lines start node events started lines ran
  have oneLine := accepted_oneLine node block event holds line accepts
  have range := accepted_countInRange node block event holds accepts
  obtain ⟨follows, appended⟩ := accepted_appended node block event accepts
  refine ⟨appended, fun rest => ⟨(Message.newBlock block).line, block.compact, ?_, ?_,
    sameBlock_compact block range⟩⟩
  · have text := newBlock_text block relayable.unquoted
    have noNewline : 10 ∉ (Message.newBlock block).line := by
      rw [newBlock_line block relayable.unquoted]
      exact fun member => (inline_envelope _ _ (inline_blockRest block oneLine) 10 member).2 rfl
    rw [text, ← newBlock_line block relayable.unquoted, List.append_assoc]
    exact readMessage_line _ rest noNewline short
  · have read := decode_newBlock block relayable.unquoted oneLine range relayable.braces
      relayable.enclosed
    have grown := chainAddBlock_of_extends _ _ _ (extends_compact _ _ _ range follows)
    rw [handleMessage_eq, read, same]
    simp [react, same, grown]

/-! ## An example -/

/-- The owner of one block sends one coin to a closing brace and mines again. -/
def bracing : List Event :=
  [.action (.mineTip 192), .action .mineSelect, .action .mineAdd, .action .mineBroadcast,
    .action (.send ⟨ascii "\x7d", by decide, by decide, by decide⟩ 1 1), .action (.mineTip 257),
    .action .mineSelect]

/-- A peer with the given chain. -/
def peerOf (chain : Blockchain) : Node stubSsl := { freshNode (stubWallet 1) with chain := chain }

/-- A mined block that is now the tip has been accepted. -/
theorem accepts_mined (node next : Node ssl) (block : Block)
    (stepped : nodeNext node (.action .mineAdd) = some next) (last : chainLastBlock next.chain = some block)
    (grown : next.chain ≠ node.chain) : Accepts node block (.action .mineAdd) := by
  obtain ⟨⟨same, packets⟩, acted, rfl⟩ := Option.map_eq_some_iff.mp stepped
  cases act_acts node same .mineAdd packets acted with
  | @added filled mined attempts chain stage found accepted =>
    obtain ⟨follows, rfl⟩ := extends_of_chainAddBlock _ _ _ _ accepted
    obtain rfl : mined = block := by simpa [chainLastBlock] using last
    exact ⟨filled, attempts, stage, found, follows⟩
  | abandoned stage found stale => exact absurd rfl grown

/-- The block with this transaction is accepted, and its line is read by a peer
with the same chain without effect: the closing brace in an address ends the
object too early. -/
theorem brace_stops_relay : ∃ (node : Node stubSsl) (block : Block),
    run nodeNext (freshNode (stubWallet 0)) bracing = some node ∧
      Accepts node block (.action .mineAdd) ∧
      (Message.newBlock block).line.length < maxMsgSize - 1 ∧
      ¬ RelayAgrees (peerOf node.chain) 0 block := by
  have evaluated : ((run nodeNext (freshNode (stubWallet 0)) bracing).bind fun node =>
      (nodeNext node (.action .mineAdd)).bind fun next => (chainLastBlock next.chain).bind fun block =>
        (readMessage (Message.newBlock block).text).map fun read =>
          (node.chain.length, next.chain.length,
            decide ((Message.newBlock block).line.length < maxMsgSize - 1),
            (handleMessage (peerOf node.chain) 0 read.1).1.chain.length)) =
      some (2, 3, true, 2) := by decide +kernel
  obtain ⟨node, ran, evaluated⟩ := Option.bind_eq_some_iff.mp evaluated
  obtain ⟨next, stepped, evaluated⟩ := Option.bind_eq_some_iff.mp evaluated
  obtain ⟨block, last, evaluated⟩ := Option.bind_eq_some_iff.mp evaluated
  obtain ⟨⟨line, rest⟩, read, facts⟩ := Option.map_eq_some_iff.mp evaluated
  simp only [Prod.mk.injEq, decide_eq_true_eq] at facts
  obtain ⟨length, later, short, unchanged⟩ := facts
  refine ⟨node, block, ran, ?_, short, fun agrees => ?_⟩
  · refine accepts_mined node next block stepped last fun same => ?_
    rw [same, length] at later
    cases later
  · obtain ⟨line', copy, read', grown, -⟩ := agrees []
    rw [List.append_nil, read] at read'
    cases read'
    rw [grown, peerOf, List.length_append, length] at unchanged
    cases unchanged

/-- The first block that the owner mines is read by a peer as the same block,
since its texts are hexadecimal. -/
theorem relay_agrees_here : ∃ node : Node stubSsl,
    run nodeNext (freshNode (stubWallet 0)) [.action (.mineTip 192), .action .mineSelect] = some node ∧
      (∃ next, nodeNext node (.action .mineAdd) = some next ∧ next.chain = node.chain ++ [firstBlock]) ∧
      RelayAgrees (peerOf node.chain) 0 firstBlock := by
  have evaluated : ((run nodeNext (freshNode (stubWallet 0))
      [.action (.mineTip 192), .action .mineSelect]).bind fun node =>
        (nodeNext node (.action .mineAdd)).map fun next =>
          (node.chain.length, next.chain.length, chainLastBlock next.chain)) =
      some (1, 2, some firstBlock) := by decide +kernel
  obtain ⟨node, ran, evaluated⟩ := Option.bind_eq_some_iff.mp evaluated
  obtain ⟨next, stepped, facts⟩ := Option.map_eq_some_iff.mp evaluated
  simp only [Prod.mk.injEq] at facts
  obtain ⟨length, later, last⟩ := facts
  have accepts : Accepts node firstBlock (.action .mineAdd) := by
    refine accepts_mined node next firstBlock stepped last fun same => ?_
    rw [same, length] at later
    cases later
  have safe : firstBlock.Safe := firstBlock_plain.safe
  exact ⟨node, ran, relay_agrees (freshNode (stubWallet 0)) node (peerOf node.chain)
    [.action (.mineTip 192), .action .mineSelect] (.action .mineAdd) firstBlock 0
    ⟨chainInit_sha256, rfl, rfl, rfl⟩ (by simp [LineEvent]) trivial ran accepts rfl (by decide +kernel)
    ⟨safe.unquoted, bracesMatch_safe _ safe.txs, by decide +kernel⟩⟩

end MiniCoin
