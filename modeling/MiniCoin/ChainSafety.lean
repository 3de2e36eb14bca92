import MiniCoin.MinedBlocks
import MiniCoin.GenesisBlock
import MiniCoin.MessageCodec

/-!
# Chain safety of one node

Whatever lines a node receives and whatever its user does, its chain stays valid from
position 1 on, has between one and `MAX_BLOCKS` blocks, and changes only by growing:
by one accepted block, or by a longer valid chain in place of the whole.

Validity does not speak about position 0. `genesis_anchored_iff` states which received
chains have to be excluded for the first block to stay.
-/

namespace MiniCoin

open ByteStrings Runs

variable {ssl : OpenSSL}

/-- A step of a node without what it sends, for runs in which only the state
matters. -/
def nodeNext (node : Node ssl) (event : Event) : Option (Node ssl) :=
  (nodeStep node event).map Prod.fst

/-- A step of the node is one of the listed cases. -/
theorem nodeNext_steps (node next : Node ssl) (event : Event)
    (stepped : nodeNext node event = some next) : ∃ packets, Steps node event next packets := by
  obtain ⟨⟨same, packets⟩, result, rfl⟩ := Option.map_eq_some_iff.mp stepped
  exact ⟨packets, nodeStep_steps node same event packets result⟩

/-- Receiving is always possible, and is what `peer_handler` does with the
line. -/
theorem nodeNext_receive (node : Node ssl) (fd : Nat) (line : List UInt8) :
    nodeNext node (.receive fd line) = some (handleMessage node fd line).1 := rfl

/-- The blocks of a message stay inside the transaction array. The parsers let
other counts through. -/
def Message.InBounds : Message → Prop
  | .newBlock block => block.InBounds
  | .chainResponse chain => ∀ block ∈ chain, block.InBounds
  | _ => True

/-- What the step receives satisfies a condition on the node and the message.
Other events, and lines that are not read, satisfy it. -/
def Receives (condition : Node ssl → Message → Prop) (node : Node ssl) : Event → Prop
  | .receive _ line => ∀ message, decode line = some message → condition node message
  | _ => True

/-! ## Lengths of received chains -/

/-- The parser of the array fills no more slots than it is given. -/
theorem parseBlocks_length (slots : Nat) (text : List UInt8) (blocks : List Block)
    (parsed : parseBlocks slots text = some blocks) : blocks.length ≤ slots := by
  induction slots generalizing text blocks with
  | zero => simp_all [parseBlocks]
  | succ slots ih =>
    rw [parseBlocks] at parsed
    cases start : strchr 123 text with
    | none =>
      obtain rfl : [] = blocks := by simpa [start] using parsed
      simp
    | some objStart =>
      simp only [start] at parsed
      cases read : protocolDeserializeBlock (matchBraces 0 objStart).1 with
      | none => simp [read] at parsed
      | some block =>
        simp only [read] at parsed
        obtain ⟨rest, later, rfl⟩ := Option.map_eq_some_iff.mp parsed
        simpa using ih _ rest later

/-- A received chain fits into `MAX_BLOCKS`. -/
theorem decode_chain_length (line : List UInt8) (other : Blockchain)
    (read : decode line = some (.chainResponse other)) : other.length ≤ maxBlocks := by
  have parsed : ∃ json, protocolDeserializeChain json = some other := by
    simp only [decode] at read
    split_ifs at read
    · obtain ⟨block, -, wrong⟩ := Option.map_eq_some_iff.mp read
      cases wrong
    · split at read <;> simp at read
    · simp at read
    · obtain ⟨chain, found, same⟩ := Option.map_eq_some_iff.mp read
      obtain ⟨json, -, parsed⟩ := Option.bind_eq_some_iff.mp found
      exact ⟨json, by rw [parsed, Message.chainResponse.inj same]⟩
    · simp at read
  obtain ⟨json, parsed⟩ := parsed
  unfold protocolDeserializeChain at parsed
  split at parsed
  · simp at parsed
  · next length found =>
    split at parsed
    · simp at parsed
    · next inRange =>
      split at parsed
      · have bounded := parseBlocks_length _ _ _ parsed
        omega
      · simp at parsed

/-! ## The invariant -/

/-- What holds of the stored chain and of the block being mined, whatever lines
arrive. Nothing is said about the genesis block, since `chain_validate` does not
look at it. -/
structure ChainSafe (node : Node ssl) : Prop where
  nonempty : 1 ≤ node.chain.length
  bounded : node.chain.length ≤ maxBlocks
  linked : node.chain.IsChain (Linked ssl.sha256)
  inBounds : ∀ block ∈ node.chain, block.InBounds
  mining : ∀ block ∈ node.mining.block, block.InBounds

/-- How one step may change the chain: not at all, by one block at its end, or
by a longer valid chain in its place. So a chain never gets shorter. -/
inductive ChainChange (sha : Sha256) (before : Blockchain) : Blockchain → Prop where
  | kept : ChainChange sha before before
  | appended (block : Block) : ChainChange sha before (before ++ [block])
  | replaced (other : Blockchain) (longer : before.length < other.length)
      (valid : chainValidate sha other = true) : ChainChange sha before other

/-- What `chain_add_block` does is one of the ways: it appends. -/
theorem chainAddBlock_change (sha : Sha256) (before after : Blockchain) (block : Block)
    (accepted : chainAddBlock sha before block = some after) : ChainChange sha before after := by
  obtain ⟨-, -, rfl⟩ := (chainAddBlock_iff sha before after block).mp accepted
  exact .appended block

/-- What `chain_replace` does is one of them: it takes over a longer valid
chain. -/
theorem chainReplace_change (sha : Sha256) (before other after : Blockchain)
    (accepted : chainReplace sha before other = some after) : ChainChange sha before after := by
  obtain ⟨longer, valid, rfl⟩ := (chainReplace_iff sha before other after).mp accepted
  exact .replaced _ longer ((chainValidate_iff sha _).mpr valid)

/-- In none of the ways a chain becomes shorter. -/
theorem chainChange_length {sha : Sha256} {before after : Blockchain}
    (change : ChainChange sha before after) : before.length ≤ after.length := by
  cases change with
  | kept => exact Nat.le_refl _
  | appended block => simp
  | replaced other longer valid => exact Nat.le_of_lt longer

/-- Every step changes the chain in one of the three ways. -/
theorem steps_chainChange (node next : Node ssl) (event : Event) (packets : List Packet)
    (steps : Steps node event next packets) : ChainChange ssl.sha256 node.chain next.chain := by
  cases steps with
  | ignored unread => exact .kept
  | peers peers greeting => exact .kept
  | reacted read reacts =>
    cases reacts with
    | nothing | request | ping => exact .kept
    | block accepted => exact chainAddBlock_change _ _ _ _ accepted
    | tx tx =>
      rw [onNewTx_chain]
      exact .kept
    | chain accepted => exact chainReplace_change _ _ _ _ accepted
  | acted acts =>
    cases acts with
    | refused | tip | selected | abandoned | announced => exact .kept
    | sent idle made =>
      rw [onNewTx_chain]
      exact .kept
    | added filled found accepted => exact chainAddBlock_change _ _ _ _ accepted

/-- Appending an accepted block keeps the chain safe. -/
theorem chainSafe_append (node : Node ssl) (after : Blockchain) (block : Block) (mining : Mining)
    (safe : ChainSafe node) (inBounds : block.InBounds)
    (miningBounds : ∀ block ∈ mining.block, block.InBounds)
    (accepted : chainAddBlock ssl.sha256 node.chain block = some after) :
    ChainSafe { node with chain := after, mining := mining } := by
  obtain ⟨room, ⟨last, tip, -, linked⟩, rfl⟩ :=
    (chainAddBlock_iff ssl.sha256 node.chain after block).mp accepted
  refine ⟨by simp, ?_, isChain_append_block _ _ last block safe.linked tip linked, ?_, miningBounds⟩
  · simp only [List.length_append, List.length_singleton]
    omega
  · intro other member
    rcases List.mem_append.mp member with old | new
    · exact safe.inBounds other old
    · exact List.mem_singleton.mp new ▸ inBounds

/-- The step lemma: what is received must be in bounds, and nothing else is
needed. -/
theorem chainSafe_step (node next : Node ssl) (event : Event) (safe : ChainSafe node)
    (inBounds : Receives (fun _ message => message.InBounds) node event)
    (stepped : nodeNext node event = some next) : ChainSafe next := by
  obtain ⟨packets, steps⟩ := nodeNext_steps node next event stepped
  obtain ⟨nonempty, bounded, linked, stored, mining⟩ := safe
  cases steps with
  | ignored unread => exact ⟨nonempty, bounded, linked, stored, mining⟩
  | peers peers greeting => exact ⟨nonempty, bounded, linked, stored, mining⟩
  | reacted read reacts =>
    have received := inBounds _ read
    cases reacts with
    | nothing | request | ping => exact ⟨nonempty, bounded, linked, stored, mining⟩
    | block accepted =>
      exact chainSafe_append node _ _ node.mining ⟨nonempty, bounded, linked, stored, mining⟩
        received mining accepted
    | tx tx =>
      exact ⟨by rwa [onNewTx_chain], by rwa [onNewTx_chain], by rwa [onNewTx_chain],
        by rwa [onNewTx_chain], by rwa [onNewTx_mining]⟩
    | chain accepted =>
      obtain ⟨longer, valid, rfl⟩ := (chainReplace_iff _ _ _ _).mp accepted
      exact ⟨by dsimp only; omega, decode_chain_length _ _ read, valid, received, mining⟩
  | acted acts =>
    cases acts with
    | refused => exact ⟨nonempty, bounded, linked, stored, mining⟩
    | sent idle made =>
      exact ⟨by rwa [onNewTx_chain], by rwa [onNewTx_chain], by rwa [onNewTx_chain],
        by rwa [onNewTx_chain], by rwa [onNewTx_mining]⟩
    | tip idle tip =>
      refine ⟨nonempty, bounded, linked, stored, fun block member => ?_⟩
      obtain rfl := Option.some.inj member
      exact (by decide : Block.zero.InBounds)
    | selected read =>
      refine ⟨nonempty, bounded, linked, stored, fun block member => ?_⟩
      obtain rfl := Option.some.inj member
      exact fillBlock_inBounds _ _ _ _ _
    | added filled found accepted =>
      have template := mining _ (by rw [filled]; rfl)
      have minedBounds := (blockMine_sameContent found).inBounds template
      refine chainSafe_append node _ _ _ ⟨nonempty, bounded, linked, stored, mining⟩ minedBounds
        (fun block member => ?_) accepted
      exact Option.some.inj member ▸ minedBounds
    | abandoned | announced =>
      exact ⟨nonempty, bounded, linked, stored, by simp [Mining.block]⟩

/-- A started process is safe. -/
theorem chainSafe_started (node : Node ssl) (started : Started node) : ChainSafe node := by
  obtain ⟨genesis, created, chain⟩ := Option.map_eq_some_iff.mp started.chain
  obtain ⟨⟨nonce, hash, rfl⟩, -⟩ := blockCreateGenesis_some _ _ created
  refine ⟨by simp [← chain], by simp [← chain, maxBlocks], by simp [← chain], ?_, ?_⟩
  · intro block member
    obtain rfl : block = _ := by simpa [← chain] using member
    exact (by decide : genesisTemplate.InBounds)
  · simp [started.mining, Mining.block]

/-- A message that neither brings an acceptable block nor an acceptable chain
leaves the chain as it is. -/
theorem handleMessage_chain_kept (node : Node ssl) (fd : Nat) (line : List UInt8)
    (noBlock : ∀ block, decode line = some (.newBlock block) →
      chainAddBlock ssl.sha256 node.chain block = none)
    (noChain : ∀ other, decode line = some (.chainResponse other) →
      chainReplace ssl.sha256 node.chain other = none) :
    (handleMessage node fd line).1.chain = node.chain := by
  rw [handleMessage_eq]
  cases read : decode line with
  | none => rfl
  | some message =>
    cases message with
    | newBlock block => simp [react, noBlock block read]
    | chainResponse other => simp [react, noChain other read]
    | newTx tx => exact onNewTx_chain node tx
    | requestChain | ping | pong => rfl

/-- Over every run of a process, with whatever lines its peers send, the chain
stays between one and `MAX_BLOCKS` blocks and valid, and the next step keeps it,
appends one block or replaces it by a longer valid one; a message that is not
accepted keeps it. -/
theorem chain_safe_over_runs (start reached : Node ssl) (events : List Event)
    (started : Started start)
    (inBounds : Every nodeNext (Receives fun _ message => message.InBounds) start events)
    (ran : run nodeNext start events = some reached) :
    (1 ≤ reached.chain.length ∧ reached.chain.length ≤ maxBlocks) ∧
      chainValidate ssl.sha256 reached.chain = true ∧
      reached.chain.IsChain (fun prev curr => curr.prevHash = prev.hash ∧
        curr.hash = blockComputeHash ssl.sha256 curr ∧ meetsTarget curr.hash = true) ∧
      (∀ block ∈ reached.chain, block.InBounds) ∧
      (∀ event next, nodeNext reached event = some next →
        ChainChange ssl.sha256 reached.chain next.chain ∧
          reached.chain.length ≤ next.chain.length) ∧
      ∀ fd line,
        (∀ block, decode line = some (.newBlock block) →
          chainAddBlock ssl.sha256 reached.chain block = none) →
        (∀ other, decode line = some (.chainResponse other) →
          chainReplace ssl.sha256 reached.chain other = none) →
        (handleMessage reached fd line).1.chain = reached.chain := by
  have safe : ChainSafe reached :=
    run_invariant nodeNext _ ChainSafe
      (fun node event next safe bounds stepped => chainSafe_step node next event safe bounds stepped)
      start reached events (chainSafe_started start started) inBounds ran
  refine ⟨⟨safe.nonempty, safe.bounded⟩, (chainValidate_iff _ _).mpr safe.linked, ?_,
    safe.inBounds, ?_, handleMessage_chain_kept reached⟩
  · exact safe.linked.imp fun prev curr linked => ⟨linked.1, (blockValidate_iff _ _).mp linked.2⟩
  · intro event next stepped
    obtain ⟨packets, steps⟩ := nodeNext_steps reached next event stepped
    have change := steps_chainChange reached next event packets steps
    exact ⟨change, chainChange_length change⟩

/-- A process that mines its first block and receives two lines, one of them cut
off. The cut line changes nothing, which is the last part of the result. -/
theorem chain_safe_over_a_run : ∃ reached : Node stubSsl,
    reached.chain.length = 2 ∧ chainValidate stubSsl.sha256 reached.chain = true := by
  let events : List Event := [.action (.mineTip 192), .receive 5 (ascii "\x7b\"type\":0,\"payl"),
    .action .mineSelect, .receive 5 (ascii "\x7b\"type\":2,\"payload\":\x7b\x7d\x7d"), .action .mineAdd]
  have evaluated : (run nodeNext (freshNode (stubWallet 0)) events).map (·.chain.length) = some 2 := by
    decide +kernel
  obtain ⟨reached, ran, length⟩ := Option.map_eq_some_iff.mp evaluated
  have first : decode (ascii "\x7b\"type\":0,\"payl") = none := by decide +kernel
  have second : decode (ascii "\x7b\"type\":2,\"payload\":\x7b\x7d\x7d") = some .requestChain := by
    decide +kernel
  have inBounds : Every nodeNext (Receives fun _ message => message.InBounds)
      (freshNode (stubWallet 0)) events := by
    refine ⟨trivial, fun _ _ => ⟨?_, fun _ _ => ⟨trivial, fun _ _ => ⟨?_, fun _ _ => ⟨trivial,
      fun _ _ => trivial⟩⟩⟩⟩⟩
    · intro message read
      simp [first] at read
    · intro message read
      obtain rfl : Message.requestChain = message := by simpa [second] using read
      trivial
  have safe := chain_safe_over_runs (freshNode (stubWallet 0)) reached events
    (stubNode_started 0) inBounds ran
  exact ⟨reached, length, safe.2.1⟩

/-! ## The first block -/

/-- A received chain that would be taken begins with the block the node has.
Only replacement can change block 0. -/
def SameStart (node : Node ssl) : Message → Prop
  | .chainResponse other =>
    node.chain.length < other.length → chainValidate ssl.sha256 other = true →
      other.head? = node.chain.head?
  | _ => True

theorem head_append_block (chain : Blockchain) (block genesis : Block)
    (first : chain.head? = some genesis) : (chain ++ [block]).head? = some genesis := by
  rw [List.head?_append, first]
  rfl

/-- One step keeps block 0 exactly when it does not take a chain that starts
otherwise. -/
theorem sameStart_iff (node : Node ssl) (event : Event) (genesis : Block)
    (first : node.chain.head? = some genesis) :
    Receives SameStart node event ↔
      ∀ next, nodeNext node event = some next → next.chain.head? = some genesis := by
  constructor
  · intro received next stepped
    obtain ⟨packets, steps⟩ := nodeNext_steps node next event stepped
    cases steps with
    | ignored unread => exact first
    | peers peers greeting => exact first
    | reacted read reacts =>
      cases reacts with
      | nothing | request | ping => exact first
      | block accepted =>
        obtain ⟨-, -, rfl⟩ := (chainAddBlock_iff _ _ _ _).mp accepted
        exact head_append_block _ _ _ first
      | tx tx => rwa [onNewTx_chain]
      | chain accepted =>
        obtain ⟨longer, valid, rfl⟩ := (chainReplace_iff _ _ _ _).mp accepted
        exact (received _ read longer ((chainValidate_iff _ _).mpr valid)).trans first
    | acted acts =>
      cases acts with
      | refused | tip | selected | abandoned | announced => exact first
      | sent idle made => rwa [onNewTx_chain]
      | added filled found accepted =>
        obtain ⟨-, -, rfl⟩ := (chainAddBlock_iff _ _ _ _).mp accepted
        exact head_append_block _ _ _ first
  · intro kept
    cases event with
    | receive fd line =>
      intro message read
      cases message with
      | chainResponse other =>
        intro longer valid
        have taken : chainReplace ssl.sha256 node.chain other = some other :=
          (chainReplace_iff _ _ _ _).mpr ⟨longer, (chainValidate_iff _ _).mp valid, rfl⟩
        have after := kept { node with chain := other } (by
          simp [nodeNext, nodeStep, handleMessage_eq, read, react, taken])
        exact after.trans first.symm
      | newBlock | newTx | requestChain | ping | pong => trivial
    | action | accept | connect | closed => trivial

/-- In a run of a process block 0 stays the genesis block exactly as long as no
chain is taken that starts with another block. `chain_replace` takes such a
chain if it is longer, because `chain_validate` begins with block 1. -/
theorem genesis_anchored_iff (start : Node ssl) (events : List Event) (started : Started start) :
    Throughout nodeNext (fun node => node.chain.head? = blockCreateGenesis ssl.sha256) start events ↔
      Every nodeNext (Receives SameStart) start events := by
  obtain ⟨genesis, created, chain⟩ := Option.map_eq_some_iff.mp started.chain
  rw [created]
  exact throughout_iff_every nodeNext _ (fun _ => True) _
    (fun node event first _ => sameStart_iff node event genesis first)
    (fun _ _ _ _ _ _ _ => trivial) start events (by simp [← chain]) trivial

/-- A block that claims to be the first one: nobody checks its hash, nor any
other field of it. -/
def foreignStart : Block := Block.zero

/-- A valid block after it, so that the chain is longer than that of a fresh
node. -/
def foreignSecond : Block :=
  { blockAfter foreignStart 813 with
    hash := CText.ofBytes (ascii "009da2da42d6847e4bba9135045fe1b485b5e055d358e4c9b06fe1d85384f8bd") }

/-- A chain response with these two blocks. -/
def foreignChainLine : List UInt8 := (Message.chainResponse [foreignStart, foreignSecond]).line

/-- The line of the example is read as the two blocks. -/
theorem foreignChain_read :
    decode foreignChainLine = some (.chainResponse [foreignStart, foreignSecond]) := by
  refine decode_plain _ ⟨by simp, by decide, fun block member => ?_⟩ (by simp)
  simp only [List.mem_cons, List.not_mem_nil, or_false] at member
  rcases member with rfl | rfl
  · exact ⟨by decide, by decide, by decide, by decide, by decide⟩
  · exact ⟨by decide, by decide, by decide, by decide, by decide⟩

/-- The line replaces the genesis block of a process that has just started,
though the header of `chain.h` promises a check from the genesis block on. -/
theorem genesis_not_anchored : Started (freshNode (stubWallet 0)) ∧
    ¬ Throughout nodeNext (fun node => node.chain.head? = blockCreateGenesis stubSsl.sha256)
      (freshNode (stubWallet 0)) [.receive 5 foreignChainLine] := by
  refine ⟨stubNode_started 0, fun anchored => ?_⟩
  have last := ((throughout_single _ _ _ _).mp anchored).2 _ (nodeNext_receive _ _ _)
  have taken : chainReplace stubSsl.sha256 (freshNode (stubWallet 0)).chain
      [foreignStart, foreignSecond] = some [foreignStart, foreignSecond] := by decide +kernel
  have other : foreignStart ≠ genesisBlock := by decide
  rw [show stubSsl.sha256 = Sha2.sha256 from rfl, genesis_created, handleMessage_eq,
    foreignChain_read] at last
  simp only [react, taken, List.head?_cons, Option.some.injEq] at last
  exact other last

/-- The same line, and what the equivalence says about it: the condition fails
at this step, as the chain that is taken starts with another block. -/
theorem genesis_anchored_iff_here :
    Throughout nodeNext (fun node => node.chain.head? = blockCreateGenesis stubSsl.sha256)
        (freshNode (stubWallet 0)) [.receive 5 foreignChainLine] ↔
      Every nodeNext (Receives SameStart) (freshNode (stubWallet 0))
        [.receive 5 foreignChainLine] :=
  genesis_anchored_iff (freshNode (stubWallet 0)) [.receive 5 foreignChainLine]
    (stubNode_started 0)

end MiniCoin
