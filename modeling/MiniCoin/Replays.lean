import MiniCoin.OptimisticMining

/-!
# How often a payment is applied

A payment waits in the mempool of every node that has got it, and nothing takes it from there
when another node puts it into a block. So a payment can be applied twice. It is not as long as
`do_mine` selects only payments that have been sent more often than its chain has them, and
every accepted block has been mined on the chain that accepts it.
-/

namespace MiniCoin

open ByteStrings Runs

variable {ι : Type} {ssl : OpenSSL} {α : Type}

/-- The two are the same signed transaction. The stored hash is not compared. -/
def samePayment (payment tx : Tx) : Bool :=
  tx.sender = payment.sender ∧ tx.receiver = payment.receiver ∧ tx.amount = payment.amount ∧
    tx.fee = payment.fee ∧ tx.signature = payment.signature

/-- How often the payment occurs. -/
def occurrences (payment : Tx) (txs : List Tx) : Nat := txs.countP (samePayment payment)

/-- No payment occurs more often in the one list than in the other one. Coinbase
transactions are no payments. -/
def Within (txs sent : List Tx) : Prop :=
  ∀ payment, payment.sender ≠ coinbaseAddr → occurrences payment txs ≤ occurrences payment sent

/-- Occurrences add up. -/
theorem occurrences_append (payment : Tx) (left right : List Tx) :
    occurrences payment (left ++ right) = occurrences payment left + occurrences payment right :=
  List.countP_append

/-- What is sent later does no harm. -/
theorem Within.later {txs sent : List Tx} (within : Within txs sent) (more : List Tx) :
    Within txs (more ++ sent) := by
  intro payment other
  rw [occurrences_append]
  exact Nat.le_add_left_of_le (within payment other)

/-- A reward is no occurrence of a payment. -/
theorem occurrences_coinbase (sha : Sha256) (minerAddr : CText addrLen) (txs rest : List Tx)
    (payment : Tx) (other : payment.sender ≠ coinbaseAddr) :
    occurrences payment (coinbaseTx sha minerAddr txs :: rest) = occurrences payment rest := by
  have sender : (coinbaseTx sha minerAddr txs).sender = coinbaseAddr := rfl
  have differs : samePayment payment (coinbaseTx sha minerAddr txs) = false := by
    simp [samePayment, sender, Ne.symm other]
  rw [occurrences, List.countP_cons, differs]
  rfl

/-! ## Histories -/

/-- A network, the payments that users have sent, and the blocks that were
mined, each with the chain that it was added to. -/
structure History (ι : Type) (ssl : OpenSSL) (α : Type) where
  net : Network ι ssl α
  sent : List Tx
  mined : List (Blockchain × Block)

/-- What `do_send` makes in a step. -/
def sends (nodes : ι → Node ssl) : NetEvent ι → List Tx
  | .act i (.send receiver amount fee) => (doSendTx (nodes i) receiver amount fee).toList
  | _ => []

/-- What `do_mine` adds to its chain in a step. -/
def mines (nodes : ι → Node ssl) : NetEvent ι → List (Blockchain × Block)
  | .act i .mineAdd =>
    match (mineAdd (nodes i)).map Node.mining with
    | some (.added block) => [((nodes i).chain, block)]
    | _ => []
  | _ => []

/-- A block that is found and accepted is recorded with its chain. -/
theorem mem_mines (nodes : ι → Node ssl) (i : ι) (filled block : Block) (attempts : UInt64)
    (stage : (nodes i).mining = .selected filled)
    (found : blockMine ssl.sha256 filled = some (attempts, block))
    (follows : Extends ssl.sha256 (nodes i).chain block) :
    ((nodes i).chain, block) ∈ mines nodes (.act i .mineAdd) := by
  simp [mines, mineAdd, stage, found, chainAddBlock_of_extends _ _ _ follows]

/-- And nothing else is recorded. -/
theorem of_mem_mines (nodes : ι → Node ssl) (event : NetEvent ι) (base : Blockchain) (block : Block)
    (member : (base, block) ∈ mines nodes event) :
    ∃ i filled attempts, base = (nodes i).chain ∧ (nodes i).mining = .selected filled ∧
      blockMine ssl.sha256 filled = some (attempts, block) ∧ Extends ssl.sha256 base block := by
  unfold mines at member
  split at member
  · next i =>
    split at member
    · next added result =>
      obtain ⟨rfl, rfl⟩ : base = (nodes i).chain ∧ block = added := by simpa using member
      obtain ⟨node, adds, stage⟩ := Option.map_eq_some_iff.mp result
      cases act_acts (nodes i) node .mineAdd [] (by simp [act, adds]) with
      | @added filled found attempts chain selected mines accepted =>
        cases stage
        obtain ⟨follows, -⟩ := extends_of_chainAddBlock _ _ _ _ accepted
        exact ⟨i, filled, attempts, rfl, selected, mines, follows⟩
      | abandoned => cases stage
    · simp at member
  · simp at member

namespace History

/-- A network that starts has no history. -/
def begin (net : Network ι ssl α) : History ι ssl α := ⟨net, [], []⟩

variable [DecidableEq ι]

/-- A step is recorded. -/
def step (transport : Transport ssl α) (history : History ι ssl α) (event : NetEvent ι) :
    Option (History ι ssl α) :=
  (history.net.step transport event).map fun next =>
    ⟨next, sends history.net.nodes event ++ history.sent,
      mines history.net.nodes event ++ history.mined⟩

/-- The chain and what is selected have no payment more often, together, than it
was sent. `do_mine` does not look for payments that the chain has already. -/
def SelectsUnapplied (history : History ι ssl α) : NetEvent ι → Prop
  | .act i .mineSelect =>
    Within (chainTxs (history.net.nodes i).chain ++
      selectTxs (history.net.nodes i).chain (history.net.nodes i).mempool) history.sent
  | _ => True

/-- A block that is received was mined on the own chain, or on one whose tip has
another hash than the own tip. -/
def TipsDiffer (history : History ι ssl UInt8) : NetEvent ι → Prop
  | .deliver i fd => ∀ line rest block base, readMessage (history.net.channel (i, fd)) = some (line, rest) →
    decode line = some (.newBlock block) → (base, block) ∈ history.mined →
      base.getLast?.map Block.hash = (history.net.nodes i).chain.getLast?.map Block.hash →
        base = (history.net.nodes i).chain
  | _ => True

/-- A step in which texts are plain, lines are short, and no payment is taken
again. -/
structure Careful (history : History ι ssl UInt8) (event : NetEvent ι) : Prop where
  plain : PlainTexts event
  short : ShortLines history.net event
  selects : history.SelectsUnapplied event
  tips : history.TipsDiffer event

/-- The history of the network of bytes. -/
def represent (history : History ι ssl Message) : History ι ssl UInt8 :=
  ⟨history.net.represent, history.sent, history.mined⟩

end History

/-! ## The invariant -/

/-- The block was begun on the tip of an honest chain, and the chain has only
grown since. -/
def BegunOn (sha : Sha256) (tips chain : Blockchain) (begun : Block) : Prop :=
  Honest sha tips ∧ Grown tips chain ∧ ∃ last time, tips.getLast? = some last ∧ begun = blockAfter last time

/-- What is known about a block that is being mined. -/
def MinesWithin (ssl : OpenSSL) (sent : List Tx) (mined : List (Blockchain × Block))
    (chain : Blockchain) : Mining → Prop
  | .idle => True
  | .tipRead begun => ∃ tips, BegunOn ssl.sha256 tips chain begun
  | .selected filled => ∃ (tips seen : Blockchain) (mempool : List Tx) (wallet : Wallet ssl) (begun : Block),
      BegunOn ssl.sha256 tips chain begun ∧ Grown tips seen ∧ Grown seen chain ∧
        filled = fillBlock ssl.sha256 seen mempool wallet.address begun ∧
          Within (chainTxs seen ++ selectTxs seen mempool) sent
  | .added block => ∃ base, (base, block) ∈ mined

/-- What a node stores repeats no payment, neither in its chain nor in what it
mines. -/
def NodeWithin (sent : List Tx) (mined : List (Blockchain × Block)) (node : Node ssl) : Prop :=
  Within (chainTxs node.chain) sent ∧ MinesWithin ssl sent mined node.chain node.mining

/-- A block under way was mined somewhere, and a chain under way repeats no
payment. -/
def MessageWithin (sent : List Tx) (mined : List (Blockchain × Block)) : Message → Prop
  | .newBlock block => ∃ base, (base, block) ∈ mined
  | .chainResponse chain => Within (chainTxs chain) sent
  | _ => True

/-- Nothing that is stored, under way or recorded has a payment more often than
it was sent. -/
structure AppliedOnce (history : History ι ssl Message) : Prop where
  tracked : Tracked history.net
  nodes : ∀ i, NodeWithin history.sent history.mined (history.net.nodes i)
  channels : ∀ socket, ∀ message ∈ history.net.channel socket,
    MessageWithin history.sent history.mined message
  mined : ∀ base block, (base, block) ∈ history.mined →
    Extends ssl.sha256 base block ∧ Within (chainTxs (base ++ [block])) history.sent

/-! ## What is kept -/

variable {sent : List Tx} {mined : List (Blockchain × Block)}

/-- The chain may grow meanwhile. -/
theorem BegunOn.grown {sha : Sha256} {tips chain later : Blockchain} {begun : Block}
    (begunOn : BegunOn sha tips chain begun) (grown : Grown chain later) :
    BegunOn sha tips later begun := ⟨begunOn.1, begunOn.2.1.trans grown, begunOn.2.2⟩

/-- So it may at any stage of mining. -/
theorem MinesWithin.grown {chain later : Blockchain} {stage : Mining}
    (within : MinesWithin ssl sent mined chain stage) (grown : Grown chain later) :
    MinesWithin ssl sent mined later stage := by
  cases stage with
  | idle => trivial
  | tipRead begun =>
    obtain ⟨tips, begunOn⟩ := within
    exact ⟨tips, begunOn.grown grown⟩
  | selected filled =>
    obtain ⟨tips, seen, mempool, wallet, begun, begunOn, early, late, rest⟩ := within
    exact ⟨tips, seen, mempool, wallet, begun, begunOn.grown grown, early, late.trans grown, rest⟩
  | added block => exact within

/-- And more may be sent and mined meanwhile. -/
theorem MinesWithin.later {chain : Blockchain} {stage : Mining}
    (within : MinesWithin ssl sent mined chain stage) (more : List Tx)
    (new : List (Blockchain × Block)) : MinesWithin ssl (more ++ sent) (new ++ mined) chain stage := by
  cases stage with
  | idle => trivial
  | tipRead begun => exact within
  | selected filled =>
    obtain ⟨tips, seen, mempool, wallet, begun, begunOn, early, late, same, fits⟩ := within
    exact ⟨tips, seen, mempool, wallet, begun, begunOn, early, late, same, fits.later more⟩
  | added block =>
    obtain ⟨base, member⟩ := within
    exact ⟨base, List.mem_append_right _ member⟩

/-- The same for all that a node stores. -/
theorem NodeWithin.later {node : Node ssl} (within : NodeWithin sent mined node) (more : List Tx)
    (new : List (Blockchain × Block)) : NodeWithin (more ++ sent) (new ++ mined) node :=
  ⟨within.1.later more, within.2.later more new⟩

/-- And for what is under way. -/
theorem MessageWithin.later {message : Message} (within : MessageWithin sent mined message)
    (more : List Tx) (new : List (Blockchain × Block)) :
    MessageWithin (more ++ sent) (new ++ mined) message := by
  cases message with
  | newBlock block =>
    obtain ⟨base, member⟩ := within
    exact ⟨base, List.mem_append_right _ member⟩
  | chainResponse chain => exact Within.later within more
  | newTx | requestChain | ping | pong => trivial

/-- The chain that a mined block is added to is the one from which its payments
were selected. -/
theorem within_added {node : Node ssl} {block found : Block} {attempts : UInt64}
    (honest : Honest ssl.sha256 node.chain) (within : NodeWithin sent mined node)
    (stage : node.mining = .selected block)
    (mines : blockMine ssl.sha256 block = some (attempts, found))
    (follows : Extends ssl.sha256 node.chain found) :
    Within (chainTxs (node.chain ++ [found])) sent := by
  obtain ⟨-, filled⟩ := within
  rw [stage] at filled
  obtain ⟨tips, seen, mempool, wallet, begun, ⟨honestTips, grown, last, time, tip, rfl⟩, early, late,
    rfl, fits⟩ := filled
  have content := blockMine_sameContent mines
  obtain ⟨-, valid⟩ := blockMine_some _ _ _ _ mines
  have room : tips.length < maxBlocks := Nat.lt_of_le_of_lt grown.length_le follows.1
  have same := (extends_iff_same ssl.sha256 tips node.chain last found honestTips honest grown room
    tip content.index content.prevHash valid).mp follows
  rw [same] at late ⊢
  rw [early.eq_of_back late] at fits content
  intro payment other
  have listed : chainTxs (tips ++ [found]) = chainTxs tips ++ found.listed := by
    simp [chainTxs]
  rw [listed, occurrences_append, content.listed, fillBlock_listed,
    occurrences_coinbase _ _ _ _ payment other, ← occurrences_append]
  exact fits payment other

/-- What the user does repeats no payment. The case that matters is the
selection, which may take nothing that the chain has. -/
theorem within_acts (history : History ι ssl Message) (applied : AppliedOnce history) (i : ι)
    (action : Action) (node : Node ssl) (packets : List Packet)
    (selects : history.SelectsUnapplied (.act i action))
    (acts : Acts (history.net.nodes i) action node packets) :
    NodeWithin (sends history.net.nodes (.act i action) ++ history.sent)
        (mines history.net.nodes (.act i action) ++ history.mined) node ∧
      ∀ packet ∈ packets, MessageWithin (sends history.net.nodes (.act i action) ++ history.sent)
        (mines history.net.nodes (.act i action) ++ history.mined) packet.message := by
  obtain ⟨chain, stage⟩ := (applied.nodes i).later (sends history.net.nodes (.act i action))
    (mines history.net.nodes (.act i action))
  cases acts with
  | refused => exact ⟨⟨chain, stage⟩, by simp⟩
  | @sent receiver amount fee tx idle made =>
    refine ⟨⟨by rw [onNewTx_chain]; exact chain, by rw [onNewTx_mining, idle]; trivial⟩,
      fun packet member => ?_⟩
    obtain ⟨fd, -, rfl⟩ := List.mem_map.mp member
    trivial
  | @tip time last idle tip =>
    exact ⟨⟨chain, _, applied.tracked.honest i, Grown.refl _, last, time, tip, rfl⟩, by simp⟩
  | @selected begun read =>
    rw [read] at stage
    obtain ⟨tips, begunOn⟩ := stage
    exact ⟨⟨chain, tips, _, _, _, begun, begunOn, begunOn.2.1, Grown.refl _, rfl,
      Within.later selects _⟩, by simp⟩
  | @added filled found attempts grown selected mines accepted =>
    obtain ⟨follows, rfl⟩ := extends_of_chainAddBlock _ _ _ _ accepted
    have within := within_added (applied.tracked.honest i) (applied.nodes i) selected mines follows
    exact ⟨⟨within.later _, _, List.mem_append_left _ (mem_mines _ i filled found attempts selected
      mines follows)⟩, by simp⟩
  | abandoned => exact ⟨⟨chain, trivial⟩, by simp⟩
  | @announced block added =>
    rw [added] at stage
    refine ⟨⟨chain, trivial⟩, fun packet member => ?_⟩
    obtain ⟨fd, -, rfl⟩ := List.mem_map.mp member
    exact stage

/-- Nor does what a node receives. A block is accepted on the chain it was mined
on, because the last hash says which chain that is. -/
theorem within_reacts (history : History ι ssl Message) (applied : AppliedOnce history) (i : ι)
    (fd : Nat) (message : Message) (rest : List Message) (node : Node ssl) (packets : List Packet)
    (waiting : history.net.channel (i, fd) = message :: rest)
    (own : ∀ block base, message = .newBlock block → (base, block) ∈ history.mined →
      base.getLast?.map Block.hash = (history.net.nodes i).chain.getLast?.map Block.hash →
        base = (history.net.nodes i).chain)
    (reacts : Reacts (history.net.nodes i) fd message node packets) :
    NodeWithin history.sent history.mined node ∧
      ∀ packet ∈ packets, MessageWithin history.sent history.mined packet.message := by
  obtain ⟨chain, stage⟩ := applied.nodes i
  have carried := applied.channels (i, fd) message (by simp [waiting])
  have grown := grown_reacts reacts
  cases reacts with
  | nothing => exact ⟨⟨chain, stage⟩, by simp⟩
  | @block block later accepted =>
    obtain ⟨follows, rfl⟩ := extends_of_chainAddBlock _ _ _ _ accepted
    obtain ⟨base, member⟩ := carried
    obtain ⟨added, within⟩ := applied.mined base block member
    have tips : base.getLast?.map Block.hash =
        (history.net.nodes i).chain.getLast?.map Block.hash := by
      obtain ⟨-, last, tip, -, link, -⟩ := added
      obtain ⟨-, ownLast, ownTip, -, ownLink, -⟩ := follows
      rw [tip, ownTip, Option.map_some, Option.map_some, ← link, ← ownLink]
    obtain rfl := own block base rfl member tips
    refine ⟨⟨within, stage.grown grown⟩, fun packet sent => ?_⟩
    obtain ⟨fd, -, rfl⟩ := List.mem_map.mp sent
    exact ⟨_, member⟩
  | tx tx => exact ⟨⟨by rw [onNewTx_chain]; exact chain, by rw [onNewTx_chain, onNewTx_mining]; exact stage⟩,
      by simp⟩
  | request =>
    refine ⟨⟨chain, stage⟩, fun packet sent => ?_⟩
    obtain rfl := List.mem_singleton.mp sent
    exact chain
  | chain accepted =>
    obtain ⟨-, -, rfl⟩ := (chainReplace_iff _ _ _ _).mp accepted
    exact ⟨⟨carried, stage.grown grown⟩, by simp⟩
  | ping =>
    refine ⟨⟨chain, stage⟩, fun packet sent => ?_⟩
    obtain rfl := List.mem_singleton.mp sent
    trivial

/-- The line of a block that waits first at a socket. -/
theorem read_block (net : Network ι ssl Message) (readable : Readable net) (socket : ι × Nat)
    (block : Block) (rest : List Message) (waiting : net.channel socket = .newBlock block :: rest) :
    ∃ line others, readMessage (net.represent.channel socket) = some (line, others) ∧
      decode line = some (.newBlock block) := by
  obtain ⟨plain, short⟩ := readable.deliverable socket (.newBlock block) (by simp [waiting])
  obtain ⟨text, oneLine⟩ := plain.text
  have newline : 10 ∉ (Message.newBlock block).line := fun member => (oneLine 10 member).2 rfl
  have short' : (Message.newBlock block).line.length < maxMsgSize - 1 := by
    rw [text, List.length_append, List.length_singleton] at short
    omega
  have split : net.represent.channel socket =
      (Message.newBlock block).line ++ 10 :: rest.flatMap Message.text := by
    change (net.channel socket).flatMap Message.text = _
    rw [waiting, List.flatMap_cons, text]
    simp
  exact ⟨_, _, by rw [split]; exact readMessage_line _ _ newline short', decode_plain _ plain (by simp)⟩

/-- At the start there are no payments. -/
theorem appliedOnce_started (net : Network ι ssl Message) (started : net.Started) :
    AppliedOnce (History.begin net) := by
  refine ⟨tracked_started net started, fun i => ⟨fun payment _ => ?_, ?_⟩, ?_, ?_⟩
  · obtain ⟨genesis, created, same⟩ := Option.map_eq_some_iff.mp (started.nodes i).chain
    obtain ⟨⟨nonce, hash, rfl⟩, -⟩ := blockCreateGenesis_some ssl.sha256 genesis created
    change occurrences payment (chainTxs (net.nodes i).chain) ≤ 0
    rw [← same]
    exact Nat.le_refl 0
  · change MinesWithin ssl [] [] (net.nodes i).chain (net.nodes i).mining
    rw [(started.nodes i).mining]
    trivial
  · intro socket message waits
    simp [History.begin, started.channel socket] at waits
  · exact fun base block member => absurd member List.not_mem_nil

variable [DecidableEq ι]

/-- The step lemma. -/
theorem appliedOnce_step (history next : History ι ssl Message) (event : NetEvent ι)
    (applied : AppliedOnce history) (tracked : Tracked next.net)
    (selects : history.SelectsUnapplied event)
    (own : ∀ i fd block rest base, event = .deliver i fd →
      history.net.channel (i, fd) = .newBlock block :: rest → (base, block) ∈ history.mined →
        base.getLast?.map Block.hash = (history.net.nodes i).chain.getLast?.map Block.hash →
          base = (history.net.nodes i).chain)
    (stepped : history.step messages event = some next) : AppliedOnce next := by
  obtain ⟨net, moves, rfl⟩ := Option.map_eq_some_iff.mp stepped
  obtain ⟨nodes, channels⟩ := forall_step
    (NodeWithin (sends history.net.nodes event ++ history.sent)
      (mines history.net.nodes event ++ history.mined))
    (MessageWithin (sends history.net.nodes event ++ history.sent)
      (mines history.net.nodes event ++ history.mined)) history.net net event
    (fun i => (applied.nodes i).later _ _)
    (fun socket message waits => (applied.channels socket message waits).later _ _)
    (by
      rintro i action node packets rfl acts
      exact within_acts history applied i action node packets selects acts)
    (by
      rintro i fd message rest node packets rfl waiting reacts
      exact within_reacts history applied i fd message rest node packets waiting
        (fun block base same => own i fd block rest base rfl (by rw [waiting, same])) reacts)
    (fun i table => (applied.nodes i).later _ _)
    (by
      rintro i packet (request | ⟨tx, -, resent⟩)
      · rw [request]
        trivial
      · rw [resent]
        trivial) moves
  refine ⟨tracked, nodes, channels, fun base block member => ?_⟩
  rcases List.mem_append.mp member with new | old
  · obtain ⟨i, filled, attempts, rfl, selected, found, follows⟩ := of_mem_mines _ _ _ _ new
    exact ⟨follows, (within_added (applied.tracked.honest i) (applied.nodes i) selected found
      follows).later _⟩
  · obtain ⟨follows, within⟩ := applied.mined base block old
    exact ⟨follows, within.later _⟩

/-! ## Runs -/

/-- The run lemma. -/
theorem appliedOnce_run (start : History ι ssl Message) (reached : History ι ssl UInt8)
    (events : List (NetEvent ι)) (applied : AppliedOnce start)
    (every : Every (History.step bytes) History.Careful start.represent events)
    (ran : run (History.step bytes) start.represent events = some reached) :
    ∃ typed : History ι ssl Message, typed.represent = reached ∧ AppliedOnce typed := by
  induction events generalizing start with
  | nil => exact ⟨start, Option.some.inj ran, applied⟩
  | cons event rest ih =>
    obtain ⟨next, stepped, later⟩ := (run_cons _ _ _ _ _).mp ran
    obtain ⟨careful, everyLater⟩ := every
    obtain ⟨net, moves, rfl⟩ := Option.map_eq_some_iff.mp stepped
    obtain ⟨typedNet, typedRan, rfl, tracked⟩ := tracked_run start.net net [event] applied.tracked
      ⟨⟨careful.plain, careful.short⟩, fun _ _ => trivial⟩ ((run_cons _ _ _ _ _).mpr ⟨net, moves, rfl⟩)
    obtain ⟨same, typedMoves, ends⟩ := (run_cons _ _ _ _ _).mp typedRan
    obtain rfl := Option.some.inj ends
    have typedStep : start.step messages event = some ⟨same, sends start.net.nodes event ++ start.sent,
        mines start.net.nodes event ++ start.mined⟩ := by
      rw [History.step, typedMoves]
      rfl
    have next := appliedOnce_step start _ event applied tracked careful.selects ?_ typedStep
    · exact ih _ next (everyLater _ stepped) later
    · rintro i fd block others base rfl waiting member tips
      obtain ⟨line, lines, read, decoded⟩ := read_block start.net applied.tracked.readable (i, fd)
        block others waiting
      exact careful.tips line lines block base read decoded member tips

/-- In every run whose steps are careful, no chain has a payment more often than
users have sent it. The payments that were made, and the blocks that were mined,
are recorded along the run. -/
theorem applied_at_most_once (start : Network ι ssl UInt8) (reached : History ι ssl UInt8)
    (events : List (NetEvent ι)) (started : start.Started)
    (every : Every (History.step bytes) History.Careful (History.begin start) events)
    (ran : run (History.step bytes) (History.begin start) events = some reached) (i : ι)
    (payment : Tx) (other : payment.sender ≠ coinbaseAddr) :
    occurrences payment (chainTxs (reached.net.nodes i).chain) ≤ occurrences payment reached.sent := by
  have same : (History.begin start.quiet).represent = History.begin start := by
    rw [History.represent, History.begin, represent_quiet start started.channel]
    rfl
  rw [← same] at every ran
  obtain ⟨typed, rfl, applied⟩ := appliedOnce_run (History.begin start.quiet) reached events
    (appliedOnce_started _ (quiet_started start started)) every ran
  exact (applied.nodes i).1 payment other

/-! ## An example -/

/-- A recorded run is a run. -/
theorem history_net (transport : Transport ssl α) (start reached : History ι ssl α)
    (events : List (NetEvent ι)) (ran : run (History.step transport) start events = some reached) :
    run (Network.step transport) start.net events = some reached.net := by
  induction events generalizing start with
  | nil => exact congrArg (Option.map History.net) ran
  | cons event rest ih =>
    obtain ⟨next, stepped, later⟩ := (run_cons _ _ _ _ _).mp ran
    obtain ⟨net, moves, rfl⟩ := Option.map_eq_some_iff.mp stepped
    exact (run_cons _ _ _ _ _).mpr ⟨net, moves, ih _ later⟩

/-- Conditions on the network are conditions on its history. -/
theorem every_history (transport : Transport ssl α) (condition : Network ι ssl α → NetEvent ι → Prop)
    (start : History ι ssl α) (events : List (NetEvent ι))
    (every : Every (Network.step transport) condition start.net events) :
    Every (History.step transport) (fun history event => condition history.net event) start events := by
  induction events generalizing start with
  | nil => trivial
  | cons event rest ih =>
    refine ⟨every.1, fun next stepped => ?_⟩
    obtain ⟨net, moves, rfl⟩ := Option.map_eq_some_iff.mp stepped
    exact ih _ (every.2 net moves)

/-- The recorded run of bytes takes the steps of the one of messages. -/
theorem represent_step (history : History ι ssl Message) (event : NetEvent ι) (readable : Readable history.net) :
    history.represent.step bytes event = (history.step messages event).map History.represent := by
  change (history.net.represent.step bytes event).map _ = _
  rw [step_represent history.net event readable.deliverable, History.step, Option.map_map, Option.map_map]
  rfl

/-- A history stays readable as its network does. -/
theorem readable_history (history : History ι ssl Message) (event : NetEvent ι) (next : History ι ssl Message)
    (readable : Readable history.net) (met : PlainTexts event ∧ ShortLines history.represent.net event)
    (stepped : history.step messages event = some next) : Readable next.net := by
  obtain ⟨net, moves, rfl⟩ := Option.map_eq_some_iff.mp stepped
  exact readable_step history.net net event readable met.1 met.2 moves

/-- A short recorded run of two processes is evaluated on messages. -/
theorem pair_history (events : List (NetEvent (Fin 2))) (reached : History (Fin 2) stubSsl Message)
    (few : events.length ≤ 149) (plain : ∀ event ∈ events, PlainTexts event)
    (ran : run (History.step messages) (History.begin (pair Message)) events = some reached) :
    Every (History.step bytes) (fun history event => PlainTexts event ∧ ShortLines history.net event)
        (History.begin (pair UInt8)) events ∧
      run (History.step bytes) (History.begin (pair UInt8)) events = some reached.represent := by
  obtain ⟨everyNet, -⟩ := pair_run events reached.net few plain (history_net messages _ _ events ran)
  have every := every_history bytes _ (History.begin (pair UInt8)) events everyNet
  refine ⟨every, ?_⟩
  have agree := run_map (History.step bytes) (History.step messages) History.represent
    (fun history event => PlainTexts event ∧ ShortLines history.net event)
    (fun history => Readable history.net) (fun history event readable _ => represent_step history event readable)
    readable_history (History.begin (pair Message)) events
    (readable_started (pair Message) (pair_started Message)) every
  rw [ran] at agree
  exact agree

/-- The first process mines, sends one coin and mines again; the second one gets
the payment and both blocks and mines, too. -/
def replay : List (NetEvent (Fin 2)) :=
  [.connect 0 3 1 4, .accept 1 4, .act 0 (.mineTip 192), .act 0 .mineSelect, .act 0 .mineAdd,
    .act 0 .mineBroadcast, .deliver 1 4, .deliver 1 4, .deliver 1 4,
    .act 0 (.send payee 1 1), .deliver 1 4,
    .act 0 (.mineTip 291), .act 0 .mineSelect, .act 0 .mineAdd, .act 0 .mineBroadcast, .deliver 1 4,
    .act 1 (.mineTip 688), .act 1 .mineSelect, .act 1 .mineAdd]

/-- The one payment is twice in the chain of the second process. It was in its
mempool and in a block that it accepted, and accepting a block takes nothing out
of the mempool. -/
theorem payment_replayed : ∃ (reached : History (Fin 2) stubSsl UInt8) (payment : Tx),
    run (History.step bytes) (History.begin (pair UInt8)) replay = some reached ∧
      payment.sender ≠ coinbaseAddr ∧ occurrences payment reached.sent = 1 ∧
      occurrences payment (chainTxs (reached.net.nodes 1).chain) = 2 := by
  have evaluated : ((run (History.step messages) (History.begin (pair Message)) replay).bind
      fun history => history.sent.head?.map fun payment =>
        (decide (payment.sender ≠ coinbaseAddr), occurrences payment history.sent,
          occurrences payment (chainTxs (history.net.nodes 1).chain))) = some (true, 1, 2) := by
    decide +kernel
  obtain ⟨typed, typedRan, evaluated⟩ := Option.bind_eq_some_iff.mp evaluated
  obtain ⟨payment, -, facts⟩ := Option.map_eq_some_iff.mp evaluated
  simp only [Prod.mk.injEq, decide_eq_true_eq] at facts
  obtain ⟨-, ran⟩ := pair_history replay typed (by decide)
    (by simp [replay, PlainTexts, PlainText]; decide) typedRan
  exact ⟨typed.represent, payment, ran, facts.1, facts.2.1, facts.2.2⟩

/-- The first process mines, sends one coin and connects, so that the second one
gets the payment from its mempool and its chain. Then it mines the payment, and
the second one appends the block. -/
def payOnce : List (NetEvent (Fin 2)) :=
  [.act 0 (.mineTip 192), .act 0 .mineSelect, .act 0 .mineAdd, .act 0 .mineBroadcast,
    .act 0 (.send payee 1 1), .connect 0 3 1 4, .accept 1 4,
    .deliver 1 4, .deliver 1 4, .deliver 1 4, .deliver 0 3, .deliver 0 3, .deliver 0 3, .deliver 1 4,
    .act 0 (.mineTip 291), .act 0 .mineSelect, .act 0 .mineAdd, .act 0 .mineBroadcast, .deliver 1 4]

/-- Where the chain has coinbase transactions only, everything that has been
sent may be selected. -/
theorem within_first (chain : Blockchain) (sent : List Tx)
    (fresh : ∀ tx ∈ chainTxs chain, tx.sender = coinbaseAddr) : Within (chainTxs chain ++ sent) sent := by
  intro payment other
  have none : occurrences payment (chainTxs chain) = 0 := by
    refine List.countP_eq_zero.mpr fun tx member same => other ?_
    simp only [samePayment, decide_eq_true_eq] at same
    rw [← same.1, fresh tx member]
  rw [occurrences_append, none, Nat.zero_add]

/-- A condition that can be evaluated: what is selected is all that has been
sent, on a chain without payments; and who receives a line while its tip is the
one that a mined block continues has the chain that the block was mined on. -/
def History.Calm (history : History ι ssl α) : NetEvent ι → Prop
  | .act i .mineSelect => (∀ tx ∈ chainTxs (history.net.nodes i).chain, tx.sender = coinbaseAddr) ∧
      selectTxs (history.net.nodes i).chain (history.net.nodes i).mempool = history.sent
  | .deliver i _ => ∀ entry ∈ history.mined,
      entry.1.getLast?.map Block.hash = (history.net.nodes i).chain.getLast?.map Block.hash →
        entry.1 = (history.net.nodes i).chain
  | _ => True

/-- The condition can be tested along a concrete run. -/
instance decidableCalm (history : History ι ssl α) : ∀ event, Decidable (history.Calm event)
  | .act _ .mineSelect => inferInstanceAs (Decidable (_ ∧ _))
  | .deliver _ _ => inferInstanceAs (Decidable (∀ entry ∈ history.mined, _))
  | .act _ (.send ..) | .act _ (.mineTip _) | .act _ .mineAdd | .act _ .mineBroadcast
  | .connect .. | .accept .. | .closed .. => isTrue trivial

/-- A calm step is a careful one. -/
theorem History.Calm.careful {history : History ι ssl UInt8} {event : NetEvent ι} (calm : history.Calm event)
    (plain : PlainTexts event) (short : ShortLines history.net event) : history.Careful event := by
  refine ⟨plain, short, ?_, ?_⟩
  · unfold History.SelectsUnapplied
    split
    · obtain ⟨fresh, all⟩ := calm
      rw [all]
      exact within_first _ _ fresh
    · trivial
  · unfold History.TipsDiffer
    split
    · intro line rest block base _ _ member
      exact calm (base, block) member
    · trivial

/-- There the payment is applied once, although it was sent again when the
processes connected, and its block has reached the second one. -/
theorem applied_at_most_once_here : ∃ reached : History (Fin 2) stubSsl UInt8,
    (reached.net.nodes 1).chain.length = 3 ∧ reached.sent.length = 1 ∧ ∀ payment : Tx, payment.sender ≠ coinbaseAddr →
      occurrences payment (chainTxs (reached.net.nodes 1).chain) ≤ occurrences payment reached.sent := by
  have evaluated : (run (History.step messages) (History.begin (pair Message)) payOnce).map
      (fun history => ((history.net.nodes 1).chain.length, history.sent.length)) = some (3, 1) := by decide +kernel
  obtain ⟨typed, typedRan, facts⟩ := Option.map_eq_some_iff.mp evaluated
  obtain ⟨length, sent⟩ := Prod.mk.inj facts
  obtain ⟨every, ran⟩ := pair_history payOnce typed (by decide)
    (by simp [payOnce, PlainTexts, PlainText]; decide) typedRan
  have calmly : Every (History.step messages) History.Calm (History.begin (pair Message)) payOnce := by
    decide +kernel
  have calm := every_of_map (History.step bytes) (History.step messages) History.represent History.Calm
    (fun history event => PlainTexts event ∧ ShortLines history.net event)
    (fun history => Readable history.net) (fun history event readable _ => represent_step history event readable)
    readable_history (History.begin (pair Message)) payOnce
    (readable_started (pair Message) (pair_started Message)) every calmly
  have careful := every_mono _ _ History.Careful (fun history event both => both.2.careful both.1.1 both.1.2) _ _
    (every_and _ _ _ _ _ every calm)
  exact ⟨typed.represent, length, sent, fun payment other => applied_at_most_once (pair UInt8) typed.represent
    payOnce (pair_started UInt8) careful ran 1 payment other⟩

end MiniCoin
