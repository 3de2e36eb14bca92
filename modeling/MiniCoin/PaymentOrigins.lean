import MiniCoin.Affordability
import MiniCoin.Ownership
import MiniCoin.Supply

/-!
# Where payments come from

Nodes pass payments on, keep them in mempools, put them into blocks and replace chains by longer
ones. In a network of nodes that run this code, every payment that turns up anywhere was made by
`do_send` in the node that owns the sender's key, after its test of the balance; and every
block is what one call of `do_mine` made of the payments that its mempool had got by then.
-/

namespace MiniCoin

open ByteStrings Runs

variable {ι : Type} {ssl : OpenSSL} {α : Type}

/-- What `do_send` guarantees of a payment of a node: the fee, the signature,
and that the payment has passed its test of the balance. The test is that of
the source, in 64 bits: costs of 2^63 and more are negative there and always
pass. -/
structure Backed (node : Node ssl) (tx : Tx) : Prop where
  sender : tx.sender = node.wallet.address
  fee : minTxFee ≤ tx.fee
  covered : (tx.amount + tx.fee).toInt64 ≤ chainGetBalance node.chain tx.sender
  signed : ∃ sig, ssl.digestSign node.wallet.keypair tx.txHash.bytes = some sig ∧
    tx.signature = CText.ofBytes (hexText sig.toList)

/-- What `do_send` makes is signed by its node, pays the minimum fee and passed
the 64-bit test against the balance at that moment. -/
theorem backed_of_doSendTx (node : Node ssl) (receiver : Token) (amount fee : UInt64) (tx : Tx)
    (made : doSendTx node receiver amount fee = some tx) : Backed node tx := by
  rw [doSendTx_eq] at made
  split_ifs at made with low passed
  obtain ⟨sig, signature, rfl⟩ := Option.map_eq_some_iff.mp made
  exact ⟨rfl, UInt64.not_lt.mp low, of_decide_eq_true passed, sig, signature, rfl⟩

/-- A user pays, and the payment is this one. -/
def Pays (net : Network ι ssl α) (event : NetEvent ι) (tx : Tx) : Prop :=
  ∃ i receiver amount fee, event = .act i (.send receiver amount fee) ∧
    doSendTx (net.nodes i) receiver amount fee = some tx ∧ Backed (net.nodes i) tx

variable [DecidableEq ι]

/-- The payment was made in the run: `do_send` returned it, at a node and a
state that the run has gone through. -/
def Made (transport : Transport ssl α) (start : Network ι ssl α) (tx : Tx) (events : List (NetEvent ι)) : Prop :=
  Occurred (Network.step transport) (fun _ net event => Pays net event tx) start events

/-- In the run, a node selected the transactions of the block: the coinbase
transaction, and payments that had all been made before. -/
def Composed (transport : Transport ssl α) (start : Network ι ssl α) (block : Block)
    (events : List (NetEvent ι)) : Prop :=
  Occurred (Network.step transport) (fun earlier net event => ∃ i begun, event = .act i .mineSelect ∧
    (net.nodes i).mining = .tipRead begun ∧
    SameContent (fillBlock ssl.sha256 (net.nodes i).chain (net.nodes i).mempool (net.nodes i).wallet.address begun)
      block ∧
    ∀ tx ∈ (net.nodes i).mempool, Made transport start tx earlier) start events

/-- Blocks of the same content as a third have the same content. -/
theorem SameContent.trans {first second third : Block} (early : SameContent first second)
    (late : SameContent second third) : SameContent first third :=
  ⟨late.index.trans early.index, late.timestamp.trans early.timestamp,
    late.transactions.trans early.transactions, late.txCount.trans early.txCount,
    late.prevHash.trans early.prevHash⟩

/-- Mining does not change where the transactions of a block come from. -/
theorem Composed.mined {transport : Transport ssl α} {start : Network ι ssl α} {block mined : Block}
    {events : List (NetEvent ι)} (composed : Composed transport start block events)
    (same : SameContent block mined) : Composed transport start mined events := by
  obtain ⟨earlier, event, later, net, split, ran, i, begun, selects, stage, content, paid⟩ := composed
  exact ⟨earlier, event, later, net, split, ran, i, begun, selects, stage, content.trans same, paid⟩

/-! ## What nodes have and send -/

section

variable (tx : Tx → Prop) (block : Block → Prop)

/-- Properties of the payments and of the blocks that a node has, but for its
first block. -/
structure Known (node : Node ssl) : Prop where
  mempool : ∀ payment ∈ node.mempool, tx payment
  chain : ∀ made ∈ node.chain.tail, block made
  mining : ∀ made, node.mining = .selected made ∨ node.mining = .added made → block made

/-- A message carries known transactions and known blocks only. -/
def KnownIn : Message → Prop
  | .newBlock made => block made
  | .newTx payment => tx payment
  | .chainResponse chain => ∀ made ∈ chain.tail, block made
  | .requestChain | .ping | .pong => True

variable {tx block} {node next : Node ssl} {packets : List Packet}

omit [DecidableEq ι] in
/-- A received transaction that is known keeps the mempool known, taken or
dropped. -/
theorem known_onNewTx (known : Known tx block node) (payment : Tx) (new : tx payment) :
    Known tx block (onNewTx node payment) := by
  refine ⟨fun other member => ?_, by rw [onNewTx_chain]; exact known.chain, by rw [onNewTx_mining]; exact known.mining⟩
  rcases mem_onNewTx node payment other member with old | ⟨-, rfl⟩
  · exact known.mempool other old
  · exact new

/-- A known block keeps the chain known. -/
theorem known_appended (known : Known tx block node) (chain : Blockchain) (mining : Mining) (made : Block)
    (new : block made) (stage : ∀ other, mining = .selected other ∨ mining = .added other → block other)
    (accepted : chainAddBlock ssl.sha256 node.chain made = some chain) :
    Known tx block { node with chain := chain, mining := mining } := by
  obtain ⟨-, rfl⟩ := extends_of_chainAddBlock _ _ _ _ accepted
  refine ⟨known.mempool, fun other member => ?_, stage⟩
  rcases mem_tail_append _ _ _ member with old | rfl
  · exact known.chain other old
  · exact new

/-- What an action leaves and sends. -/
theorem known_acts (known : Known tx block node) {action : Action} (acts : Acts node action next packets)
    (closed : ∀ filled mined, block filled → SameContent filled mined → block mined)
    (sends : ∀ receiver amount fee payment, action = .send receiver amount fee →
      doSendTx node receiver amount fee = some payment → tx payment)
    (selects : ∀ begun, action = .mineSelect → node.mining = .tipRead begun →
      block (fillBlock ssl.sha256 node.chain node.mempool node.wallet.address begun)) :
    Known tx block next ∧ ∀ packet ∈ packets, KnownIn tx block packet.message := by
  cases acts with
  | refused => exact ⟨known, by simp⟩
  | sent idle made =>
    have new := sends _ _ _ _ rfl made
    refine ⟨known_onNewTx known _ new, fun packet member => ?_⟩
    obtain ⟨n, -, rfl⟩ := List.mem_map.mp member
    exact new
  | tip => exact ⟨⟨known.mempool, known.chain, by simp⟩, by simp⟩
  | @selected begun read =>
    refine ⟨⟨by simp, known.chain, fun made stage => ?_⟩, by simp⟩
    rcases stage with same | same
    · obtain rfl := Mining.selected.inj same
      exact selects begun rfl read
    · cases same
  | @added filled mined attempts chain stage found accepted =>
    have new := closed filled mined (known.mining filled (Or.inl stage)) (blockMine_sameContent found)
    refine ⟨known_appended known chain _ mined new (fun other later => ?_) accepted, by simp⟩
    rcases later with same | same
    · cases same
    · obtain rfl := Mining.added.inj same
      exact new
  | abandoned => exact ⟨⟨known.mempool, known.chain, by simp⟩, by simp⟩
  | @announced mined stage =>
    refine ⟨⟨known.mempool, known.chain, by simp⟩, fun packet member => ?_⟩
    obtain ⟨n, -, rfl⟩ := List.mem_map.mp member
    exact known.mining mined (Or.inr stage)

/-- What a reaction leaves and sends. -/
theorem known_reacts (known : Known tx block node) {fd : Nat} {message : Message} (carried : KnownIn tx block message)
    (reacts : Reacts node fd message next packets) :
    Known tx block next ∧ ∀ packet ∈ packets, KnownIn tx block packet.message := by
  cases reacts with
  | nothing => exact ⟨known, by simp⟩
  | block accepted =>
    refine ⟨known_appended known _ _ _ carried known.mining accepted, fun packet member => ?_⟩
    obtain ⟨n, -, rfl⟩ := List.mem_map.mp member
    exact carried
  | tx payment => exact ⟨known_onNewTx known payment carried, by simp⟩
  | request =>
    refine ⟨known, fun packet member => ?_⟩
    obtain rfl := List.mem_singleton.mp member
    exact known.chain
  | chain accepted =>
    obtain ⟨-, -, rfl⟩ := (chainReplace_iff _ _ _ _).mp accepted
    exact ⟨⟨known.mempool, carried, known.mining⟩, by simp⟩
  | ping => exact ⟨known, by simp [KnownIn]⟩

end

/-- All that is in the network has an origin: payments were made by a `do_send`,
and blocks were composed by a `do_mine`, both in steps that lie in the past. -/
structure Traced (start : Network ι ssl Message) (past : List (NetEvent ι)) (net : Network ι ssl Message) : Prop where
  nodes : ∀ i, Known (Made messages start · past) (Composed messages start · past) (net.nodes i)
  channels : ∀ socket, ∀ message ∈ net.channel socket,
    KnownIn (Made messages start · past) (Composed messages start · past) message

variable {start : Network ι ssl Message}

/-- Before the first step there is nothing on the way, and no node holds a
transaction. -/
theorem traced_started (started : start.Started) : Traced start [] start := by
  constructor
  · intro i
    have node := started.nodes i
    obtain ⟨genesis, -, chain⟩ := Option.map_eq_some_iff.mp node.chain
    refine ⟨by simp [node.mempool], by simp [← chain], by simp [node.mining]⟩
  · intro socket message waits
    simp [started.channel socket] at waits

/-- The step lemma. -/
theorem traced_step (past : List (NetEvent ι)) (net next : Network ι ssl Message) (event : NetEvent ι)
    (ran : run (Network.step messages) start past = some net) (traced : Traced start past net)
    (stepped : net.step messages event = some next) : Traced start (past ++ [event]) next := by
  have made (payment : Tx) (known : Made messages start payment past) :
      Made messages start payment (past ++ [event]) := occurred_append _ _ _ _ _ known
  have composed (block : Block) (known : Composed messages start block past) :
      Composed messages start block (past ++ [event]) := occurred_append _ _ _ _ _ known
  have nodes (i : ι) : Known (Made messages start · (past ++ [event])) (Composed messages start · (past ++ [event]))
      (net.nodes i) := by
    have known := traced.nodes i
    exact ⟨fun payment member => made _ (known.mempool payment member),
      fun block member => composed _ (known.chain block member), fun block stage => composed _ (known.mining block stage)⟩
  have channels (socket : ι × Nat) (message : Message) (waits : message ∈ net.channel socket) :
      KnownIn (Made messages start · (past ++ [event])) (Composed messages start · (past ++ [event])) message := by
    have known := traced.channels socket message waits
    cases message with
    | newBlock block => exact composed block known
    | newTx payment => exact made payment known
    | chainResponse chain => exact fun block member => composed block (known block member)
    | requestChain | ping | pong => trivial
  obtain ⟨later, waiting⟩ := forall_step
    (Known (Made messages start · (past ++ [event])) (Composed messages start · (past ++ [event])))
    (KnownIn (Made messages start · (past ++ [event])) (Composed messages start · (past ++ [event])))
    net next event nodes channels
    (by
      rintro i action node packets rfl acts
      refine known_acts (nodes i) acts (fun _ _ => Composed.mined) ?_ ?_
      · rintro receiver amount fee payment rfl sends
        exact occurred_last _ _ start net past _ ran
          ⟨i, receiver, amount, fee, rfl, sends, backed_of_doSendTx _ _ _ _ _ sends⟩
      · rintro begun rfl stage
        exact occurred_last _ _ start net past _ ran
          ⟨i, begun, rfl, stage, ⟨rfl, rfl, rfl, rfl, rfl⟩, (traced.nodes i).mempool⟩)
    (fun i fd message rest node packets _ waiting reacts => known_reacts (nodes i)
      (channels (i, fd) message (by simp [waiting])) reacts)
    (fun i table => ⟨(nodes i).mempool, (nodes i).chain, (nodes i).mining⟩)
    (by
      rintro i packet (request | ⟨payment, member, resent⟩)
      · rw [request]
        trivial
      · rw [resent]
        exact (nodes i).mempool payment member)
    stepped
  exact ⟨later, waiting⟩

/-! ## Runs -/

/-- The network of bytes makes the same payments, and composes the same
blocks. -/
theorem origins_represent (start : Network ι ssl Message) (readable : Readable start) (events : List (NetEvent ι))
    (every : Every (Network.step bytes) (fun net event => PlainTexts event ∧ ShortLines net event)
      start.represent events) :
    (∀ tx, Made messages start tx events → Made bytes start.represent tx events) ∧
      ∀ block, Composed messages start block events → Composed bytes start.represent block events := by
  have agrees (net : Network ι ssl Message) (event : NetEvent ι) (readable : Readable net)
      (_ : PlainTexts event ∧ ShortLines net.represent event) :
      Network.step bytes net.represent event = (Network.step messages net event).map Network.represent :=
    step_represent net event readable.deliverable
  have preserved (net : Network ι ssl Message) (event : NetEvent ι) (next : Network ι ssl Message)
      (readable : Readable net) (met : PlainTexts event ∧ ShortLines net.represent event)
      (stepped : Network.step messages net event = some next) : Readable next :=
    readable_step net next event readable met.1 met.2 stepped
  have made (tx : Tx) (events : List (NetEvent ι))
      (every : Every (Network.step bytes) (fun net event => PlainTexts event ∧ ShortLines net event)
        start.represent events) (known : Made messages start tx events) : Made bytes start.represent tx events :=
    occurred_map _ _ Network.represent _ Readable _ _ agrees preserved start events readable every
      (fun _ _ _ _ _ pays => pays) known
  refine ⟨fun tx => made tx events every, fun block known => ?_⟩
  refine occurred_map _ _ Network.represent _ Readable _ _ agrees preserved start events readable every ?_ known
  rintro earlier net event - before ⟨i, begun, selects, stage, content, paid⟩
  exact ⟨i, begun, selects, stage, content, fun tx member => made tx earlier before (paid tx member)⟩

/-- The payments in a composed block were made. -/
theorem Composed.made {transport : Transport ssl α} {start : Network ι ssl α} {block : Block}
    {events : List (NetEvent ι)} (composed : Composed transport start block events) (tx : Tx)
    (member : tx ∈ block.listed) (payment : tx.sender ≠ coinbaseAddr) : Made transport start tx events := by
  obtain ⟨earlier, event, later, net, rfl, -, i, begun, -, -, content, paid⟩ := composed
  rw [content.listed, fillBlock_listed] at member
  rcases List.mem_cons.mp member with rfl | selected
  · exact absurd rfl payment
  · exact occurred_append _ _ _ _ _ (paid tx ((selectTxs_sublist _ _).subset selected))

/-- In every run of a network of nodes, with plain texts and short lines: every
payment in a mempool or in a block of a chain was made in the run by `do_send`
in the node of its sender, which signed it after it had passed the test of the
balance; and every block behind the first one holds what a node selected in the
run from its mempool, and these payments had been made before. -/
theorem payments_traced (start reached : Network ι ssl UInt8) (events : List (NetEvent ι)) (started : start.Started)
    (every : Every (Network.step bytes) (fun net event => PlainTexts event ∧ ShortLines net event) start events)
    (ran : run (Network.step bytes) start events = some reached) (i : ι) :
    (∀ tx ∈ (reached.nodes i).mempool, Made bytes start tx events) ∧
      ∀ block ∈ (reached.nodes i).chain.tail, Composed bytes start block events ∧
        ∀ tx ∈ block.listed, tx.sender ≠ coinbaseAddr → Made bytes start tx events := by
  have quiet := quiet_started start started
  have readable := readable_started _ quiet
  rw [← represent_quiet start started.channel] at every ran ⊢
  obtain ⟨agree, each⟩ := run_represent _ (fun _ _ met => met.1) (fun _ _ met => met.2) start.quiet events
    readable every
  rw [agree] at ran
  obtain ⟨typed, typedRan, rfl⟩ := Option.map_eq_some_iff.mp ran
  have traced : Traced start.quiet events typed :=
    run_past (Network.step messages) _ (Traced start.quiet) start.quiet (traced_started quiet)
      (fun past net event next arrived traced _ stepped => traced_step past net next event arrived traced stepped)
      typed events each typedRan
  obtain ⟨made, composed⟩ := origins_represent start.quiet readable events every
  refine ⟨fun tx member => made tx ((traced.nodes i).mempool tx member), fun block member => ?_⟩
  have known := composed block ((traced.nodes i).chain block member)
  exact ⟨known, fun tx listed payment => known.made tx listed payment⟩

/-- Two processes connect, the first one mines and pays, and the payment gets to
the other one. So its entry there is traced to the step of the first. -/
theorem payments_traced_here : ∃ (events : List (NetEvent (Fin 2))) (reached : Network (Fin 2) stubSsl UInt8)
    (tx : Tx), run (Network.step bytes) (pair UInt8) events = some reached ∧
      tx ∈ (reached.nodes 1).mempool ∧ Made bytes (pair UInt8) tx events := by
  let events : List (NetEvent (Fin 2)) := [.connect 0 3 1 4, .accept 1 4, .act 0 (.mineTip 192),
    .act 0 .mineSelect, .act 0 .mineAdd, .act 0 .mineBroadcast, .act 0 (.send payee 1 1), .deliver 1 4,
    .deliver 1 4, .deliver 1 4, .deliver 1 4]
  have evaluated : ((run (Network.step messages) (pair Message) events).bind
      fun net => (net.nodes 1).mempool[0]?).isSome = true := by decide +kernel
  obtain ⟨tx, evaluated⟩ := Option.isSome_iff_exists.mp evaluated
  obtain ⟨typed, typedRan, here⟩ := Option.bind_eq_some_iff.mp evaluated
  obtain ⟨every, ran⟩ := pair_run events typed (by decide) (by simp [events, PlainTexts]; decide) typedRan
  have member : tx ∈ (typed.nodes 1).mempool := List.mem_of_getElem? here
  exact ⟨events, typed.represent, tx, ran, member, (payments_traced (pair UInt8) typed.represent events
    (pair_started UInt8) every ran 1).1 tx member⟩

end MiniCoin
