import MiniCoin.Relay
import MiniCoin.Wirings

/-!
# How far a payment gets

`do_send` sends a payment to the active peers, and a node that receives one puts it into its
mempool but does not send it on. So a payment reaches the neighbours of its sender only. Its
line is read as it was written, whatever the receiver is called.
-/

namespace MiniCoin

open ByteStrings QuotedText Nesting Runs

variable {ι : Type} {ssl : OpenSSL} {α : Type}

/-! ## The line of a payment -/

theorem flat_isHex (text : List UInt8) (hex : ∀ c ∈ text, isHex c = true) :
    Flat bracketWeight text := by
  intro c member
  have digit := hex c member
  unfold bracketWeight
  rw [if_neg, if_neg]
  · rintro (rfl | rfl) <;> exact absurd digit (by decide)
  · rintro (rfl | rfl) <;> exact absurd digit (by decide)

/-- The scan of the payload sees at most hexadecimal digits outside of
strings. -/
theorem enclosed_sent (tx : Tx) (sender : 92 ∉ tx.sender.bytes)
    (signature : ∀ c ∈ tx.signature.bytes, isHex c = true)
    (txHash : ∀ c ∈ tx.txHash.bytes, isHex c = true) :
    Enclosed bracketWeight 1 (exposed [tx]) := by
  have senderStill : flips (.quoted tx.sender.bytes) = false := endsInBackslash_of_absent _ sender
  have signatureStill : flips (.quoted tx.signature.bytes) = false :=
    endsInBackslash_of_absent _ fun member => absurd (signature 92 member) (by decide)
  -- After a receiver that ends in a backslash, the last two strings count.
  have behind (inverted : Bool) : Flat bracketWeight
      (countedText inverted [.quoted tx.signature.bytes, .quoted tx.txHash.bytes]) := by
    refine flat_isHex _ fun c member => ?_
    rw [countedText, signatureStill, Bool.bne_false, countedText, countedText, List.append_nil] at member
    cases inverted with
    | false => exact absurd member List.not_mem_nil
    | true =>
      rcases List.mem_append.mp member with first | second
      · exact signature c first
      · exact txHash c second
  have shape : exposed [tx] = countedText (flips (.quoted tx.receiver.bytes))
      [.quoted tx.signature.bytes, .quoted tx.txHash.bytes] := by
    simp [exposed, allTextPieces, textPieces, countedText, counted, senderStill]
  rw [shape]
  exact enclosed_flat bracketWeight 1 one_pos _ (behind _)

/-- The message with a payment is read as it was written. -/
theorem faithful_sent (node : Node ssl) (receiver : Token) (amount fee : UInt64) (tx : Tx)
    (made : doSendTx node receiver amount fee = some tx) : Faithful ssl (.newTx tx) := by
  have oneLine := doSendTx_oneLine node receiver amount fee tx made
  obtain ⟨-, -, signed⟩ := doSendTx_some node receiver amount fee tx made
  obtain ⟨sig, -, rfl⟩ := Option.map_eq_some_iff.mp signed
  generalize same : ({ txCreate ssl.sha256 node.wallet.address (CText.ofBytes receiver.bytes) amount fee with
    signature := CText.ofBytes (hexText sig.toList) } : Tx) = tx at oneLine ⊢
  have signature : ∀ c ∈ tx.signature.bytes, isHex c = true := by
    rw [← same]
    exact fun c member => hexText_isHex sig.toList c (CText.mem_ofBytes _ c member)
  have txHash : ∀ c ∈ tx.txHash.bytes, isHex c = true := by
    rw [← same]
    exact hexText32_isHex _
  have sender : 92 ∉ tx.sender.bytes := by
    rw [← same]
    exact fun member => (plain_address node.wallet 92 member).2.1 rfl
  have unquoted : tx.Unquoted :=
    ⟨⟨fun member => absurd (signature 34 member) (by decide),
      fun member => absurd (signature 92 member) (by decide)⟩,
      ⟨fun member => absurd (txHash 34 member) (by decide),
        fun member => absurd (txHash 92 member) (by decide)⟩⟩
  have text := newTx_text tx unquoted
  have line : (Message.newTx tx).line = render (envelopePieces .newTx (txRest tx)) := by
    rw [Message.line, text, List.dropLast_concat]
  refine ⟨by rw [line, text], ?_, ?_, fun node fd => ?_⟩
  · rw [line]
    exact fun member => (inline_envelope _ _ (inline_txRest tx oneLine) 10 member).2 rfl
  · have length := newTx_length tx unquoted
    have size : maxMsgSize = 1048576 := rfl
    omega
  · rw [handleMessage_eq, decode_tx tx unquoted oneLine (enclosed_sent tx sender signature txHash)]

/-! ## What is sent and where it gets -/

/-- Users send, and lines are delivered. -/
def SendsOrDelivers : NetEvent ι → Prop
  | .act _ (.send _ _ _) | .deliver _ _ => True
  | _ => False

/-- No mempool is full. -/
def HasRoom (net : Network ι ssl α) : Prop := ∀ i, (net.nodes i).mempool.length < mempoolSize

/-- The payment that a step makes, and its sender. -/
def sentBy (net : Network ι ssl α) : NetEvent ι → List (ι × Tx)
  | .act i (.send receiver amount fee) =>
    (doSendTx (net.nodes i) receiver amount fee).toList.map fun tx => (i, tx)
  | _ => []

/-- Every one of these payments is in every mempool. -/
def ReachAll (sent : List (ι × Tx)) (net : Network ι ssl α) : Prop :=
  ∀ i tx, (i, tx) ∈ sent → ∀ k, tx ∈ (net.nodes k).mempool

/-- The payment is in the mempool of the node or waits for it. -/
def InReach (net : Network ι ssl Message) (i : ι) (tx : Tx) : Prop :=
  tx ∈ (net.nodes i).mempool ∨ ∃ n, .newTx tx ∈ net.channel (i, n)

/-- Only payments are under way, between neighbours, and each of them will be
read as it was written. -/
structure Carrying (graph : SimpleGraph ι) (fd : ι → ι → Nat) (net : Network ι ssl Message) : Prop where
  wired : Wired graph fd net
  payments : ∀ socket, ∀ message ∈ net.channel socket,
    (∃ tx, message = .newTx tx) ∧ Faithful ssl message ∧
      ∃ j, graph.Adj socket.1 j ∧ socket.2 = fd socket.1 j

variable {graph : SimpleGraph ι} {fd : ι → ι → Nat}

theorem onNewTx_room (node : Node ssl) (tx : Tx) (room : node.mempool.length < mempoolSize) :
    onNewTx node tx = { node with mempool := node.mempool ++ [tx] } := if_pos room

variable [DecidableEq ι]

/-- A payment that a node gets is in its mempool, if there is room. -/
theorem mem_put_onNewTx (net : Network ι ssl α) (i k : ι) (tx other : Tx) (room : HasRoom net) :
    other ∈ ((net.put i (onNewTx (net.nodes i) tx)).nodes k).mempool ↔
      other ∈ (net.nodes k).mempool ∨ (i = k ∧ other = tx) := by
  rw [onNewTx_room _ _ (room i)]
  by_cases same : k = i
  · subst same
    simp
  · rw [Network.put_other net i k _ same]
    simp [Ne.symm same]

/-- The payments of a run. -/
def sentIn (transport : Transport ssl α) : Network ι ssl α → List (NetEvent ι) → List (ι × Tx)
  | _, [] => []
  | net, event :: rest =>
    sentBy net event ++ match net.step transport event with
      | none => []
      | some next => sentIn transport next rest

/-- A payment is put into the mempool of its sender and waits for the
neighbours. -/
theorem inReach_act (net next : Network ι ssl Message) (i : ι) (action : Action)
    (carrying : Carrying graph fd net) (room : HasRoom net)
    (kind : SendsOrDelivers (.act i action)) (stepped : net.step messages (.act i action) = some next) :
    Carrying graph fd next ∧ ∀ k tx, InReach next k tx ↔ InReach net k tx ∨
      ∃ j, (j = k ∨ graph.Adj j k) ∧ (j, tx) ∈ sentBy net (.act i action) := by
  obtain ⟨node, packets, acts, rfl⟩ := step_of_act net next i action stepped
  cases acts with
  | refused receiver amount fee made =>
    rw [Network.put_self]
    exact ⟨carrying, fun k tx => by simp [sentBy, made, Move.post]⟩
  | @sent receiver amount fee tx idle made =>
    have faithful := faithful_sent (net.nodes i) receiver amount fee tx made
    have peers := acts_peers (.sent idle made)
    have wired := wired_post carrying.wired i (onNewTx (net.nodes i) tx)
      (nodeBroadcastTx (net.nodes i) tx) (net.put i (onNewTx (net.nodes i) tx)) rfl rfl peers
    have waits (socket : ι × Nat) (message : Message) :
        message ∈ (Move.post messages ⟨net.put i (onNewTx (net.nodes i) tx), i,
          nodeBroadcastTx (net.nodes i) tx⟩).channel socket ↔
            message ∈ net.channel socket ∨
              ((∃ j, graph.Adj i j ∧ socket = (j, fd j i)) ∧ message = .newTx tx) := by
      rw [mem_post_iff]
      refine or_congr Iff.rfl ?_
      constructor
      · rintro ⟨packet, member, far, rfl⟩
        obtain ⟨n, active, rfl⟩ := List.mem_map.mp member
        obtain ⟨j, adjacent, -, rfl⟩ := (mem_activeFds_remote carrying.wired i n socket).mp ⟨active, far⟩
        exact ⟨⟨j, adjacent, rfl⟩, rfl⟩
      · rintro ⟨⟨j, adjacent, rfl⟩, rfl⟩
        obtain ⟨active, far⟩ := (mem_activeFds_remote carrying.wired i (fd i j) (j, fd j i)).mpr
          ⟨j, adjacent, rfl, rfl⟩
        exact ⟨_, List.mem_map_of_mem active, far, rfl⟩
    refine ⟨⟨wired, fun socket message member => ?_⟩, fun k other => ?_⟩
    · rcases (waits socket message).mp member with old | ⟨⟨j, adjacent, rfl⟩, rfl⟩
      · exact carrying.payments socket message old
      · exact ⟨⟨tx, rfl⟩, faithful, i, adjacent.symm, rfl⟩
    · have stored := mem_put_onNewTx net i k tx other room
      have nodes := (Move.post_nodes messages (⟨net.put i (onNewTx (net.nodes i) tx), i,
        nodeBroadcastTx (net.nodes i) tx⟩ : Move ι ssl Message)).1
      have underway : (∃ n, .newTx other ∈ (Move.post messages
          ⟨net.put i (onNewTx (net.nodes i) tx), i, nodeBroadcastTx (net.nodes i) tx⟩).channel (k, n)) ↔
            (∃ n, .newTx other ∈ net.channel (k, n)) ∨ (graph.Adj i k ∧ other = tx) := by
        simp only [waits, Prod.mk.injEq, Message.newTx.injEq, exists_or]
        refine or_congr Iff.rfl ⟨?_, ?_⟩
        · rintro ⟨n, ⟨j, adjacent, rfl, -⟩, same⟩
          exact ⟨adjacent, same⟩
        · rintro ⟨adjacent, same⟩
          exact ⟨_, ⟨k, adjacent, rfl, rfl⟩, same⟩
      have only : sentBy net (.act i (.send receiver amount fee)) = [(i, tx)] := by
        simp [sentBy, made]
      rw [InReach, InReach, nodes, stored, underway, only]
      simp only [List.mem_singleton, Prod.mk.injEq]
      constructor
      · rintro ((old | ⟨rfl, rfl⟩) | waiting | ⟨adjacent, rfl⟩)
        · exact Or.inl (Or.inl old)
        · exact Or.inr ⟨i, Or.inl rfl, rfl, rfl⟩
        · exact Or.inl (Or.inr waiting)
        · exact Or.inr ⟨i, Or.inr adjacent, rfl, rfl⟩
      · rintro ((old | waiting) | ⟨j, rfl | adjacent, rfl, rfl⟩)
        · exact Or.inl (Or.inl old)
        · exact Or.inr (Or.inl waiting)
        · exact Or.inl (Or.inr ⟨rfl, rfl⟩)
        · exact Or.inr (Or.inr ⟨adjacent, rfl⟩)
  | tip | selected | added | abandoned | announced => exact kind.elim

/-- A payment that is delivered stays in reach of the node. -/
theorem inReach_deliver (net next : Network ι ssl Message) (i : ι) (n : Nat)
    (carrying : Carrying graph fd net) (room : HasRoom net)
    (stepped : net.step messages (.deliver i n) = some next) :
    Carrying graph fd next ∧ ∀ k tx, InReach next k tx ↔ InReach net k tx := by
  obtain ⟨active, message, rest, waiting, rfl⟩ := step_of_deliver net next i n stepped
  obtain ⟨⟨tx, rfl⟩, -⟩ := carrying.payments (i, n) message (by simp [waiting])
  have channel (socket : ι × Nat) (message : Message) :
      message ∈ net.channel socket ↔ message ∈ ((net.put i (onNewTx (net.nodes i) tx)).drain (i, n)
        rest).channel socket ∨ (socket = (i, n) ∧ message = .newTx tx) := by
    by_cases here : socket = (i, n)
    · subst here
      simp [Network.drain, waiting, or_comm]
    · simp [Network.drain, Network.put, here]
  have reacts : Reacts (net.nodes i) n (.newTx tx) (onNewTx (net.nodes i) tx) [] := .tx tx
  have peers := reacts_peers reacts
  refine ⟨⟨wired_post carrying.wired i _ _ _ rfl rfl peers, fun socket message member => ?_⟩,
    fun k other => ?_⟩
  · exact carrying.payments socket message ((channel socket message).mpr (Or.inl member))
  · change (other ∈ ((net.put i (onNewTx (net.nodes i) tx)).nodes k).mempool ∨
      ∃ m, .newTx other ∈ ((net.put i (onNewTx (net.nodes i) tx)).drain (i, n) rest).channel (k, m)) ↔ _
    rw [mem_put_onNewTx net i k tx other room, InReach]
    simp only [channel, Prod.mk.injEq, Message.newTx.injEq, exists_or]
    constructor
    · rintro ((old | ⟨rfl, rfl⟩) | waits)
      · exact Or.inl old
      · exact Or.inr (Or.inr ⟨n, ⟨rfl, rfl⟩, rfl⟩)
      · exact Or.inr (Or.inl waits)
    · rintro (old | waits | ⟨m, ⟨rfl, -⟩, rfl⟩)
      · exact Or.inl (Or.inl old)
      · exact Or.inr waits
      · exact Or.inl (Or.inr ⟨rfl, rfl⟩)

/-- The step lemma. -/
theorem inReach_step (net next : Network ι ssl Message) (event : NetEvent ι)
    (carrying : Carrying graph fd net) (room : HasRoom net) (kind : SendsOrDelivers event)
    (stepped : net.step messages event = some next) :
    Carrying graph fd next ∧ ∀ k tx, InReach next k tx ↔ InReach net k tx ∨
      ∃ j, (j = k ∨ graph.Adj j k) ∧ (j, tx) ∈ sentBy net event := by
  cases event with
  | act i action => exact inReach_act net next i action carrying room kind stepped
  | deliver i n =>
    obtain ⟨after, same⟩ := inReach_deliver net next i n carrying room stepped
    exact ⟨after, fun k tx => by simp [same, sentBy]⟩
  | connect | accept | closed => exact kind.elim

/-- The run lemma. -/
theorem inReach_run (start : Network ι ssl Message) (reached : Network ι ssl UInt8)
    (events : List (NetEvent ι)) (carrying : Carrying graph fd start)
    (kind : ∀ event ∈ events, SendsOrDelivers event)
    (room : Every (Network.step bytes) (fun net _ => HasRoom net) start.represent events)
    (ran : run (Network.step bytes) start.represent events = some reached) :
    ∃ typed : Network ι ssl Message, typed.represent = reached ∧ Carrying graph fd typed ∧
      ∀ k tx, InReach typed k tx ↔ InReach start k tx ∨
        ∃ j, (j = k ∨ graph.Adj j k) ∧ (j, tx) ∈ sentIn bytes start.represent events := by
  induction events generalizing start with
  | nil =>
    exact ⟨start, Option.some.inj ran, carrying, fun k tx => by simp [sentIn]⟩
  | cons event rest ih =>
    obtain ⟨next, stepped, later⟩ := (run_cons _ _ _ _ _).mp ran
    have agree := step_faithful start event fun socket message waits =>
      (carrying.payments socket message waits).2.1
    have here := stepped
    rw [agree] at stepped
    obtain ⟨typedNext, typedStepped, rfl⟩ := Option.map_eq_some_iff.mp stepped
    obtain ⟨after, reach⟩ := inReach_step start typedNext event carrying room.1 (kind event (by simp))
      typedStepped
    obtain ⟨typed, same, ends, all⟩ := ih typedNext after
      (fun other member => kind other (by simp [member])) (room.2 _ here) later
    refine ⟨typed, same, ends, fun k tx => ?_⟩
    have sent : sentIn bytes start.represent (event :: rest) =
        sentBy start event ++ sentIn bytes typedNext.represent rest := by
      rw [sentIn, here]
      rfl
    rw [all, reach, sent, or_assoc, ← exists_or]
    simp only [List.mem_append, and_or_left]

/-- A run in which users send and lines are delivered brings every payment into
every mempool exactly if each node has it from the start, has sent it, or is a
neighbour of a node that has. -/
theorem spread_iff (graph : SimpleGraph ι) (fd : ι → ι → Nat) (start reached : Network ι ssl UInt8)
    (events : List (NetEvent ι)) (wired : Wired graph fd start)
    (quiet : ∀ socket, start.channel socket = []) (kind : ∀ event ∈ events, SendsOrDelivers event)
    (room : Every (Network.step bytes) (fun net _ => HasRoom net) start events)
    (ran : run (Network.step bytes) start events = some reached)
    (settled : ∀ i j, graph.Adj i j → reached.channel (i, fd i j) = []) :
    ReachAll (sentIn bytes start events) reached ↔
      ∀ i tx, (i, tx) ∈ sentIn bytes start events → ∀ k, tx ∈ (start.nodes k).mempool ∨
        ∃ j, (j = k ∨ graph.Adj j k) ∧ (j, tx) ∈ sentIn bytes start events := by
  have same := represent_quiet start quiet
  have carrying : Carrying graph fd start.quiet :=
    ⟨wired.congr (fun _ => rfl) rfl, by simp [Network.quiet]⟩
  rw [← same] at room ran
  obtain ⟨typed, rfl, ends, all⟩ := inReach_run start.quiet reached events carrying kind room ran
  rw [same] at all
  have empty (k : ι) (n : Nat) : typed.channel (k, n) = [] := by
    refine List.eq_nil_iff_forall_not_mem.mpr fun message member => ?_
    obtain ⟨-, faithful, j, adjacent, same⟩ := ends.payments (k, n) message member
    obtain rfl : n = fd k j := same
    have text := List.flatMap_eq_nil_iff.mp (settled k j adjacent) message member
    rw [faithful.text] at text
    simp at text
  refine forall₃_congr fun i tx sent => forall_congr' fun k => ?_
  have here := all k tx
  rw [InReach, InReach] at here
  simpa [empty, Network.quiet, Network.represent] using here

/-! ## An example -/

/-- Three nodes in a row. -/
def row : SimpleGraph (Fin 3) where
  Adj i j := i.val + 1 = j.val ∨ j.val + 1 = i.val
  symm := ⟨fun _ _ adjacent => adjacent.symm⟩
  loopless := ⟨fun _ adjacent => by omega⟩

instance : DecidableRel row.Adj := fun _ _ => inferInstanceAs (Decidable (_ ∨ _))

theorem row_connected : row.Connected := by
  have toMiddle (i : Fin 3) : row.Reachable i 1 := by
    by_cases middle : i = 1
    · rw [middle]
    · exact SimpleGraph.Adj.reachable (by revert i; decide)
  exact ⟨fun i j => (toMiddle i).trans (toMiddle j).symm⟩

/-- Three processes in a row that have the block of the first one. -/
def rowNet : Network (Fin 3) stubSsl UInt8 :=
  wire row fun i => { freshNode (stubWallet i.val.toUInt8) with chain := [genesisBlock, firstBlock] }

/-- The first process pays, and its neighbour gets the payment. -/
def paying : List (NetEvent (Fin 3)) :=
  [.act 0 (.send payee 1 1), .deliver 1 0]

theorem paying_run : ∃ reached : Network (Fin 3) stubSsl UInt8,
    run (Network.step bytes) rowNet paying = some reached ∧
      (∀ i j : Fin 3, row.Adj i j → reached.channel (i, j.val) = []) ∧
      Every (Network.step bytes) (fun net _ => HasRoom net) rowNet paying ∧
      (∃ tx, (0, tx) ∈ sentIn bytes rowNet paying) ∧ (reached.nodes 2).mempool = [] := by
  have evaluated : (rowNet.step bytes (.act 0 (.send payee 1 1))).bind
      (fun next => (next.step bytes (.deliver 1 0)).map fun reached =>
        (decide (∀ i : Fin 3, (next.nodes i).mempool.length < mempoolSize),
          decide (∀ i j : Fin 3, row.Adj i j → reached.channel (i, j.val) = []),
          (sentBy rowNet (.act 0 (.send payee 1 1))).map Prod.fst,
          (reached.nodes 2).mempool)) = some (true, true, [0], []) := by decide +kernel
  obtain ⟨next, sends, evaluated⟩ := Option.bind_eq_some_iff.mp evaluated
  obtain ⟨reached, delivers, facts⟩ := Option.map_eq_some_iff.mp evaluated
  simp only [Prod.mk.injEq, decide_eq_true_eq, List.map_eq_singleton_iff] at facts
  obtain ⟨room, silent, ⟨⟨sender, tx⟩, sent, rfl⟩, nothing⟩ := facts
  refine ⟨reached, ?_, silent, ⟨fun i => ?_, fun other same => ⟨?_, fun _ _ => trivial⟩⟩, ⟨tx, ?_⟩, nothing⟩
  · exact (run_cons _ _ _ _ _).mpr ⟨next, sends, (run_cons _ _ _ _ _).mpr ⟨reached, delivers, rfl⟩⟩
  · exact show (0 : Nat) < mempoolSize by decide
  · rw [sends] at same
    obtain rfl := Option.some.inj same
    exact room
  · rw [paying, sentIn, sent]
    simp

/-- The last process in the row never gets it: a received transaction enters the
mempool and is not forwarded. -/
theorem payment_stops : ∃ reached : Network (Fin 3) stubSsl UInt8,
    row.Connected ∧ Wired row (fun _ j => j.val) rowNet ∧ (∀ socket, rowNet.channel socket = []) ∧
      (∀ event ∈ paying, SendsOrDelivers event) ∧
      Every (Network.step bytes) (fun net _ => HasRoom net) rowNet paying ∧
      run (Network.step bytes) rowNet paying = some reached ∧
      (∀ i j, row.Adj i j → reached.channel (i, j.val) = []) ∧
      ¬ ReachAll (sentIn bytes rowNet paying) reached := by
  obtain ⟨reached, ran, silent, room, ⟨tx, sent⟩, nothing⟩ := paying_run
  refine ⟨reached, row_connected, wired_wire row _, fun _ => rfl, by simp [paying, SendsOrDelivers],
    room, ran, silent, fun all => ?_⟩
  have member := all 0 tx sent 2
  rw [nothing] at member
  exact absurd member List.not_mem_nil

/-- The same run, and what the equivalence says about it: the third process is
no neighbour of the sender. -/
theorem spread_iff_here : ∃ reached : Network (Fin 3) stubSsl UInt8,
    run (Network.step bytes) rowNet paying = some reached ∧
      (ReachAll (sentIn bytes rowNet paying) reached ↔
        ∀ i tx, (i, tx) ∈ sentIn bytes rowNet paying → ∀ k, tx ∈ (rowNet.nodes k).mempool ∨
          ∃ j, (j = k ∨ row.Adj j k) ∧ (j, tx) ∈ sentIn bytes rowNet paying) := by
  obtain ⟨reached, ran, silent, room, -⟩ := paying_run
  exact ⟨reached, ran, spread_iff row (fun _ j => j.val) rowNet reached paying (wired_wire row _)
    (fun _ => rfl) (by simp [paying, SendsOrDelivers]) room ran silent⟩

end MiniCoin
