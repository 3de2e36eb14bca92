import MiniCoin.PlainRuns
import MiniCoin.EconomicValidity

/-!
# Synchronisation at connect

Two connected nodes ask each other for their chains and answer with the chain they have when
the request is handled. Chains are only replaced by longer ones, so the shorter chain gives
way as soon as an answer with the longer one arrives, and nothing else changes.

A block is sent without its unused transaction slots, so what arrives is the compact chain.
-/

namespace MiniCoin

open ByteStrings QuotedText Runs

variable {ssl : OpenSSL}

/-! ## Two connected nodes -/

/-- What happens between two connected nodes that do not mine: a request of the
chain, or the handling of one line that waits. -/
inductive SyncEvent where
  | ask (i : Bool)
  | deliver (i : Bool)
  deriving DecidableEq

/-- `node_request_chain` for the only peer, or one pass of the loop of
`peer_handler`. -/
def syncStep (fd : Bool → Nat) (net : Network Bool ssl UInt8) :
    SyncEvent → Option (Network Bool ssl UInt8)
  | .ask i => some (Move.post bytes ⟨net, i, nodeRequestChain (net.nodes i) 0⟩)
  | .deliver i => net.step bytes (.deliver i (fd i))

/-- Each node has the other one as its only peer, so a request goes to it and so
does the answer. -/
structure Joined (fd : Bool → Nat) (net : Network Bool ssl UInt8) : Prop where
  peers : ∀ i, (net.nodes i).peers = [⟨fd i, true⟩]
  remote : ∀ i, net.remote (i, fd i) = some (!i, fd !i)

/-- A valid chain whose response is one line that fits the buffer. Its texts are
safe, so the receiver builds from the line what was sent. -/
structure Sendable (sha : Sha256) (chain : Blockchain) : Prop where
  nonempty : chain ≠ []
  fits : chain.length ≤ maxBlocks
  valid : chainValidate sha chain = true
  safe : ∀ block ∈ chain, block.Safe
  oneLine : ∀ block ∈ chain, block.OneLine
  short : (Message.chainResponse chain).text.length < maxMsgSize

/-- A valid chain of plain blocks whose text fits the line can be sent. -/
theorem Sendable.of_plain {sha : Sha256} {chain : Blockchain} (nonempty : chain ≠ [])
    (fits : chain.length ≤ maxBlocks) (valid : chainValidate sha chain = true)
    (plain : ∀ block ∈ chain, block.Plain)
    (short : (Message.chainResponse chain).text.length < maxMsgSize) : Sendable sha chain :=
  ⟨nonempty, fits, valid, fun block member => (plain block member).safe,
    fun block member => (plain block member).oneLine, short⟩

/-- What is read from the response with this chain: the same blocks with zeros
in the slots that they do not list. -/
def compactChain (chain : Blockchain) : Blockchain := chain.map Block.compact

/-- Clearing unused slots keeps the blocks. -/
@[simp] theorem compactChain_length (chain : Blockchain) : (compactChain chain).length = chain.length :=
  List.length_map _

variable {sha : Sha256} {chain : Blockchain}

/-- Clearing twice clears no more. A chain that was received has no unused
contents. -/
theorem compactChain_idem (sendable : Sendable sha chain) :
    compactChain (compactChain chain) = compactChain chain := by
  rw [compactChain, compactChain, List.map_map]
  exact List.map_congr_left fun block member => compact_compact block (sendable.safe block member).range

/-- The compact chain is written in the same way. -/
theorem compactChain_text (sendable : Sendable sha chain) :
    (Message.chainResponse (compactChain chain)).text = (Message.chainResponse chain).text := by
  have compactSafe : ∀ block ∈ compactChain chain, block.Safe := by
    intro block member
    obtain ⟨original, inChain, rfl⟩ := List.mem_map.mp member
    have safe := sendable.safe original inChain
    have oneLine := sendable.oneLine original inChain
    exact (safe.compact oneLine.prevHash oneLine.hash oneLine.txs).safe
  rw [Message.text, Message.text, protocolSerializeChain_eq chain sendable.fits sendable.safe,
    protocolSerializeChain_eq _ (by simpa using sendable.fits) compactSafe, compactChain,
    chainPieces_compact chain fun block member => (sendable.safe block member).range]

/-- The text of the cleared chain is the text of the chain, so it is as plain
and as short. -/
theorem compactChain_deliverable (sendable : Sendable sha chain) :
    (Message.chainResponse (compactChain chain)).Plain ∧
      (Message.chainResponse (compactChain chain)).text.length < maxMsgSize := by
  refine ⟨⟨by simpa [compactChain] using sendable.nonempty, by simpa using sendable.fits, ?_⟩, ?_⟩
  · intro block member
    obtain ⟨original, inChain, rfl⟩ := List.mem_map.mp member
    have oneLine := sendable.oneLine original inChain
    exact (sendable.safe original inChain).compact oneLine.prevHash oneLine.hash oneLine.txs
  · rw [compactChain_text sendable]
    exact sendable.short

/-- The compact chain is as valid: unused slots are not hashed. -/
theorem compactChain_valid (sendable : Sendable sha chain) :
    (compactChain chain).IsChain (Linked sha) := by
  have valid := (chainValidate_iff sha chain).mp sendable.valid
  rw [compactChain, List.isChain_map]
  refine List.IsChain.imp_of_mem_imp ?_ valid
  rintro prev curr - member ⟨link, accepted⟩
  refine ⟨link, ?_⟩
  rw [blockValidate_compact sha curr (sendable.safe curr member).range]
  exact accepted

/-! ## What is under way -/

variable {fd : Bool → Nat} {chains : Bool → Blockchain} {asked : Bool → Prop}
  {pending : Bool → List Message} {net : Network Bool ssl UInt8}

/-- The state of two nodes that started with these chains: what each of them
has, what waits for it, and, if it has asked and its chain is the shorter one,
how far the answer is. -/
structure Syncing (fd : Bool → Nat) (chains : Bool → Blockchain) (asked : Bool → Prop)
    (pending : Bool → List Message) (net : Network Bool ssl UInt8) : Prop where
  joined : Joined fd net
  channel : ∀ i, net.channel (i, fd i) = (pending i).flatMap Message.text
  chain : ∀ i, (net.nodes i).chain = chains i ∨
    ((chains i).length < (chains !i).length ∧ (net.nodes i).chain = compactChain (chains !i))
  waiting : ∀ i, ∀ message ∈ pending i, message = .requestChain ∨
    message = .chainResponse (compactChain (chains !i)) ∨
    ((chains !i).length < (chains i).length ∧ message = .chainResponse (compactChain (chains i)))
  answered : ∀ i, asked i → (chains i).length < (chains !i).length →
    .requestChain ∈ pending !i ∨ .chainResponse (compactChain (chains !i)) ∈ pending i ∨
      (net.nodes i).chain = compactChain (chains !i)

theorem not_ne (i : Bool) : (!i) ≠ i := by cases i <;> decide

/-- Everything under way in the exchange is a request or such a chain, and can
be read from the stream whole. -/
theorem Syncing.deliverable (syncing : Syncing fd chains asked pending net)
    (sendable : ∀ i, Sendable ssl.sha256 (chains i)) (i : Bool) :
    ∀ message ∈ pending i, message.Plain ∧ message.text.length < maxMsgSize := by
  intro message member
  rcases syncing.waiting i message member with rfl | rfl | ⟨-, rfl⟩
  · exact ⟨trivial, by decide⟩
  · exact compactChain_deliverable (sendable _)
  · exact compactChain_deliverable (sendable _)

/-- What is sent to the only peer is appended to what waits there. -/
theorem post_channel {α : Type} (transport : Transport ssl α) {net : Network Bool ssl α}
    (remote : ∀ i, net.remote (i, fd i) = some (!i, fd !i)) (i : Bool) (message : Message) :
    (net.post transport i ⟨fd i, message⟩).nodes = net.nodes ∧
      (net.post transport i ⟨fd i, message⟩).remote = net.remote ∧
      ∀ j, (net.post transport i ⟨fd i, message⟩).channel (j, fd j) =
        net.channel (j, fd j) ++ if j = !i then transport.encode message else [] := by
  have shape : net.post transport i ⟨fd i, message⟩ = ⟨net.nodes, net.remote,
      Function.update net.channel (!i, fd !i)
        (net.channel (!i, fd !i) ++ transport.encode message)⟩ := by
    unfold Network.post
    rw [remote i]
  rw [shape]
  refine ⟨rfl, rfl, fun j => ?_⟩
  by_cases same : j = !i
  · subst same
    simp
  · have other : (j, fd j) ≠ (!i, fd !i) := fun equal => same (congrArg Prod.fst equal)
    simp [other, same]

/-- Asking adds a request. -/
theorem syncing_ask (syncing : Syncing fd chains asked pending net) (i : Bool) :
    Syncing fd chains (fun j => j = i ∨ asked j)
      (Function.update pending (!i) (pending (!i) ++ [.requestChain]))
      (Move.post bytes ⟨net, i, nodeRequestChain (net.nodes i) 0⟩) := by
  have request : nodeRequestChain (net.nodes i) 0 = [⟨fd i, .requestChain⟩] := by
    simp [nodeRequestChain, syncing.joined.peers i]
  have posted : Move.post bytes ⟨net, i, nodeRequestChain (net.nodes i) 0⟩ =
      net.post bytes i ⟨fd i, .requestChain⟩ := by
    rw [request]
    rfl
  obtain ⟨nodes, remote, channel⟩ := post_channel bytes syncing.joined.remote i .requestChain
  have still (j : Bool) (message : Message) (member : message ∈ pending j) :
      message ∈ Function.update pending (!i) (pending (!i) ++ [.requestChain]) j := by
    by_cases same : j = !i
    · subst same
      simp [member]
    · simpa [same] using member
  rw [posted]
  constructor
  · exact ⟨by rw [nodes]; exact syncing.joined.peers, by rw [remote]; exact syncing.joined.remote⟩
  · intro j
    rw [channel j, syncing.channel j]
    by_cases same : j = !i
    · subst same
      simp [bytes]
    · simp [same]
  · rw [nodes]
    exact syncing.chain
  · intro j message member
    by_cases same : j = !i
    · subst same
      rw [Function.update_self] at member
      rcases List.mem_append.mp member with old | new
      · exact syncing.waiting _ message old
      · exact Or.inl (List.mem_singleton.mp new)
    · exact syncing.waiting j message (by simpa [same] using member)
  · rw [nodes]
    intro j asks shorter
    by_cases same : j = i
    · subst same
      exact Or.inl (by simp)
    · rcases syncing.answered j (asks.resolve_left same) shorter with waits | waits | done
      · exact Or.inl (still _ _ waits)
      · exact Or.inr (Or.inl (still _ _ waits))
      · exact Or.inr (Or.inr done)

/-- The two nodes after one of them has handled a message. -/
def handled (fd : Bool → Nat) (net : Network Bool ssl UInt8) (i : Bool) (node : Node ssl)
    (rest : List Message) : Network Bool ssl UInt8 :=
  (net.put i node).drain (i, fd i) (rest.flatMap Message.text)

/-- Handling a message at one side takes it off that side's stream and leaves
the other's. -/
theorem handled_channel (i j : Bool) (node : Node ssl) (rest : List Message)
    (channel : net.channel (j, fd j) = (pending j).flatMap Message.text) :
    (handled fd net i node rest).channel (j, fd j) =
      (Function.update pending i rest j).flatMap Message.text := by
  by_cases same : j = i
  · subst same
    simp [handled, Network.drain]
  · have other : (j, fd j) ≠ (i, fd i) := fun equal => same (congrArg Prod.fst equal)
    simp [handled, Network.drain, Network.put, other, same, channel]

/-- Handling a message changes the node that reads it, and no other. -/
theorem handled_nodes (i j : Bool) (node : Node ssl) (rest : List Message) :
    (handled fd net i node rest).nodes j = if j = i then node else net.nodes j := by
  by_cases same : j = i
  · subst same
    simp [handled, Network.drain]
  · simp [handled, Network.drain, Network.put, same]

/-- The two sides stay joined, as handlers do not touch the peer table. -/
theorem handled_joined (joined : Joined fd net) (i : Bool) (node : Node ssl) (rest : List Message)
    (peers : node.peers = (net.nodes i).peers) : Joined fd (handled fd net i node rest) where
  peers j := by
    rw [handled_nodes]
    split
    · next same => rw [same, peers, joined.peers i]
    · exact joined.peers j
  remote := joined.remote

/-- Handling a request sends the chain that the node has now. -/
theorem syncing_request (syncing : Syncing fd chains asked pending net)
    (sendable : ∀ i, Sendable ssl.sha256 (chains i)) (i : Bool) (rest : List Message)
    (first : pending i = .requestChain :: rest) :
    Syncing fd chains asked
      (Function.update (Function.update pending i rest) (!i)
        (pending (!i) ++ [.chainResponse (compactChain (net.nodes i).chain)]))
      (Move.post bytes ⟨handled fd net i (net.nodes i) rest, i,
        [⟨fd i, .chainResponse (net.nodes i).chain⟩]⟩) := by
  have joined := handled_joined syncing.joined i (net.nodes i) rest rfl
  obtain ⟨nodes, remote, channel⟩ := post_channel bytes joined.remote i (.chainResponse (net.nodes i).chain)
  have posted : Move.post bytes ⟨handled fd net i (net.nodes i) rest, i,
      [⟨fd i, .chainResponse (net.nodes i).chain⟩]⟩ =
        (handled fd net i (net.nodes i) rest).post bytes i ⟨fd i, .chainResponse (net.nodes i).chain⟩ := rfl
  have same (j : Bool) : (handled fd net i (net.nodes i) rest).nodes j = net.nodes j := by
    rw [handled_nodes]
    split
    · next equal => rw [equal]
    · rfl
  have text : (Message.chainResponse (compactChain (net.nodes i).chain)).text =
      (Message.chainResponse (net.nodes i).chain).text := by
    rcases syncing.chain i with own | ⟨-, other⟩
    · rw [own]
      exact compactChain_text (sendable i)
    · rw [other, compactChain_idem (sendable !i)]
  have other : i ≠ !i := (not_ne i).symm
  have still (j : Bool) (message : Message) (member : message ∈ pending j)
      (unread : message ≠ .requestChain ∨ j = !i) :
      message ∈ Function.update (Function.update pending i rest) (!i)
        (pending (!i) ++ [.chainResponse (compactChain (net.nodes i).chain)]) j := by
    by_cases far : j = !i
    · subst far
      simp [member]
    · have near : j = i := by
        revert far
        cases i <;> cases j <;> decide
      subst near
      rw [first] at member
      simpa [other] using (List.mem_cons.mp member).resolve_left (unread.resolve_right far)
  rw [posted]
  constructor
  · exact ⟨by rw [nodes]; exact joined.peers, by rw [remote]; exact joined.remote⟩
  · intro j
    rw [channel j, handled_channel i j _ rest (syncing.channel j)]
    by_cases far : j = !i
    · subst far
      simp [other.symm, text, bytes]
    · simp [far]
  · intro j
    rw [nodes, same]
    exact syncing.chain j
  · intro j message member
    by_cases far : j = !i
    · subst far
      rw [Function.update_self] at member
      rcases List.mem_append.mp member with old | new
      · exact syncing.waiting _ message old
      · obtain rfl := List.mem_singleton.mp new
        rw [Bool.not_not]
        rcases syncing.chain i with own | ⟨shorter, longer⟩
        · exact Or.inr (Or.inl (by rw [own]))
        · exact Or.inr (Or.inr ⟨shorter, by rw [longer, compactChain_idem (sendable !i)]⟩)
    · refine syncing.waiting j message ?_
      by_cases near : j = i
      · subst near
        rw [first]
        exact List.mem_cons_of_mem _ (by simpa [other] using member)
      · simpa [far, near] using member
  · intro j asks shorter
    rw [nodes, same]
    by_cases far : j = !i
    · subst far
      -- Its answer is sent now, if it has not been sent before.
      refine Or.inr (Or.inl ?_)
      rw [Bool.not_not] at shorter ⊢
      rcases syncing.chain i with own | ⟨longer, -⟩
      · rw [Function.update_self, own]
        simp
      · omega
    · have near : j = i := by
        revert far
        cases i <;> cases j <;> decide
      subst near
      rcases syncing.answered j asks shorter with waits | waits | done
      · exact Or.inl (still _ _ waits (Or.inr rfl))
      · exact Or.inr (Or.inl (still _ _ waits (Or.inl (by simp))))
      · exact Or.inr (Or.inr done)

/-- Handling a response replaces the chain if the response is longer, and is
always the end of the way for the other node's chain. -/
theorem syncing_response (syncing : Syncing fd chains asked pending net)
    (sendable : ∀ i, Sendable ssl.sha256 (chains i)) (i : Bool) (rest : List Message)
    (other : Blockchain) (first : pending i = .chainResponse other :: rest) :
    Syncing fd chains asked (Function.update pending i rest)
      (handled fd net i (react (net.nodes i) (fd i) (.chainResponse other)).1 rest) := by
  obtain ⟨node, reacted⟩ : ∃ node, node = (react (net.nodes i) (fd i) (.chainResponse other)).1 :=
    ⟨_, rfl⟩
  have outcome : node.peers = (net.nodes i).peers ∧
      (node.chain = chains i ∨
        ((chains i).length < (chains !i).length ∧ node.chain = compactChain (chains !i))) ∧
      ((chains i).length < (chains !i).length → other = compactChain (chains !i) →
        node.chain = compactChain (chains !i)) ∧
      ((net.nodes i).chain = compactChain (chains !i) → node.chain = compactChain (chains !i)) := by
    have here := syncing.waiting i (.chainResponse other) (by simp [first])
    simp only [reduceCtorEq, Message.chainResponse.injEq, false_or] at here
    cases taken : chainReplace ssl.sha256 (net.nodes i).chain other with
    | none =>
      have kept : node = net.nodes i := by simp [reacted, react, taken]
      rw [kept]
      refine ⟨rfl, syncing.chain i, fun shorter same => ?_, id⟩
      rcases syncing.chain i with own | ⟨-, done⟩
      · have valid := compactChain_valid (sendable !i)
        have accepted : chainReplace ssl.sha256 (net.nodes i).chain other = some other :=
          (chainReplace_iff _ _ _ _).mpr ⟨by rw [own, same]; simpa using shorter,
            by rw [same]; exact valid, rfl⟩
        rw [taken] at accepted
        cases accepted
      · exact done
    | some replaced =>
      obtain ⟨longer, -, rfl⟩ := (chainReplace_iff _ _ _ _).mp taken
      have grown : node = { net.nodes i with chain := replaced } := by simp [reacted, react, taken]
      rw [grown]
      -- Only the other node's chain can be longer than the chain of this node.
      have foreign : (chains i).length < (chains !i).length ∧ replaced = compactChain (chains !i) := by
        rcases syncing.chain i with own | ⟨shorter, done⟩
        · rcases here with rfl | ⟨farShorter, rfl⟩
          · rw [own, compactChain_length] at longer
            exact ⟨longer, rfl⟩
          · rw [own, compactChain_length] at longer
            omega
        · rcases here with rfl | ⟨farShorter, rfl⟩
          · rw [done] at longer
            omega
          · omega
      exact ⟨rfl, Or.inr foreign, fun _ _ => foreign.2, fun _ => foreign.2⟩
  obtain ⟨peers, chain, arrives, stays⟩ := outcome
  rw [← reacted]
  have joined := handled_joined syncing.joined i node rest peers
  have still (j : Bool) (message : Message) (member : message ∈ pending j) (left : j ≠ i ∨
      message ≠ .chainResponse other) : message ∈ Function.update pending i rest j := by
    by_cases near : j = i
    · subst near
      rw [first] at member
      simpa using (List.mem_cons.mp member).resolve_left (left.resolve_left (by simp))
    · simpa [near] using member
  constructor
  · exact joined
  · exact fun j => handled_channel i j node rest (syncing.channel j)
  · intro j
    rw [handled_nodes]
    split
    · next same => rw [same]; exact chain
    · exact syncing.chain j
  · intro j message member
    refine syncing.waiting j message ?_
    by_cases near : j = i
    · subst near
      rw [first]
      exact List.mem_cons_of_mem _ (by simpa using member)
    · simpa [near] using member
  · intro j asks shorter
    rw [handled_nodes]
    rcases syncing.answered j asks shorter with waits | waits | done
    · exact Or.inl (still _ _ waits (Or.inr (by simp)))
    · by_cases read : j = i ∧ other = compactChain (chains !j)
      · obtain ⟨rfl, same⟩ := read
        rw [if_pos rfl]
        exact Or.inr (Or.inr (arrives shorter same))
      · refine Or.inr (Or.inl (still _ _ waits ?_))
        by_cases near : j = i
        · exact Or.inr fun same => read ⟨near, (Message.chainResponse.inj same).symm⟩
        · exact Or.inl near
    · refine Or.inr (Or.inr ?_)
      split
      · next same =>
        subst same
        exact stays done
      · exact done

/-! ## Runs -/

/-- The nodes that have asked by the end of a run. -/
def Asks (events : List SyncEvent) (i : Bool) : Prop := .ask i ∈ events

/-- The step lemma. -/
theorem syncing_step (syncing : Syncing fd chains asked pending net)
    (sendable : ∀ i, Sendable ssl.sha256 (chains i)) (event : SyncEvent)
    (next : Network Bool ssl UInt8) (stepped : syncStep fd net event = some next) :
    ∃ later, Syncing fd chains (fun i => event = .ask i ∨ asked i) later next := by
  cases event with
  | ask i =>
    obtain rfl := Option.some.inj stepped
    have posed := syncing_ask syncing i
    simp only [SyncEvent.ask.injEq, eq_comm (a := i)]
    exact ⟨_, posed⟩
  | deliver i =>
    obtain ⟨message, rest, first, rfl⟩ := step_deliver net next i (fd i) (pending i)
      (syncing.channel i) (fun message member => by
        obtain ⟨plain, short⟩ := syncing.deliverable sendable i message member
        exact faithful_plain message plain short) stepped
    simp only [reduceCtorEq, false_or]
    have here := syncing.waiting i message (by simp [first])
    rcases here with rfl | rfl | ⟨-, rfl⟩
    · exact ⟨_, syncing_request syncing sendable i rest first⟩
    · have quiet : (react (net.nodes i) (fd i) (.chainResponse (compactChain (chains !i)))).2 = [] := by
        simp only [react]
        split <;> rfl
      rw [quiet]
      exact ⟨_, syncing_response syncing sendable i rest _ first⟩
    · have quiet : (react (net.nodes i) (fd i) (.chainResponse (compactChain (chains i)))).2 = [] := by
        simp only [react]
        split <;> rfl
      rw [quiet]
      exact ⟨_, syncing_response syncing sendable i rest _ first⟩

/-- The run lemma. -/
theorem syncing_run (syncing : Syncing fd chains asked pending net)
    (sendable : ∀ i, Sendable ssl.sha256 (chains i)) (events : List SyncEvent)
    (reached : Network Bool ssl UInt8) (ran : run (syncStep fd) net events = some reached) :
    ∃ later, Syncing fd chains (fun i => Asks events i ∨ asked i) later reached := by
  induction events generalizing net asked pending with
  | nil =>
    obtain rfl := Option.some.inj ran
    exact ⟨pending, by simpa [Asks] using syncing⟩
  | cons event rest ih =>
    obtain ⟨next, stepped, later⟩ := (run_cons _ _ _ _ _).mp ran
    obtain ⟨between, after⟩ := syncing_step syncing sendable event next stepped
    obtain ⟨final, done⟩ := ih after later
    refine ⟨final, ?_⟩
    have same : (fun i => Asks (event :: rest) i ∨ asked i) =
        fun i => Asks rest i ∨ event = .ask i ∨ asked i := by
      funext i
      simp only [Asks, List.mem_cons, eq_iff_iff, eq_comm (a := SyncEvent.ask i)]
      tauto
    rw [same]
    exact done

/-- Two connected nodes with valid chains that fit a line: when each has asked
the other one at least once and nothing is under way, a chain that was shorter
has been replaced by the longer one, and otherwise no chain has changed. -/
theorem sync_converges (fd : Bool → Nat) (start reached : Network Bool ssl UInt8)
    (events : List SyncEvent) (joined : Joined fd start)
    (idle : ∀ i, start.channel (i, fd i) = [])
    (sendable : ∀ i, Sendable ssl.sha256 (start.nodes i).chain)
    (each : ∀ i, .ask i ∈ events) (ran : run (syncStep fd) start events = some reached)
    (quiet : ∀ i, reached.channel (i, fd i) = []) (i : Bool) :
    (reached.nodes i).chain.length =
        max (start.nodes i).chain.length (start.nodes !i).chain.length ∧
      (reached.nodes i).chain = if (start.nodes i).chain.length < (start.nodes !i).chain.length
        then compactChain (start.nodes !i).chain else (start.nodes i).chain := by
  have begins : Syncing fd (fun i => (start.nodes i).chain) (fun _ => False) (fun _ => []) start :=
    ⟨joined, by simpa using idle, fun _ => Or.inl rfl, by simp, by simp⟩
  obtain ⟨pending, ends⟩ := syncing_run begins sendable events reached ran
  have nothing (j : Bool) : pending j = [] := by
    have empty := ends.channel j
    rw [quiet j] at empty
    refine List.eq_nil_iff_forall_not_mem.mpr fun message member => ?_
    obtain ⟨plain, -⟩ := ends.deliverable sendable j message member
    have text := List.flatMap_eq_nil_iff.mp empty.symm message member
    rw [plain.text.1] at text
    simp at text
  have decided : (reached.nodes i).chain =
      if (start.nodes i).chain.length < (start.nodes !i).chain.length
        then compactChain (start.nodes !i).chain else (start.nodes i).chain := by
    split
    · next shorter =>
      have answer := ends.answered i (Or.inl (each i)) shorter
      simpa [nothing] using answer
    · next longer =>
      rcases ends.chain i with own | ⟨shorter, -⟩
      · exact own
      · exact absurd shorter longer
  refine ⟨?_, decided⟩
  rw [decided]
  split
  · rw [compactChain_length]
    omega
  · omega

/-! ## Examples -/

/-- Two connected processes with one peer each, and their chains. -/
def connected (chains : Bool → Blockchain) : Network Bool stubSsl UInt8 where
  nodes i := { freshNode (stubWallet 0) with chain := chains i, peers := [⟨0, true⟩] }
  remote socket := if socket.2 = 0 then some (!socket.1, 0) else none
  channel _ := []

/-- The pair of the example is joined by one connection. -/
theorem connected_joined (chains : Bool → Blockchain) : Joined (fun _ => 0) (connected chains) :=
  ⟨fun _ => rfl, fun _ => rfl⟩

/-- Both ask, and everything that is then under way is handled, up to five
lines. -/
def exchange : List SyncEvent :=
  [.ask false, .ask true, .deliver true, .deliver false, .deliver false, .deliver true]

/-- The second process has mined a block, which the first one gets with the
chain that it has asked for. -/
theorem sync_converges_here : ∃ reached : Network Bool stubSsl UInt8,
    (reached.nodes false).chain.length = max 1 2 ∧
      (reached.nodes false).chain = compactChain [genesisBlock, firstBlock] := by
  let chains : Bool → Blockchain := fun i => if i then [genesisBlock, firstBlock] else [genesisBlock]
  have evaluated : (run (syncStep fun _ => 0) (connected chains) exchange).map
      (fun net => (net.channel (false, 0), net.channel (true, 0))) = some ([], []) := by decide +kernel
  obtain ⟨reached, ran, quiet⟩ := Option.map_eq_some_iff.mp evaluated
  obtain ⟨quietFalse, quietTrue⟩ := Prod.mk.inj quiet
  have genesisPlain : genesisBlock.Plain :=
    ((lawful_plain stubSsl).started [genesisBlock] chainInit_sha256).2.2 genesisBlock (by simp)
  have sendable : ∀ i, Sendable stubSsl.sha256 ((connected chains).nodes i).chain := by
    intro i
    cases i with
    | false =>
      change Sendable stubSsl.sha256 [genesisBlock]
      exact Sendable.of_plain (by decide) (by decide) (by decide) (by simp [genesisPlain])
        (by decide +kernel)
    | true =>
      change Sendable stubSsl.sha256 [genesisBlock, firstBlock]
      exact Sendable.of_plain (by decide) (by decide) firstChain_valid.1
        (by simp [genesisPlain, firstBlock_plain]) (by decide +kernel)
  exact ⟨reached, sync_converges (fun _ => 0) (connected chains) reached exchange
    (connected_joined chains) (fun _ => rfl) sendable (by decide) ran
    (by simp [quietFalse, quietTrue]) false⟩

/-- A mined block with a transaction to a newline. `json_escape` leaves control
characters as they are. -/
def brokenBlock : Block :=
  { blockAfter genesisBlock 60 with
    txCount := 1
    transactions := fillSlots [{ Tx.zero with
      receiver := CText.ofBytes [10]
      txHash := CText.ofBytes (ascii "a") }]
    hash := CText.ofBytes (ascii "000a8c1112e871e3c2e61f3aef473a12577e41224875c1a8fcc6b19169920070") }

/-- The response with this block arrives as two lines, of which none is a longer
valid chain: the newline inside a hash is written as it is, and ends the line
for the reader. -/
theorem newline_splits_response : ∃ (chains : Bool → Blockchain) (events : List SyncEvent)
    (reached : Network Bool stubSsl UInt8), Joined (fun _ => 0) (connected chains) ∧
      (∀ i, (connected chains).channel (i, 0) = []) ∧
      (∀ i, chains i ≠ [] ∧ (chains i).length ≤ maxBlocks ∧
        chainValidate stubSsl.sha256 (chains i) = true ∧ (chains i).head? = some genesisBlock ∧
        (∀ block ∈ chains i, block.Safe) ∧
        (Message.chainResponse (chains i)).text.length < maxMsgSize) ∧
      (∀ i, .ask i ∈ events) ∧ run (syncStep fun _ => 0) (connected chains) events = some reached ∧
      (∀ i, reached.channel (i, 0) = []) ∧
      (reached.nodes false).chain.length ≠ max (chains false).length (chains true).length := by
  let chains : Bool → Blockchain := fun i => if i then [genesisBlock, brokenBlock] else [genesisBlock]
  let events : List SyncEvent :=
    [.ask false, .ask true, .deliver true, .deliver false, .deliver false, .deliver false, .deliver true]
  have evaluated : (run (syncStep fun _ => 0) (connected chains) events).map (fun net =>
      (net.channel (false, 0), net.channel (true, 0), (net.nodes false).chain.length)) =
        some ([], [], 1) := by decide +kernel
  obtain ⟨reached, ran, facts⟩ := Option.map_eq_some_iff.mp evaluated
  simp only [Prod.mk.injEq] at facts
  obtain ⟨quietFalse, quietTrue, length⟩ := facts
  have genesisSafe : genesisBlock.Safe :=
    ⟨by decide +kernel, by decide +kernel, by decide +kernel, by decide +kernel⟩
  have brokenSafe : brokenBlock.Safe :=
    ⟨by decide +kernel, by decide +kernel, by decide +kernel, by decide +kernel⟩
  refine ⟨chains, events, reached, connected_joined chains, fun _ => rfl, fun i => ?_, by decide, ran,
    by simp [quietFalse, quietTrue], by rw [length]; decide⟩
  cases i with
  | false =>
    exact ⟨by decide, by decide, by decide, rfl, by simp [chains, genesisSafe], by decide +kernel⟩
  | true =>
    exact ⟨by decide, by decide, by decide +kernel, rfl, by simp [chains, genesisSafe, brokenSafe],
      by decide +kernel⟩

end MiniCoin
