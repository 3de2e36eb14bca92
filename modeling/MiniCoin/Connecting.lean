import MiniCoin.PeerSlots

/-!
# Connecting while others connect

`node_connect_peer` ignores what `add_peer` returns, and asks the peer in the last slot for its
chain, where `accept_thread` may have put another one in the meantime. It is truthful exactly if
there was a free slot and no connection was accepted between taking the slot and reading
`peer_count`.
-/

namespace MiniCoin

open Runs

variable {ssl : OpenSSL}

/-- A request for the chain, with the slot and the descriptor that it is sent
to. -/
structure Request where
  slot : Nat
  fd : Nat
  deriving DecidableEq

/-- `node_request_chain`: an index out of range or a slot that is not active
asks nobody. -/
def requestChain (peers : List Peer) (peerIdx : Int) : List Request :=
  if peerIdx < 0 ∨ (peers.length : Int) ≤ peerIdx then []
  else
    match peers[peerIdx.toNat]? with
    | some peer => if peer.active then [⟨peerIdx.toNat, peer.fd⟩] else []
    | none => []

/-- How far `node_connect_peer` is: before `add_peer`, after it has given a
slot, after it has returned, after `peer_count` was read, and at its end. -/
inductive Stage where
  | dialled
  | registered (idx : Nat)
  | added
  | counted (idx : Int)
  | returned (code : Int)
  deriving DecidableEq

/-- The peer table, and what the thread in `node_connect_peer` has done.
`socket` is the descriptor of the connected socket, `none` if `getaddrinfo`,
`socket` or `connect` fails; `slot` is the one that `add_peer` gave to it. -/
structure Connecting where
  peers : List Peer
  socket : Option Nat
  stage : Stage
  slot : Option Nat
  requests : List Request

/-- The thread that goes on: the one in `node_connect_peer`, or `accept_thread`
with a connection. -/
inductive Turn where
  | connecting
  | accepting (fd : Nat)
  deriving DecidableEq

/-- One step of a thread. The locked part of `add_peer` is one step, and no lock
is held between the steps. -/
def connectStep (state : Connecting) : Turn → Option Connecting
  | .accepting fd => some { state with peers := (registerPeer state.peers fd).getD state.peers }
  | .connecting =>
    match state.stage with
    | .dialled =>
      match state.socket with
      | none => some { state with stage := .returned (-1) }
      | some fd =>
        match registerPeer state.peers fd with
        -- the socket is closed, and the -1 of `add_peer` is ignored
        | none => some { state with stage := .added }
        | some peers => some { state with
            peers := peers
            slot := some state.peers.length
            stage := .registered state.peers.length }
    | .registered idx => some { state with
        requests := state.requests ++ requestChain state.peers idx
        stage := .added }
    | .added => some { state with stage := .counted ((state.peers.length : Int) - 1) }
    | .counted idx => some { state with
        requests := state.requests ++ requestChain state.peers idx
        stage := .returned 0 }
    | .returned _ => none

/-- `node_connect_peer` after its system calls. -/
def Connecting.start (peers : List Peer) (socket : Option Nat) : Connecting :=
  ⟨peers, socket, .dialled, none, []⟩

/-- The connection is an active peer if success is reported, and all requests
went to it. -/
def Truthful (state : Connecting) : Prop :=
  (state.stage = .returned 0 →
    ∃ fd slot, state.socket = some fd ∧ state.slot = some slot ∧ state.peers[slot]? = some ⟨fd, true⟩) ∧
    ∀ request ∈ state.requests, state.slot = some request.slot

/-- There is a free slot when `add_peer` looks for one, and no connection gets a
slot from then on until `peer_count` is read. -/
def Undisturbed (state : Connecting) : Turn → Prop
  | .connecting => state.stage = .dialled → ∀ fd, state.socket = some fd → state.peers.length < maxPeers
  | .accepting _ => (∃ idx, state.stage = .registered idx) ∨ state.stage = .added → maxPeers ≤ state.peers.length

/-! ## Requests -/

/-- The request goes to the slot whose number the caller got back. -/
theorem requestChain_slot (peers : List Peer) (idx : Int) :
    ∀ request ∈ requestChain peers idx, (request.slot : Int) = idx := by
  intro request member
  unfold requestChain at member
  split_ifs at member with outside
  · exact absurd member List.not_mem_nil
  · split at member
    · split_ifs at member
      · obtain rfl := List.mem_singleton.mp member
        exact Int.toNat_of_nonneg (by omega)
      · exact absurd member List.not_mem_nil
    · exact absurd member List.not_mem_nil

/-- An active peer is asked. -/
theorem requestChain_active (peers : List Peer) (idx : Nat) (peer : Peer) (slot : peers[idx]? = some peer)
    (active : peer.active = true) : requestChain peers idx = [⟨idx, peer.fd⟩] := by
  have inside : idx < peers.length := (List.getElem?_eq_some_iff.mp slot).1
  rw [requestChain, if_neg (by omega)]
  simp [slot, active]

/-! ## What has happened so far -/

/-- All requests went to the connection. It is the half of truthfulness that
must hold on the way. -/
def Asked (state : Connecting) : Prop := ∀ request ∈ state.requests, state.slot = some request.slot

/-- The connection is an active peer, and was asked alone. It is what a truthful
return needs. -/
structure Own (state : Connecting) (idx : Nat) : Prop where
  slot : state.slot = some idx
  peer : ∃ fd, state.socket = some fd ∧ state.peers[idx]? = some ⟨fd, true⟩
  asked : Asked state

/-- So far all went well: the slot of the connection is the last one until
`peer_count` is read, so the second request goes to it as well. -/
inductive Kept (state : Connecting) : Prop where
  | dialled (stage : state.stage = .dialled) (slot : state.slot = none) (requests : state.requests = [])
  | failed (stage : state.stage = .returned (-1)) (asked : Asked state)
  | registered (idx : Nat) (stage : state.stage = .registered idx) (own : Own state idx)
      (last : state.peers.length = idx + 1)
  | added (idx : Nat) (stage : state.stage = .added) (own : Own state idx) (last : state.peers.length = idx + 1)
  | counted (idx : Nat) (stage : state.stage = .counted idx) (own : Own state idx)
  | returned (idx : Nat) (stage : state.stage = .returned 0) (own : Own state idx)

/-- Another connection has the last slot, which is the one that will be
asked. -/
structure Overtaken (state : Connecting) (idx : Nat) : Prop where
  slot : state.slot = some idx
  behind : idx + 1 < state.peers.length
  active : ∀ position peer, idx < position → state.peers[position]? = some peer → peer.active = true

/-- The table was full, or another connection came in between. From there on no
return can be truthful, which is the other direction of the equivalence. -/
inductive Broken (state : Connecting) : Prop where
  | unregistered (stage : state.stage = .added ∨ ∃ last, state.stage = .counted last) (asked : Asked state)
      (slot : state.slot = none)
  | overtaken (idx : Nat) (stage : state.stage = .registered idx ∨ state.stage = .added) (asked : Asked state)
      (overtaken : Overtaken state idx)
  | counted (idx position : Nat) (peer : Peer) (stage : state.stage = .counted position) (asked : Asked state)
      (slot : state.slot = some idx) (behind : idx < position) (held : state.peers[position]? = some peer)
      (active : peer.active = true)
  | returned (stage : state.stage = .returned 0)
      (wrong : state.slot = none ∨ ∃ request ∈ state.requests, state.slot ≠ some request.slot)

/-- Success is what remains to be justified. -/
theorem truthful_of_asked (state : Connecting) (asked : Asked state) (unfinished : state.stage ≠ .returned 0) :
    Truthful state :=
  ⟨fun finished => absurd finished unfinished, asked⟩

/-- The invariant gives the property: what `node_connect_peer` reports is what
happened. -/
theorem truthful_of_kept (state : Connecting) (kept : Kept state) : Truthful state := by
  cases kept with
  | dialled stage slot requests =>
    exact truthful_of_asked state (by simp [Asked, requests]) (by simp [stage])
  | failed stage asked => exact truthful_of_asked state asked (by simp [stage])
  | registered idx stage own last | added idx stage own last | counted idx stage own =>
    exact truthful_of_asked state own.asked (by simp [stage])
  | returned idx stage own =>
    obtain ⟨fd, socket, peer⟩ := own.peer
    exact ⟨fun _ => ⟨fd, idx, socket, own.slot, peer⟩, own.asked⟩

/-- What broke shows when success is reported. -/
theorem truthful_iff_of_broken (state : Connecting) (broken : Broken state) :
    Truthful state ↔ state.stage ≠ .returned 0 := by
  have unfinished (asked : Asked state) (stage : state.stage ≠ .returned 0) :
      Truthful state ↔ state.stage ≠ .returned 0 :=
    iff_of_true (truthful_of_asked state asked stage) stage
  cases broken with
  | unregistered stage asked slot =>
    rcases stage with stage | ⟨last, stage⟩ <;> exact unfinished asked (by simp [stage])
  | overtaken idx stage asked overtaken =>
    rcases stage with stage | stage <;> exact unfinished asked (by simp [stage])
  | counted idx position peer stage asked => exact unfinished asked (by simp [stage])
  | returned stage wrong =>
    refine iff_of_false (fun truthful => ?_) (by simp [stage])
    rcases wrong with unregistered | ⟨request, member, elsewhere⟩
    · obtain ⟨fd, slot, -, taken, -⟩ := truthful.1 stage
      simp [unregistered] at taken
    · exact elsewhere (truthful.2 request member)

/-! ## Connections accepted meanwhile -/

/-- What the table held stays in its place. -/
theorem accepted_getElem? (peers : List Peer) (fd position : Nat) (peer : Peer)
    (slot : peers[position]? = some peer) :
    ((registerPeer peers fd).getD peers)[position]? = some peer := by
  cases registered : registerPeer peers fd with
  | none => exact slot
  | some taken =>
    obtain ⟨-, rfl⟩ := registerPeer_some registered
    exact List.getElem?_append_left (List.getElem?_eq_some_iff.mp slot).1 ▸ slot

/-- A full table stays as it is. -/
theorem accepted_full (peers : List Peer) (fd : Nat) (full : maxPeers ≤ peers.length) :
    (registerPeer peers fd).getD peers = peers := by
  rw [(registerPeer_none peers fd).mpr full]
  rfl

/-- With room in the table, the accepting thread appends its own slot. -/
theorem accepted_free (peers : List Peer) (fd : Nat) (room : peers.length < maxPeers) :
    (registerPeer peers fd).getD peers = peers ++ [⟨fd, true⟩] := by
  rw [registerPeer, if_neg (by omega)]
  rfl

/-- An acceptance in between appends behind the caller's slot, which keeps its
number. -/
theorem own_accepted (state : Connecting) (fd idx : Nat) (own : Own state idx) :
    Own { state with peers := (registerPeer state.peers fd).getD state.peers } idx := by
  obtain ⟨socketFd, socket, peer⟩ := own.peer
  exact ⟨own.slot, ⟨socketFd, socket, accepted_getElem? _ fd idx _ peer⟩, own.asked⟩

/-- A new last slot is an active one. -/
theorem active_behind (peers : List Peer) (fd idx : Nat)
    (active : ∀ position peer, idx < position → peers[position]? = some peer → peer.active = true)
    (position : Nat) (peer : Peer) (behind : idx < position)
    (held : (peers ++ [⟨fd, true⟩])[position]? = some peer) : peer.active = true := by
  rcases lt_or_ge position peers.length with old | new
  · exact active position peer behind (List.getElem?_append_left old ▸ held)
  · rw [List.getElem?_append_right new, List.getElem?_singleton] at held
    split_ifs at held
    obtain rfl := Option.some.inj held
    rfl

/-- Another acceptance still stands behind the caller's slot, so nothing is
mended. -/
theorem overtaken_accepted (state : Connecting) (fd idx : Nat) (overtaken : Overtaken state idx) :
    Overtaken { state with peers := (registerPeer state.peers fd).getD state.peers } idx := by
  by_cases full : maxPeers ≤ state.peers.length
  · rw [accepted_full _ fd full]
    exact overtaken
  · rw [accepted_free _ fd (by omega)]
    exact ⟨overtaken.slot, by simpa using overtaken.behind.trans (Nat.lt_succ_self _),
      active_behind state.peers fd idx overtaken.active⟩

/-- The slot behind that of the connection is taken. -/
theorem own_overtaken (state : Connecting) (fd idx : Nat) (own : Own state idx)
    (last : state.peers.length = idx + 1) (room : state.peers.length < maxPeers) :
    Overtaken { state with peers := (registerPeer state.peers fd).getD state.peers } idx := by
  rw [accepted_free _ fd room]
  refine ⟨own.slot, by simp [last], active_behind state.peers fd idx fun position peer behind held => ?_⟩
  have inside := (List.getElem?_eq_some_iff.mp held).1
  omega

/-! ## Steps -/

/-- A request for the slot of the connection goes to it. -/
theorem asked_requested (state : Connecting) (idx : Nat) (slot : state.slot = some idx) (asked : Asked state)
    (stage : Stage) :
    Asked { state with requests := state.requests ++ requestChain state.peers idx, stage := stage } := by
  intro request member
  rcases List.mem_append.mp member with early | late
  · exact asked request early
  · have here := requestChain_slot state.peers idx request late
    rw [show request.slot = idx by omega]
    exact slot

/-- The request of a caller that owns its slot goes to its own peer, so
ownership is kept. -/
theorem own_requested (state : Connecting) (idx : Nat) (own : Own state idx) (stage : Stage) :
    Own { state with requests := state.requests ++ requestChain state.peers idx, stage := stage } idx :=
  ⟨own.slot, own.peer, asked_requested state idx own.slot own.asked stage⟩

/-- The step lemma: a turn that finds a free slot, and that does not come
between registration and the reading of the count, keeps the invariant. -/
theorem connectStep_keeps (state next : Connecting) (turn : Turn) (kept : Kept state)
    (undisturbed : Undisturbed state turn) (stepped : connectStep state turn = some next) : Kept next := by
  cases turn with
  | accepting fd =>
    obtain rfl := Option.some.inj stepped
    cases kept with
    | dialled stage slot requests => exact .dialled stage slot requests
    | failed stage asked => exact .failed stage asked
    | registered idx stage own last =>
      rw [accepted_full _ fd (undisturbed (Or.inl ⟨idx, stage⟩))]
      exact .registered idx stage own last
    | added idx stage own last =>
      rw [accepted_full _ fd (undisturbed (Or.inr stage))]
      exact .added idx stage own last
    | counted idx stage own => exact .counted idx stage (own_accepted state fd idx own)
    | returned idx stage own => exact .returned idx stage (own_accepted state fd idx own)
  | connecting =>
    cases kept with
    | dialled stage slot requests =>
      cases socket : state.socket with
      | none =>
        simp only [connectStep, stage, socket, Option.some.injEq] at stepped
        subst stepped
        exact .failed rfl (by simp [Asked, requests])
      | some fd =>
        have room := undisturbed stage fd socket
        simp only [connectStep, stage, socket, registerPeer, if_neg (Nat.not_le_of_lt room),
          Option.some.injEq] at stepped
        subst stepped
        exact .registered state.peers.length rfl ⟨rfl, ⟨fd, rfl, by simp⟩, by simp [Asked, requests]⟩ (by simp)
    | failed stage asked => simp [connectStep, stage] at stepped
    | registered idx stage own last =>
      simp only [connectStep, stage, Option.some.injEq] at stepped
      subst stepped
      exact .added idx rfl (own_requested state idx own .added) last
    | added idx stage own last =>
      simp only [connectStep, stage, Option.some.injEq] at stepped
      subst stepped
      exact .counted idx (by simp [last]) ⟨own.slot, own.peer, own.asked⟩
    | counted idx stage own =>
      simp only [connectStep, stage, Option.some.injEq] at stepped
      subst stepped
      exact .returned idx rfl (own_requested state idx own (.returned 0))
    | returned idx stage own => simp [connectStep, stage] at stepped

/-- With a full table, or with an acceptance in between, the request will go to
a slot other than the caller's, or success is reported without a slot. -/
theorem connectStep_breaks (state next : Connecting) (turn : Turn) (kept : Kept state)
    (disturbed : ¬ Undisturbed state turn) (stepped : connectStep state turn = some next) : Broken next := by
  cases turn with
  | accepting fd =>
    obtain ⟨between, room⟩ := Classical.not_imp.mp disturbed
    obtain rfl := Option.some.inj stepped
    cases kept with
    | registered idx stage own last =>
      exact .overtaken idx (Or.inl stage) own.asked (own_overtaken state fd idx own last (by omega))
    | added idx stage own last =>
      exact .overtaken idx (Or.inr stage) own.asked (own_overtaken state fd idx own last (by omega))
    | dialled stage | failed stage | counted idx stage | returned idx stage => simp [stage] at between
  | connecting =>
    simp only [Undisturbed, not_forall] at disturbed
    obtain ⟨stage, fd, socket, full⟩ := disturbed
    simp only [connectStep, stage, socket, registerPeer, if_pos (Nat.le_of_not_lt full), Option.some.injEq] at stepped
    subst stepped
    cases kept with
    | dialled _ slot requests => exact .unregistered (Or.inl rfl) (by simp [Asked, requests]) slot
    | failed other | registered _ other | added _ other | counted _ other | returned _ other =>
      simp [stage] at other

/-- The loss is final, as `node_connect_peer` reads the count once only.
Together with the two lemmas before, this decides every run. -/
theorem connectStep_stays (state next : Connecting) (turn : Turn) (broken : Broken state)
    (stepped : connectStep state turn = some next) : Broken next := by
  cases turn with
  | accepting fd =>
    obtain rfl := Option.some.inj stepped
    cases broken with
    | unregistered stage asked slot => exact .unregistered stage asked slot
    | overtaken idx stage asked overtaken =>
      exact .overtaken idx stage asked (overtaken_accepted state fd idx overtaken)
    | counted idx position peer stage asked slot behind held active =>
      exact .counted idx position peer stage asked slot behind (accepted_getElem? _ fd position peer held) active
    | returned stage wrong => exact .returned stage wrong
  | connecting =>
    cases broken with
    | unregistered stage asked slot =>
      rcases stage with stage | ⟨last, stage⟩
      · simp only [connectStep, stage, Option.some.injEq] at stepped
        subst stepped
        exact .unregistered (Or.inr ⟨_, rfl⟩) asked slot
      · simp only [connectStep, stage, Option.some.injEq] at stepped
        subst stepped
        exact .returned rfl (Or.inl slot)
    | overtaken idx stage asked overtaken =>
      rcases stage with stage | stage
      · simp only [connectStep, stage, Option.some.injEq] at stepped
        subst stepped
        exact .overtaken idx (Or.inr rfl) (asked_requested state idx overtaken.slot asked .added)
          ⟨overtaken.slot, overtaken.behind, overtaken.active⟩
      · simp only [connectStep, stage, Option.some.injEq] at stepped
        subst stepped
        have behind := overtaken.behind
        have held := List.getElem?_eq_getElem (show state.peers.length - 1 < state.peers.length by omega)
        exact .counted idx (state.peers.length - 1) _ (by simp only [Stage.counted.injEq]; omega) asked
          overtaken.slot (by omega) held (overtaken.active _ _ (by omega) held)
    | counted idx position peer stage asked slot behind held active =>
      simp only [connectStep, stage, Option.some.injEq] at stepped
      subst stepped
      have request := requestChain_active state.peers position peer held active
      refine .returned rfl (Or.inr ⟨⟨position, peer.fd⟩, by simp [request], ?_⟩)
      simp only [slot, ne_eq, Option.some.injEq]
      omega
    | returned stage wrong => simp [connectStep, stage] at stepped

/-! ## Runs -/

/-- Whatever connections are accepted meanwhile, a call that reports success is
truthful exactly if it was undisturbed, and until then and otherwise it is
truthful anyway. -/
theorem connect_truthful_iff (peers : List Peer) (socket : Option Nat) (turns : List Turn) (final : Connecting)
    (ran : run connectStep (Connecting.start peers socket) turns = some final) :
    (final.stage = .returned 0 →
        (Truthful final ↔ Every connectStep Undisturbed (Connecting.start peers socket) turns)) ∧
      (final.stage ≠ .returned 0 → Truthful final) := by
  rcases run_kept_or_broken connectStep Undisturbed Kept Broken
      (fun state turn next kept met => connectStep_keeps state next turn kept met)
      (fun state turn next kept unmet => connectStep_breaks state next turn kept unmet)
      (fun state turn next broken => connectStep_stays state next turn broken)
      (Connecting.start peers socket) final turns (.dialled rfl rfl rfl) ran with ⟨every, kept⟩ | ⟨notEvery, broken⟩
  · have truthful := truthful_of_kept final kept
    exact ⟨fun _ => iff_of_true truthful every, fun _ => truthful⟩
  · have exactly_ := truthful_iff_of_broken final broken
    exact ⟨fun finished => iff_of_false (fun truthful => exactly_.mp truthful finished) notEvery, exactly_.mpr⟩

/-- Two connections are accepted meanwhile, one before the slot is given and one
after `peer_count` is read. Neither comes in between, and the call tells the
truth. -/
theorem connect_truthful_iff_meanwhile :
    let turns : List Turn := [.accepting 5, .connecting, .connecting, .connecting, .accepting 6, .connecting]
    ∃ final, run connectStep (Connecting.start [⟨7, true⟩, ⟨8, false⟩] (some 3)) turns = some final ∧
      final.slot = some 3 ∧ final.peers.length = 5 ∧ Truthful final := by
  intro turns
  let final : Connecting := ⟨[⟨7, true⟩, ⟨8, false⟩, ⟨5, true⟩, ⟨3, true⟩, ⟨6, true⟩], some 3, .returned 0, some 3,
    [⟨3, 3⟩, ⟨3, 3⟩]⟩
  have ran : run connectStep (Connecting.start [⟨7, true⟩, ⟨8, false⟩] (some 3)) turns = some final := rfl
  have undisturbed : Every connectStep Undisturbed (Connecting.start [⟨7, true⟩, ⟨8, false⟩] (some 3)) turns := by
    simp [turns, Every, Undisturbed, connectStep, Connecting.start, registerPeer, requestChain, maxPeers]
  exact ⟨final, ran, rfl, rfl, ((connect_truthful_iff _ _ turns final ran).1 rfl).mpr undisturbed⟩

/-- A table whose slots are all active. -/
def fullTable : List Peer := (List.range 16).map fun fd => ⟨fd, true⟩

/-- A full table makes the call report success and ask the peer in the last
slot, because the result of `add_peer` is not looked at. A connection accepted
between the two requests gets the second one. -/
theorem connect_untruthful :
    (∃ final, run connectStep (Connecting.start fullTable (some 16)) (List.replicate 3 .connecting) = some final ∧
        final.stage = .returned 0 ∧ final.slot = none ∧ final.requests = [⟨15, 15⟩] ∧ ¬ Truthful final) ∧
      ∃ final, run connectStep (Connecting.start [] (some 3))
          [.connecting, .accepting 7, .connecting, .connecting, .connecting] = some final ∧
        final.stage = .returned 0 ∧ final.slot = some 0 ∧ final.requests = [⟨0, 3⟩, ⟨1, 7⟩] ∧ ¬ Truthful final := by
  refine ⟨⟨⟨fullTable, some 16, .returned 0, none, [⟨15, 15⟩]⟩, rfl, rfl, rfl, rfl, fun truthful => ?_⟩,
    ⟨⟨[⟨3, true⟩, ⟨7, true⟩], some 3, .returned 0, some 0, [⟨0, 3⟩, ⟨1, 7⟩]⟩, rfl, rfl, rfl, rfl, fun truthful => ?_⟩⟩
  · have asked := truthful.2 ⟨15, 15⟩ (List.mem_singleton.mpr rfl)
    simp at asked
  · have asked := truthful.2 ⟨1, 7⟩ (by simp)
    simp at asked

/-! ## Nodes -/

/-- The request modelled here is the one that the node of the network sends. -/
theorem requestChain_packets (node : Node ssl) (idx : Nat) :
    (requestChain node.peers idx).map (fun request => (⟨request.fd, .requestChain⟩ : Packet)) =
      nodeRequestChain node idx := by
  unfold requestChain nodeRequestChain
  rw [Int.toNat_natCast]
  cases slot : node.peers[idx]? with
  | none => simp
  | some peer =>
    have inside : idx < node.peers.length := (List.getElem?_eq_some_iff.mp slot).1
    rw [if_neg (by omega)]
    by_cases active : peer.active = true <;> simp [active]

/-- It consists of chain requests only. -/
theorem nodeRequestChain_requests (node : Node ssl) (idx : Nat) :
    (nodeRequestChain node idx).filter (·.message = .requestChain) = nodeRequestChain node idx := by
  refine List.filter_eq_self.mpr fun packet member => ?_
  rw [← requestChain_packets] at member
  obtain ⟨request, -, rfl⟩ := List.mem_map.mp member
  simp

/-- If the thread runs alone, the call does what a node does when it
connects. -/
theorem connect_alone (node : Node ssl) (fd : Nat) :
    ∃ turns final, (∀ turn ∈ turns, turn = .connecting) ∧
      run connectStep (Connecting.start node.peers (some fd)) turns = some final ∧ final.stage = .returned 0 ∧
      final.peers = (nodeConnectPeer node fd).1.peers ∧
      final.requests.map (fun request => (⟨request.fd, .requestChain⟩ : Packet)) =
        (nodeConnectPeer node fd).2.filter (·.message = .requestChain) := by
  have silent (node : Node ssl) : (onPeerConnected node fd).filter (·.message = .requestChain) = [] := by
    simp [onPeerConnected, List.filter_eq_nil_iff]
  by_cases full : maxPeers ≤ node.peers.length
  · have last : node.peers.length ≠ 0 := by
      have slots : maxPeers = 16 := rfl
      omega
    refine ⟨List.replicate 3 .connecting, ⟨node.peers, some fd, .returned 0, none,
      requestChain node.peers ((node.peers.length : Int) - 1)⟩, fun turn member => List.eq_of_mem_replicate member,
      by simp [run, connectStep, Connecting.start, registerPeer, full], rfl, ?_, ?_⟩
    · simp [nodeConnectPeer, addPeer, full, last]
    · rw [show (node.peers.length : Int) - 1 = ((node.peers.length - 1 : Nat) : Int) by omega,
        requestChain_packets]
      simp [nodeConnectPeer, addPeer, full, last, nodeRequestChain_requests]
  · have packets := requestChain_packets { node with peers := node.peers ++ [⟨fd, true⟩] } node.peers.length
    refine ⟨List.replicate 4 .connecting, ⟨node.peers ++ [⟨fd, true⟩], some fd, .returned 0, some node.peers.length,
      requestChain (node.peers ++ [⟨fd, true⟩]) node.peers.length ++
        requestChain (node.peers ++ [⟨fd, true⟩]) node.peers.length⟩,
      fun turn member => List.eq_of_mem_replicate member,
      by simp [run, connectStep, Connecting.start, registerPeer, full], rfl, ?_, ?_⟩
    · simp [nodeConnectPeer, addPeer, full]
    · simp [nodeConnectPeer, addPeer, full, packets, nodeRequestChain_requests, silent]

end MiniCoin
