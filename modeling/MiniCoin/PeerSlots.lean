import MiniCoin.ChainSafety

/-!
# Slots of the peer table

`add_peer` takes the slot behind the ones in use and refuses a connection when all slots were
taken. `peer_handler` marks its slot as inactive when the stream ends, and no function takes such a
slot again or lowers `peer_count`. A node therefore accepts `MAX_PEERS` connections in its life:
what is full is the history of connections, not the set of those that are active.
-/

namespace MiniCoin

open Runs

variable {ssl : OpenSSL}

/-- The locked part of `add_peer`: the table with the new peer, or `none` for
-1. -/
def registerPeer (peers : List Peer) (fd : Nat) : Option (List Peer) :=
  if maxPeers ≤ peers.length then none else some (peers ++ [⟨fd, true⟩])

/-- `peer->active = 0` in `peer_handler` for the slot that it reads from.
`peer_count` is not touched. -/
def endPeer (peers : List Peer) (idx : Nat) : List Peer :=
  peers.modify idx fun peer => { peer with active := false }

/-- How many peers are active. The documents speak of this number, and the code
of `peer_count`. -/
def activeCount (peers : List Peer) : Nat := peers.countP (·.active)

/-- A successful connection, or the end of the stream of a slot. A refused
connection leaves the table as it is and is no event. -/
inductive SlotEvent where
  | connected (fd : Nat)
  | disconnected (idx : Nat)
  deriving DecidableEq

/-- Which of the two events it is, for counting. -/
def SlotEvent.isConnection : SlotEvent → Bool
  | connected _ => true
  | disconnected _ => false

/-- The table after an event, if it can happen: a connection that is not
refused, or the end of a stream that a thread still reads. -/
def slotStep (peers : List Peer) : SlotEvent → Option (List Peer)
  | .connected fd => registerPeer peers fd
  | .disconnected idx =>
    match peers[idx]? with
    | some peer => if peer.active then some (endPeer peers idx) else none
    | none => none

/-- How many connections a history holds. -/
def connections (events : List SlotEvent) : Nat := events.countP (·.isConnection)
/-- How many disconnections a history holds. -/
def disconnections (events : List SlotEvent) : Nat := events.countP (!·.isConnection)

/-! ## What an event does -/

/-- A connection that is accepted found room and stands at the end of the
table. -/
theorem registerPeer_some {peers taken : List Peer} {fd : Nat} (registered : registerPeer peers fd = some taken) :
    peers.length < maxPeers ∧ taken = peers ++ [⟨fd, true⟩] := by
  unfold registerPeer at registered
  split_ifs at registered with full
  exact ⟨by omega, (Option.some.inj registered).symm⟩

/-- A connection is refused exactly when sixteen slots were ever taken, active
or not. -/
theorem registerPeer_none (peers : List Peer) (fd : Nat) :
    registerPeer peers fd = none ↔ maxPeers ≤ peers.length := by
  unfold registerPeer
  split_ifs with full <;> simp [full]

/-- A disconnection clears a flag and frees no slot, so the table stays as long
as it was. -/
theorem endPeer_length (peers : List Peer) (idx : Nat) : (endPeer peers idx).length = peers.length :=
  List.length_modify ..

/-- One peer less is active. -/
theorem activeCount_endPeer (peers : List Peer) (idx : Nat) (peer : Peer) (slot : peers[idx]? = some peer)
    (active : peer.active = true) : activeCount (endPeer peers idx) + 1 = activeCount peers := by
  induction peers generalizing idx with
  | nil => simp at slot
  | cons first rest ih =>
    cases idx with
    | zero =>
      obtain rfl : first = peer := by simpa using slot
      simp [endPeer, activeCount, active]
    | succ idx =>
      have later := ih idx (by simpa using slot)
      simp only [endPeer, activeCount, List.modify_succ_cons, List.countP_cons] at later ⊢
      omega

/-- A slot is taken and counted once, and an active peer is lost once. -/
theorem slotStep_counts (peers next : List Peer) (event : SlotEvent) (stepped : slotStep peers event = some next) :
    next.length = peers.length + connections [event] ∧ next.length ≤ max maxPeers peers.length ∧
      activeCount next + disconnections [event] = activeCount peers + connections [event] := by
  cases event with
  | connected fd =>
    obtain ⟨room, rfl⟩ := registerPeer_some stepped
    refine ⟨by simp [connections, SlotEvent.isConnection], ?_, ?_⟩
    · simp only [List.length_append, List.length_singleton]
      omega
    · simp [activeCount, connections, disconnections, SlotEvent.isConnection]
  | disconnected idx =>
    simp only [slotStep] at stepped
    cases slot : peers[idx]? with
    | none => simp [slot] at stepped
    | some peer =>
      simp only [slot] at stepped
      split_ifs at stepped with active
      obtain rfl := Option.some.inj stepped
      have lost := activeCount_endPeer peers idx peer slot active
      rw [endPeer_length]
      refine ⟨by simp [connections, SlotEvent.isConnection], le_max_right _ _, ?_⟩
      simpa [connections, disconnections, SlotEvent.isConnection] using lost

/-! ## Histories -/

/-- The length of the table is the number of connections that were ever made. -/
theorem slots_counts (peers final : List Peer) (events : List SlotEvent)
    (ran : run slotStep peers events = some final) :
    final.length = peers.length + connections events ∧ final.length ≤ max maxPeers peers.length ∧
      activeCount final + disconnections events = activeCount peers + connections events := by
  induction events generalizing peers with
  | nil =>
    obtain rfl := Option.some.inj ran
    exact ⟨rfl, le_max_right _ _, rfl⟩
  | cons event rest ih =>
    obtain ⟨next, stepped, later⟩ := (run_cons slotStep peers final event rest).mp ran
    obtain ⟨length, bound, active⟩ := slotStep_counts peers next event stepped
    obtain ⟨lengthLater, boundLater, activeLater⟩ := ih next later
    have connected : connections (event :: rest) = connections [event] + connections rest := by
      simp [connections, List.countP_cons, Nat.add_comm]
    have disconnected : disconnections (event :: rest) = disconnections [event] + disconnections rest := by
      simp [disconnections, List.countP_cons, Nat.add_comm]
    rw [connected, disconnected]
    exact ⟨by omega, by omega, by omega⟩

/-- After a history, a connection is refused only if all slots are active
exactly if fewer connections than there are slots were made or none of them has
ended. -/
theorem refuses_only_when_active_iff (events : List SlotEvent) (peers : List Peer) (fd : Nat)
    (ran : run slotStep [] events = some peers) :
    (registerPeer peers fd = none → activeCount peers = maxPeers) ↔
      connections events < maxPeers ∨ disconnections events = 0 := by
  obtain ⟨length, bound, active⟩ := slots_counts [] peers events ran
  simp only [List.length_nil, Nat.zero_add, activeCount, List.countP_nil] at length bound active
  rw [registerPeer_none, activeCount]
  have slots : maxPeers = 16 := rfl
  constructor
  · intro onlyActive
    by_cases full : maxPeers ≤ peers.length
    · have all := onlyActive full
      exact Or.inr (by omega)
    · exact Or.inl (by omega)
  · rintro (few | none) full <;> omega

/-- Sixteen connections that have all ended. -/
def pastConnections : List SlotEvent :=
  (List.range 16).map SlotEvent.connected ++ (List.range 16).map SlotEvent.disconnected

/-- No peer is active, and the next one is refused, after sixteen connections
that have all ended. `peer_count` never falls. -/
theorem refuses_without_peers : ∃ peers, run slotStep [] pastConnections = some peers ∧
    registerPeer peers 16 = none ∧ activeCount peers = 0 ∧ activeCount peers ≠ maxPeers := by
  refine ⟨(List.range 16).map fun fd => ⟨fd, false⟩, ?_⟩
  decide +kernel

/-- Sixteen connections that have all ended: the seventeenth is refused though
none is active. -/
theorem refuses_only_when_active_here :
    (registerPeer ((List.range 16).map fun fd => ⟨fd, false⟩) 16 = none →
        activeCount ((List.range 16).map fun fd => ⟨fd, false⟩) = maxPeers) ↔
      connections pastConnections < maxPeers ∨ disconnections pastConnections = 0 :=
  refuses_only_when_active_iff pastConnections _ 16 (by decide +kernel)

/-! ## The tables of nodes -/

theorem addPeer_peers (node : Node ssl) (fd : Nat) :
    (addPeer node fd).1.peers = (registerPeer node.peers fd).getD node.peers := by
  unfold addPeer registerPeer
  split <;> rfl

theorem nodeConnectPeer_peers (node : Node ssl) (fd : Nat) :
    (nodeConnectPeer node fd).1.peers = (addPeer node fd).1.peers := by
  unfold nodeConnectPeer
  generalize addPeer node fd = added
  obtain ⟨grown, packets⟩ := added
  dsimp only
  split <;> rfl

/-- Registration is an event or is refused. -/
theorem register_events (peers : List Peer) (fd : Nat) :
    ∃ events, run slotStep peers events = some ((registerPeer peers fd).getD peers) := by
  cases registered : registerPeer peers fd with
  | none => exact ⟨[], rfl⟩
  | some taken => exact ⟨[.connected fd], by simp [run, slotStep, registered]⟩

/-- The end of a connection ends the active slots with its descriptor. -/
theorem closed_events (peers : List Peer) (fd : Nat) :
    ∃ events, run slotStep peers events = some
      (peers.map fun peer => if peer.fd = fd then { peer with active := false } else peer) := by
  induction count : activeCount peers using Nat.strong_induction_on generalizing peers with
  | _ count ih =>
  by_cases open_ : ∃ (idx : Nat) (peer : Peer), peers[idx]? = some peer ∧ peer.fd = fd ∧ peer.active = true
  · obtain ⟨idx, peer, slot, same, active⟩ := open_
    have fewer := activeCount_endPeer peers idx peer slot active
    obtain ⟨events, ran⟩ := ih (activeCount (endPeer peers idx)) (by omega) (endPeer peers idx) rfl
    refine ⟨.disconnected idx :: events, ?_⟩
    rw [run_cons]
    refine ⟨endPeer peers idx, by simp [slotStep, slot, active], ran.trans ?_⟩
    congr 1
    apply List.ext_getElem?
    intro position
    simp only [endPeer, List.getElem?_map, List.getElem?_modify]
    by_cases here : idx = position
    · subst here
      simp [slot, same]
    · simp [here]
  · refine ⟨[], ?_⟩
    rw [run_nil, Option.some.injEq]
    conv_lhs => rw [← List.map_id peers]
    refine List.map_congr_left fun peer member => ?_
    split
    · next same =>
      obtain ⟨idx, inside, rfl⟩ := List.mem_iff_getElem.mp member
      have inactive : peers[idx].active = false := by
        by_contra active
        exact open_ ⟨idx, _, List.getElem?_eq_getElem inside, same, Bool.eq_true_of_not_eq_false active⟩
      rw [← inactive]
      rfl
    · rfl

/-- What happens to a node happens to its table as a sequence of such events. -/
theorem nodeNext_slots (node next : Node ssl) (event : Event) (stepped : nodeNext node event = some next) :
    ∃ events, run slotStep node.peers events = some next.peers := by
  obtain ⟨⟨after, packets⟩, result, rfl⟩ := Option.map_eq_some_iff.mp stepped
  cases event with
  | action action =>
    cases act_acts node after action packets result with
    | sent idle made => exact ⟨[], by rw [onNewTx_peers]; rfl⟩
    | refused | tip | selected | added | abandoned | announced => exact ⟨[], rfl⟩
  | receive fd line =>
    simp only [nodeStep, handleMessage_eq, Option.some.injEq] at result
    cases read : decode line with
    | none =>
      obtain rfl : node = after := by simpa [read] using congrArg Prod.fst result
      exact ⟨[], rfl⟩
    | some message =>
      simp only [read] at result
      have reacts : Reacts node fd message after packets := by
        have general := react_reacts node fd message
        rwa [result] at general
      cases reacts with
      | tx tx => exact ⟨[], by rw [onNewTx_peers]; rfl⟩
      | nothing | block | request | chain | ping => exact ⟨[], rfl⟩
  | accept fd =>
    obtain rfl : (addPeer node fd).1 = after := congrArg Prod.fst (Option.some.inj result)
    rw [addPeer_peers]
    exact register_events node.peers fd
  | connect fd =>
    obtain rfl : (nodeConnectPeer node fd).1 = after := congrArg Prod.fst (Option.some.inj result)
    rw [nodeConnectPeer_peers, addPeer_peers]
    exact register_events node.peers fd
  | closed fd =>
    obtain rfl : peerClosed node fd = after := congrArg Prod.fst (Option.some.inj result)
    exact closed_events node.peers fd

/-- The table of a node is the result of a history of connections. -/
theorem nodeRun_slots (node final : Node ssl) (events : List Event)
    (ran : run nodeNext node events = some final) :
    ∃ slotEvents, run slotStep node.peers slotEvents = some final.peers := by
  refine run_invariant nodeNext (fun _ _ => True)
    (fun state => ∃ slotEvents, run slotStep node.peers slotEvents = some state.peers) ?_ node final events
    ⟨[], rfl⟩ (every_of_forall nodeNext _ (fun _ _ => trivial) node events) ran
  rintro state event next ⟨early, reached⟩ - stepped
  obtain ⟨late, further⟩ := nodeNext_slots state next event stepped
  exact ⟨early ++ late, (run_append slotStep _ _ early late).mpr ⟨state.peers, reached, further⟩⟩

/-- A node that refuses a connection refuses all later ones, whoever
disconnects. -/
theorem refuses_forever (node final : Node ssl) (events : List Event) (fd later : Nat)
    (refused : registerPeer node.peers fd = none) (ran : run nodeNext node events = some final) :
    (addPeer final later).1 = final := by
  obtain ⟨slotEvents, reached⟩ := nodeRun_slots node final events ran
  have length := (slots_counts node.peers final.peers slotEvents reached).1
  have full := (registerPeer_none node.peers fd).mp refused
  rw [addPeer, if_pos (by omega)]

end MiniCoin
