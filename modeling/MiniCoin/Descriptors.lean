import MiniCoin.Threads

/-!
# What the threads do with descriptors

The threads keep the rules of the custody of descriptors: the connection that `accept` or `connect`
gave is in flight until `add_peer` has registered or closed it, the reader of a slot is its
`peer_handler`, and the stopper is `node_stop`, which shuts the listening socket down before it
looks at the slots. So no thread closes or reads what belongs to another connection, although
`active` is written without the lock, nothing is closed twice, and no connection is forgotten.
-/

namespace MiniCoin

open Runs DescriptorTables Relation

namespace Threads

/-! ## What the places of the threads mean -/

/-- The link that the thread sends a request to. -/
def Asking.targets : Asking → List Link
  | testing _ => []
  | sending link _ => [link]

/-- The link whose turn it is in a broadcast. -/
def Casting.targets : Casting → List Link
  | locking .. | looking .. => []
  | sending _ link .. => [link]

/-- The links that `add_peer` sends to or will: the one it has registered, and
the one that `node_request_chain` has read from its slot. -/
def Adding.targets : Adding → List Link
  | registering _ | refused _ => []
  | creating _ link | calling link | telling link _ => [link]
  | asking link call => link :: call.targets

/-- What the thread has obtained, and has to register or to close. -/
def Adding.flights : Adding → List Link
  | registering link | refused link => [link]
  | creating .. | asking .. | calling _ | telling .. => []

/-- The slot that the thread has to create the handler of. -/
def Adding.creators : Adding → List Nat
  | creating idx _ => [idx]
  | registering _ | refused _ | asking .. | calling _ | telling .. => []

/-- What the custody sees of a handler. Everything between its creation and its
`close` counts as busy. -/
def Handler.phase : Handler → Custody.Phase
  | unborn => .unborn
  | testing | reading _ | handling | answering _ | casting _ | failed => .busy
  | closing => .closing
  | ended => .ended

/-- The link that a handler forwards a line to. Its own answers go to its own
link, which it owns. -/
def Handler.targets : Handler → List Link
  | casting call => call.targets
  | unborn | testing | reading _ | handling | answering _ | failed | closing | ended => []

namespace Accept

/-- A connection that has been accepted and not yet registered. -/
def flights : Accept → List Link
  | adding call => call.flights
  | testing | waiting | ended => []

/-- The slot that `accept_thread` has to create the handler of. -/
def creators : Accept → List Nat
  | adding call => call.creators
  | testing | waiting | ended => []

/-- The links that `accept_thread` sends to, through `add_peer`. -/
def targets : Accept → List Link
  | adding call => call.targets
  | testing | waiting | ended => []

end Accept

/-- How far the shutdown is. From the `close` of the listening socket on,
nothing changes for the custody but the aim. -/
def Stop.stage : Stop → Custody.Stage
  | halting => .serving
  | shutting => .halted
  | closing => .shut
  | locking | looking _ | clearing _ | closingPeer _ | destroying | stopped => .closed

/-- The slot that `node_stop` has found active, and whether it has cleared the
flag already. -/
def Stop.aim : Stop → Option (Nat × Bool)
  | clearing idx => some (idx, false)
  | closingPeer idx => some (idx, true)
  | halting | shutting | closing | locking | looking _ | destroying | stopped => none

namespace Main

/-- A connection that `node_connect_peer` has opened and not yet registered. -/
def flights : Main → List Link
  | connecting link | failed link => [link]
  | adding call => call.flights
  | menu | counting | asking _ | casting _ | listing _ | stopping _ => []

/-- The slot that the main thread has to create the handler of. -/
def creators : Main → List Nat
  | adding call => call.creators
  | menu | connecting _ | failed _ | counting | asking _ | casting _ | listing _ | stopping _ => []

/-- The links that the main thread sends to: in a synchronisation, in a
broadcast, or through `add_peer`. -/
def targets : Main → List Link
  | adding call => call.targets
  | asking call => call.targets
  | casting call => call.targets
  | menu | connecting _ | failed _ | counting | listing _ | stopping _ => []

/-- How far the shutdown is, and that it has not begun before `node_stop`. -/
def stage : Main → Custody.Stage
  | stopping stop => stop.stage
  | menu | connecting _ | failed _ | adding _ | counting | asking _ | casting _ | listing _ => .serving

/-- Only the stopper aims at a slot. -/
def aim : Main → Option (Nat × Bool)
  | stopping stop => stop.aim
  | menu | connecting _ | failed _ | adding _ | counting | asking _ | casting _ | listing _ => none

end Main

/-- A slot as the custody sees it: the link and the flag `active`. -/
def Slot.custody (slot : Slot) : Custody.Slot := ⟨slot.link, slot.peer.active⟩

namespace State

/-- Who has to close what, read off the places of the threads. The threads are
shown to follow the rules of custody through this view. -/
def custody (state : State) : Custody.State where
  table := state.table
  capacity := maxPeers
  slots := state.slots.map Slot.custody
  server := state.server
  stage := state.main.stage
  flights := state.main.flights ++ state.accept.flights
  creators := state.main.creators ++ state.accept.creators
  phase := fun idx => (state.handlers idx).phase
  aim := state.main.aim
  deeds := state.deeds

/-- A thread is sending to the link, or will. Such a thread has read the link
from a slot earlier and does not look again. -/
def Targets (state : State) (link : Link) : Prop :=
  link ∈ state.main.targets ∨ link ∈ state.accept.targets ∨ ∃ idx, link ∈ (state.handlers idx).targets

/-- Some slot holds the link. Slots are never removed, so a link stays
registered. -/
def Registered (state : State) (link : Link) : Prop := ∃ slot ∈ state.slots, slot.link = link

end State

/-- The flags say how far `node_stop` is, and what is sent goes to the links of
slots. -/
structure Controlled (state : State) : Prop where
  running : state.running = decide (state.main.stage = .serving)
  listening : state.listening = !state.main.stage.isShut
  targets : ∀ link, state.Targets link → state.Registered link

variable {state after next : State} {link : Link} {idx : Nat}

/-! ## Custody of what a step does -/

/-- A system call is logged in the same way on both sides. The mark that the
program is stopping agrees with the stage because of the flags. -/
theorem custody_does (controlled : Controlled state) (kind : Custody.Kind) (link : Link) :
    (state.does kind link).custody = state.custody.does kind link := by
  have same : (!state.running) = decide (state.main.stage ≠ .serving) := by
    rw [controlled.running, decide_not]
  calc (state.does kind link).custody
      = { state.custody with
          deeds := state.deeds ++ [⟨kind, link, state.table.entry link.fd, !state.running⟩] } := rfl
    _ = state.custody.does kind link := by
      rw [same]
      rfl

/-- A `close` is logged and frees the descriptor on both sides. -/
theorem custody_closes (controlled : Controlled state) (link : Link) :
    (state.closes link).custody = state.custody.closes link :=
  calc (state.closes link).custody
      = { (state.does .close link).custody with table := state.table.closes link.fd } := rfl
    _ = state.custody.closes link := by
      rw [custody_does controlled]
      rfl

/-- A change of one handler is a change of its phase. -/
theorem custody_withHandler (state : State) (idx : Nat) (handler : Handler) :
    (state.withHandler idx handler).custody =
      { state.custody with phase := Function.update state.custody.phase idx handler.phase } := by
  have same : (fun one => (Function.update state.handlers idx handler one).phase) =
      Function.update state.custody.phase idx handler.phase := by
    funext one
    simp only [Function.update_apply, State.custody]
    split_ifs <;> rfl
  simp only [State.custody, State.withHandler, same]

/-- A cleared flag is a mark on the slot. -/
theorem custody_clears (state : State) (idx : Nat) :
    (state.clears idx).custody =
      { state.custody with slots := state.custody.slots.modify idx Custody.Slot.mark } := by
  have same : (state.clears idx).slots.map Slot.custody =
      (state.slots.map Slot.custody).modify idx Custody.Slot.mark := by
    refine List.ext_getElem? fun one => ?_
    simp only [State.clears, List.getElem?_map, List.getElem?_modify]
    cases state.slots[one]? with
    | none => rfl
    | some slot =>
      by_cases here : idx = one
      · simp [here, Slot.custody, Custody.Slot.mark, Slot.link]
      · simp [here]
  simp only [State.custody, same]
  rfl

/-! ## Calls -/

/-- A call of `send`, or a change of the lock. It opens and closes nothing, so
for the custody it is at most a write. -/
inductive Quiet (state : State) (targets : List Link) : State → Prop
  | locks (lock : Lock) : Quiet state targets { state with lock := lock }
  | writes (link : Link) (target : link ∈ targets) : Quiet state targets (state.does .write link)

/-- A call of `send` is quiet if it goes to one of the targets. -/
theorem sends_quiet {targets : List Link} {left count rest : Nat} (target : link ∈ targets)
    (sent : state.sends link left count = some (after, rest)) : Quiet state targets after := by
  unfold State.sends at sent
  split at sent
  · obtain ⟨rfl, -⟩ := Prod.mk.inj (Option.some.inj sent)
    exact .writes link target
  · cases sent

/-- A request changes nothing but the log, and it turns to links of slots
only. -/
theorem askStep_quiet {call : Asking} {outcome : Outcome} {later : Option Asking}
    (stepped : askStep state call outcome = some (after, later)) :
    Quiet state call.targets after ∧
      ∀ link ∈ later.elim [] Asking.targets, link ∈ call.targets ∨ state.Registered link := by
  unfold askStep at stepped
  split at stepped
  case h_1 idx =>
    split at stepped
    · obtain ⟨rfl, rfl⟩ := Prod.mk.inj (Option.some.inj stepped)
      exact ⟨.locks state.lock, fun link member => by cases member⟩
    · rename_i slot there
      obtain ⟨rfl, rfl⟩ := Prod.mk.inj (Option.some.inj stepped)
      refine ⟨.locks state.lock, fun link member => ?_⟩
      split_ifs at member
      · obtain rfl := List.mem_singleton.mp member
        exact Or.inr ⟨slot, List.mem_of_getElem? there, rfl⟩
      · cases member
  case h_2 link left count =>
    obtain ⟨⟨middle, rest⟩, sent, same⟩ := Option.map_eq_some_iff.mp stepped
    obtain ⟨rfl, rfl⟩ := Prod.mk.inj same
    refine ⟨sends_quiet List.mem_cons_self sent, fun other member => Or.inl ?_⟩
    split_ifs at member
    · cases member
    · exact member
  case h_3 => cases stepped

/-- Neither does a broadcast, apart from the lock. -/
theorem castStep_quiet {call : Casting} {outcome : Outcome} {later : Option Casting}
    (stepped : castStep state call outcome = some (after, later)) :
    Quiet state call.targets after ∧
      ∀ link ∈ later.elim [] Casting.targets, link ∈ call.targets ∨ state.Registered link := by
  unfold castStep at stepped
  split at stepped
  case h_1 exclude length =>
    split_ifs at stepped
    obtain ⟨rfl, rfl⟩ := Prod.mk.inj (Option.some.inj stepped)
    exact ⟨.locks .held, fun link member => by cases member⟩
  case h_2 idx exclude length =>
    split at stepped
    · obtain ⟨rfl, rfl⟩ := Prod.mk.inj (Option.some.inj stepped)
      exact ⟨.locks .free, fun link member => by cases member⟩
    · rename_i slot there
      obtain ⟨rfl, rfl⟩ := Prod.mk.inj (Option.some.inj stepped)
      refine ⟨.locks state.lock, fun link member => ?_⟩
      rw [Option.elim_some] at member
      split_ifs at member
      · obtain rfl := List.mem_singleton.mp member
        exact Or.inr ⟨slot, List.mem_of_getElem? there, rfl⟩
      · cases member
  case h_3 idx link left exclude length count =>
    obtain ⟨⟨middle, rest⟩, sent, same⟩ := Option.map_eq_some_iff.mp stepped
    obtain ⟨rfl, rfl⟩ := Prod.mk.inj same
    refine ⟨sends_quiet List.mem_cons_self sent, fun other member => Or.inl ?_⟩
    rw [Option.elim_some] at member
    split_ifs at member
    · cases member
    · exact member
  case h_4 => cases stepped

/-- What `add_peer` does in a step: something quiet, the registration, the
`close` of a connection that found the table full, or the creation of a
handler. -/
inductive Added (state : State) (call : Adding) : State → Option Adding → Prop
  | quiet (after : State) (later : Option Adding) (quiet : Quiet state call.targets after)
      (flights : later.elim [] Adding.flights = call.flights)
      (creators : later.elim [] Adding.creators = call.creators)
      (targets : ∀ link ∈ later.elim [] Adding.targets, link ∈ call.targets ∨ state.Registered link) :
      Added state call after later
  | registers (link : Link) (place : call = .registering link) (room : state.slots.length < maxPeers) :
      Added state call { state with slots := state.slots ++ [⟨⟨link.fd, true⟩, link.thing⟩] }
        (some (.creating state.slots.length link))
  | drops (link : Link) (place : call = .refused link) : Added state call (state.closes link) none
  | creates (idx : Nat) (link : Link) (place : call = .creating idx link) :
      Added state call (state.withHandler idx .testing) (some (.asking link (.testing idx)))

/-- A step of `add_peer` is one of these four. The requests inside it are
quiet. -/
theorem addStep_added {call : Adding} {outcome : Outcome} {later : Option Adding}
    (stepped : addStep state call outcome = some (after, later)) : Added state call after later := by
  unfold addStep at stepped
  split at stepped
  case h_1 link =>
    split_ifs at stepped with free full
    · obtain ⟨rfl, rfl⟩ := Prod.mk.inj (Option.some.inj stepped)
      exact .quiet _ _ (.locks state.lock) rfl rfl fun link member => by cases member
    · obtain ⟨rfl, rfl⟩ := Prod.mk.inj (Option.some.inj stepped)
      exact .registers link rfl (Nat.lt_of_not_le full)
  case h_2 link =>
    obtain ⟨rfl, rfl⟩ := Prod.mk.inj (Option.some.inj stepped)
    exact .drops link rfl
  case h_3 idx link =>
    obtain ⟨rfl, rfl⟩ := Prod.mk.inj (Option.some.inj stepped)
    exact .creates idx link rfl
  case h_4 outcome link call =>
    obtain ⟨⟨middle, next⟩, asked, same⟩ := Option.map_eq_some_iff.mp stepped
    obtain ⟨rfl, rfl⟩ := Prod.mk.inj same
    obtain ⟨quiet, targets⟩ := askStep_quiet asked
    have more : Quiet state (link :: call.targets) middle := by
      cases quiet with
      | locks lock => exact .locks lock
      | writes other target => exact .writes other (List.mem_cons_of_mem _ target)
    cases next with
    | none =>
      refine .quiet _ _ more rfl rfl fun other member => Or.inl ?_
      rw [List.mem_singleton.mp member]
      exact List.mem_cons_self
    | some next =>
      refine .quiet _ _ more rfl rfl fun other member => ?_
      rcases List.mem_cons.mp member with rfl | member
      · exact Or.inl List.mem_cons_self
      · exact (targets other member).imp (List.mem_cons_of_mem _) id
  case h_5 link lengths =>
    obtain ⟨rfl, rfl⟩ := Prod.mk.inj (Option.some.inj stepped)
    exact .quiet _ _ (.locks state.lock) rfl rfl fun link member => Or.inl member
  case h_6 link =>
    obtain ⟨rfl, rfl⟩ := Prod.mk.inj (Option.some.inj stepped)
    exact .quiet _ _ (.locks state.lock) rfl rfl fun link member => by cases member
  case h_7 link left rest count =>
    obtain ⟨⟨middle, more⟩, sent, same⟩ := Option.map_eq_some_iff.mp stepped
    obtain ⟨rfl, rfl⟩ := Prod.mk.inj same
    exact .quiet _ _ (sends_quiet List.mem_cons_self sent) rfl rfl fun link member => Or.inl member
  case h_8 => cases stepped

/-! ## Custody of calls -/

/-- For the custody a quiet step is at most a write to a link that has a
slot. -/
theorem quiet_custody {targets : List Link} (controlled : Controlled state)
    (known : ∀ link ∈ targets, state.Registered link) (quiet : Quiet state targets after) :
    ReflTransGen Custody.Step state.custody after.custody := by
  cases quiet with
  | locks lock => exact .refl
  | writes link target =>
    obtain ⟨slot, member, rfl⟩ := known link target
    rw [custody_does controlled]
    exact .single (.writes slot.custody (List.mem_map_of_mem member))

/-- The thread in `add_peer` is one of two, and has what stands between what the
other one has. -/
theorem added_custody {call : Adding} {later : Option Adding} (controlled : Controlled state)
    (known : ∀ link ∈ call.targets, state.Registered link) (added : Added state call after later)
    (before behind : List Link) (early late : List Nat)
    (flights : state.custody.flights = before ++ call.flights ++ behind)
    (creators : state.custody.creators = early ++ call.creators ++ late) :
    ReflTransGen Custody.Step state.custody { after.custody with
      flights := before ++ later.elim [] Adding.flights ++ behind
      creators := early ++ later.elim [] Adding.creators ++ late } := by
  cases added with
  | quiet after later quiet same alike targets =>
    rw [same, alike, ← flights, ← creators]
    have steps := quiet_custody controlled known quiet
    cases quiet with
    | locks lock => exact steps
    | writes link target => exact steps
  | registers link place room =>
    subst place
    have had : state.custody.flights.Perm (link :: (before ++ [] ++ behind)) := by
      rw [flights, List.append_nil, List.append_assoc]
      exact List.perm_middle
    have gets : (early ++ [state.slots.length] ++ late).Perm (state.custody.slots.length :: state.custody.creators) := by
      have same : state.custody.slots.length = state.slots.length := List.length_map ..
      rw [creators, same, List.append_assoc]
      simp [Adding.creators]
    have more : State.custody { state with slots := state.slots ++ [⟨⟨link.fd, true⟩, link.thing⟩] } =
        { state.custody with slots := state.custody.slots ++ [⟨link, true⟩] } := by
      simp only [State.custody, List.map_append]
      rfl
    rw [more]
    have free : state.custody.slots.length < maxPeers := by
      rw [show state.custody.slots.length = state.slots.length from List.length_map ..]
      exact room
    exact .single (.registers link _ _ free had gets)
  | drops link place =>
    subst place
    have had : state.custody.flights.Perm (link :: (before ++ [] ++ behind)) := by
      rw [flights, List.append_nil, List.append_assoc]
      exact List.perm_middle
    have same : early ++ [] ++ late = state.custody.creators := creators.symm
    rw [custody_closes controlled, Option.elim_none, Option.elim_none, same]
    exact .single (.drops link _ had)
  | creates idx link place =>
    subst place
    have had : state.custody.creators.Perm (idx :: (early ++ [] ++ late)) := by
      rw [creators, List.append_nil, List.append_assoc]
      exact List.perm_middle
    have same : before ++ [] ++ behind = state.custody.flights := flights.symm
    rw [custody_withHandler, Option.elim_some, Option.elim_some]
    have stepped := Custody.Step.creates idx _ had
    rw [← same] at stepped
    exact .single stepped

/-! ## The flags, and where is sent -/

/-- A quiet step moves no thread, slot or flag. -/
theorem Quiet.same {targets : List Link} (quiet : Quiet state targets after) :
    after.main = state.main ∧ after.accept = state.accept ∧ after.handlers = state.handlers ∧
      after.slots = state.slots ∧ after.running = state.running ∧ after.listening = state.listening := by
  cases quiet with
  | locks lock => exact ⟨rfl, rfl, rfl, rfl, rfl, rfl⟩
  | writes link target => exact ⟨rfl, rfl, rfl, rfl, rfl, rfl⟩

/-- So it keeps what the flags say. -/
theorem Quiet.controlled {targets : List Link} (controlled : Controlled state) (quiet : Quiet state targets after) :
    Controlled after := by
  cases quiet with
  | locks lock => exact ⟨controlled.running, controlled.listening, controlled.targets⟩
  | writes link target => exact ⟨controlled.running, controlled.listening, controlled.targets⟩

/-- And it keeps what is registered. -/
theorem Quiet.registered {targets : List Link} (quiet : Quiet state targets after) :
    after.Registered link ↔ state.Registered link := by
  obtain ⟨-, -, -, slots, -⟩ := quiet.same
  rw [State.Registered, State.Registered, slots]

/-- The main thread may go on to a place of the same stage if it sends to links
of slots there. -/
theorem controlled_main (controlled : Controlled state) (main : Main) (stage : main.stage = state.main.stage)
    (targets : ∀ link ∈ main.targets, state.Registered link) : Controlled { state with main := main } := by
  constructor
  case running => exact controlled.running.trans (by rw [stage])
  case listening => exact controlled.listening.trans (by rw [stage])
  case targets =>
    rintro link (target | target | target)
    · exact targets link target
    · exact controlled.targets link (Or.inr (Or.inl target))
    · exact controlled.targets link (Or.inr (Or.inr target))

/-- So may `accept_thread`, which has no say in the stage. -/
theorem controlled_accept (controlled : Controlled state) (accept : Accept)
    (targets : ∀ link ∈ accept.targets, state.Registered link) : Controlled { state with accept := accept } := by
  constructor
  case running => exact controlled.running
  case listening => exact controlled.listening
  case targets =>
    rintro link (target | target | target)
    · exact controlled.targets link (Or.inl target)
    · exact targets link target
    · exact controlled.targets link (Or.inr (Or.inr target))

/-- So may a handler. -/
theorem controlled_handler (controlled : Controlled state) (idx : Nat) (handler : Handler)
    (targets : ∀ link ∈ handler.targets, state.Registered link) : Controlled (state.withHandler idx handler) := by
  constructor
  case running => exact controlled.running
  case listening => exact controlled.listening
  case targets =>
    rintro link (target | target | ⟨one, target⟩)
    · exact controlled.targets link (Or.inl target)
    · exact controlled.targets link (Or.inr (Or.inl target))
    · simp only [State.withHandler, Function.update_apply] at target
      split_ifs at target
      · exact targets link target
      · exact controlled.targets link (Or.inr (Or.inr ⟨one, target⟩))

/-- The table of slots has not lost a link. -/
theorem controlled_slots (controlled : Controlled state) (slots : List Slot)
    (keeps : ∀ link, state.Registered link → ∃ slot ∈ slots, slot.link = link) :
    Controlled { state with slots := slots } :=
  ⟨controlled.running, controlled.listening, fun link target => keeps link (controlled.targets link target)⟩

/-- Clearing a flag leaves the link in its slot. -/
theorem clears_keeps (idx : Nat) (registered : state.Registered link) : (state.clears idx).Registered link := by
  obtain ⟨slot, member, rfl⟩ := registered
  obtain ⟨one, there⟩ := List.mem_iff_getElem?.mp member
  have now : (state.clears idx).slots[one]? =
      some (if idx = one then { slot with peer := { slot.peer with active := false } } else slot) := by
    simp [State.clears, List.getElem?_modify, there]
  refine ⟨_, List.mem_of_getElem? now, ?_⟩
  split_ifs <;> rfl

/-- A step of `add_peer` keeps the flags, and what it goes on to send to is
registered, because the connection has got its slot by then. -/
theorem Added.controlled {call : Adding} {later : Option Adding} (controlled : Controlled state)
    (known : ∀ link ∈ call.targets, state.Registered link) (added : Added state call after later) :
    Controlled after ∧ after.main.stage = state.main.stage ∧
      ∀ link ∈ later.elim [] Adding.targets, after.Registered link := by
  cases added with
  | quiet after later quiet flights creators targets =>
    refine ⟨quiet.controlled controlled, by rw [quiet.same.1], fun link member => ?_⟩
    exact quiet.registered.mpr ((targets link member).elim (known link) id)
  | registers link place room =>
    refine ⟨controlled_slots controlled _ ?_, rfl, ?_⟩
    · rintro other ⟨slot, member, same⟩
      exact ⟨slot, List.mem_append_left _ member, same⟩
    · intro other member
      obtain rfl := List.mem_singleton.mp member
      exact ⟨_, List.mem_append_right _ List.mem_cons_self, rfl⟩
  | drops link place =>
    exact ⟨⟨controlled.running, controlled.listening, controlled.targets⟩, rfl, fun _ member => (by cases member)⟩
  | creates idx link place =>
    subst place
    refine ⟨controlled_handler controlled idx .testing fun _ member => (by cases member), rfl, fun other member => ?_⟩
    obtain rfl := List.mem_singleton.mp member
    exact known other List.mem_cons_self

/-! ## Custody of the steps of threads -/

/-- Two places of the main thread at which it has the same to close. A move
between them does not show in the custody. -/
structure Main.Alike (main other : Main) : Prop where
  flights : main.flights = other.flights
  creators : main.creators = other.creators
  stage : main.stage = other.stage
  aim : main.aim = other.aim

/-- Such a move of the main thread does not show in the custody. -/
theorem custody_main (main : Main) (alike : main.Alike state.main) :
    State.custody { state with main := main } = state.custody := by
  simp only [State.custody, alike.flights, alike.creators, alike.stage, alike.aim]

/-- What the main thread sends to is registered. -/
theorem Controlled.main_targets (controlled : Controlled state) :
    ∀ link ∈ state.main.targets, state.Registered link := fun link target => controlled.targets link (Or.inl target)

/-- A move of the stopper changes the stage and the aim only. -/
theorem custody_stopping (state : State) {stop : Stop} (place : state.main = .stopping stop) (later : Stop) :
    State.custody { state with main := .stopping later } =
      { state.custody with stage := later.stage, aim := later.aim } := by
  simp only [State.custody, place]
  rfl

/-- The stopper goes on without a slot in its aim. -/
theorem custody_passing (state : State) {stop : Stop} (place : state.main = .stopping stop) (later : Stop)
    (aim : later.aim = stop.aim) :
    State.custody { state with main := .stopping later } = { state.custody with stage := later.stage } := by
  have same : state.custody.aim = later.aim := by
    simp only [State.custody, place]
    exact aim.symm
  rw [custody_stopping state place, ← same]

/-- A move of the stopper that changes neither does not show. -/
theorem custody_waiting (state : State) {stop : Stop} (place : state.main = .stopping stop) (later : Stop)
    (aim : later.aim = stop.aim) (stage : later.stage = stop.stage) :
    State.custody { state with main := .stopping later } = state.custody := by
  have same : state.custody.stage = later.stage := by
    simp only [State.custody, place]
    exact stage.symm
  rw [custody_passing state place later aim, ← same]

/-- The stopper may go on if it writes the flags as its stage says. It sends
nothing. -/
theorem controlled_stopping (controlled : Controlled state) (later : Stop)
    (running : after.running = decide (later.stage = .serving)) (listening : after.listening = !later.stage.isShut)
    (accept : after.accept = state.accept) (handlers : after.handlers = state.handlers)
    (keeps : ∀ link, state.Registered link → after.Registered link) :
    Controlled { after with main := .stopping later } := by
  constructor
  case running => exact running
  case listening => exact listening
  case targets =>
    rintro link (target | target | target)
    · cases target
    · exact keeps link (controlled.targets link (Or.inr (Or.inl (accept ▸ target))))
    · exact keeps link (controlled.targets link (Or.inr (Or.inr (handlers ▸ target))))

/-- `node_stop`. -/
theorem stopStep_custody {stop later : Stop} (controlled : Controlled state) (place : state.main = .stopping stop)
    (stepped : stopStep state stop = some (after, later)) :
    Controlled { after with main := .stopping later } ∧
      ReflTransGen Custody.Step state.custody (State.custody { after with main := .stopping later }) := by
  have running := controlled.running
  have listening := controlled.listening
  have stage : state.custody.stage = stop.stage := by
    simp only [State.custody, place]
    rfl
  have aim : state.custody.aim = stop.aim := by
    simp only [State.custody, place]
    rfl
  rw [place] at running listening
  cases stop with
  | halting =>
    obtain ⟨rfl, rfl⟩ := Prod.mk.inj (Option.some.inj stepped)
    refine ⟨controlled_stopping controlled .shutting rfl listening rfl rfl fun _ => id, ?_⟩
    rw [custody_passing { state with running := false } place .shutting rfl]
    exact .single (.halts stage)
  | shutting =>
    obtain ⟨rfl, rfl⟩ := Prod.mk.inj (Option.some.inj stepped)
    refine ⟨controlled_stopping controlled .closing running rfl rfl rfl fun _ => id, ?_⟩
    rw [custody_passing { state with listening := false } place .closing rfl]
    exact .single (.shuts stage)
  | closing =>
    obtain ⟨rfl, rfl⟩ := Prod.mk.inj (Option.some.inj stepped)
    refine ⟨controlled_stopping controlled .locking running listening rfl rfl fun _ => id, ?_⟩
    rw [custody_passing (state.closes state.server) place .locking rfl, custody_closes controlled]
    exact .single (.closes stage)
  | locking =>
    unfold stopStep at stepped
    split_ifs at stepped
    obtain ⟨rfl, rfl⟩ := Prod.mk.inj (Option.some.inj stepped)
    refine ⟨controlled_stopping controlled (.looking 0) running listening rfl rfl fun _ => id, ?_⟩
    rw [custody_waiting { state with lock := .held } place (.looking 0) rfl rfl]
    exact .refl
  | looking idx =>
    simp only [stopStep] at stepped
    split at stepped
    · obtain ⟨rfl, rfl⟩ := Prod.mk.inj (Option.some.inj stepped)
      refine ⟨controlled_stopping controlled .destroying running listening rfl rfl fun _ => id, ?_⟩
      rw [custody_waiting { state with lock := .free } place .destroying rfl rfl]
      exact .refl
    · rename_i slot there
      obtain ⟨rfl, rfl⟩ := Prod.mk.inj (Option.some.inj stepped)
      have here : state.custody.slots[idx]? = some slot.custody := by
        simp only [State.custody, List.getElem?_map, there]
        rfl
      split_ifs with active
      · refine ⟨controlled_stopping controlled (.clearing idx) running listening rfl rfl fun _ => id, ?_⟩
        have closed : state.custody.stage = (Stop.clearing idx).stage := stage
        rw [custody_stopping state place, ← closed]
        exact .single (.aims idx slot.custody here active stage aim)
      · refine ⟨controlled_stopping controlled (.looking (idx + 1)) running listening rfl rfl fun _ => id, ?_⟩
        rw [custody_waiting state place (.looking (idx + 1)) rfl rfl]
  | clearing idx =>
    obtain ⟨rfl, rfl⟩ := Prod.mk.inj (Option.some.inj stepped)
    refine ⟨controlled_stopping controlled (.closingPeer idx) running listening rfl rfl fun _ => clears_keeps idx, ?_⟩
    have closed : state.custody.stage = (Stop.closingPeer idx).stage := stage
    rw [custody_stopping (state.clears idx) place, custody_clears, ← closed]
    exact .single (.hits idx aim)
  | closingPeer idx =>
    obtain ⟨slot, there, same⟩ := Option.map_eq_some_iff.mp stepped
    obtain ⟨rfl, rfl⟩ := Prod.mk.inj same
    refine ⟨controlled_stopping controlled (.looking (idx + 1)) running listening rfl rfl fun _ => id, ?_⟩
    have here : state.custody.slots[idx]? = some slot.custody := by
      simp only [State.custody, List.getElem?_map, there]
      rfl
    have closed : state.custody.stage = (Stop.looking (idx + 1)).stage := stage
    rw [custody_stopping (state.closes slot.link) place, custody_closes controlled, ← closed]
    exact .single (.stops idx slot.custody here aim)
  | destroying =>
    obtain ⟨rfl, rfl⟩ := Prod.mk.inj (Option.some.inj stepped)
    refine ⟨controlled_stopping controlled .stopped running listening rfl rfl fun _ => id, ?_⟩
    rw [custody_waiting { state with lock := if state.lock = .free then .destroyed else state.lock } place .stopped rfl rfl]
    exact .refl
  | stopped => cases stepped

/-- `add_peer` leaves the places of the threads to its caller. -/
theorem Added.same {call : Adding} {later : Option Adding} (added : Added state call after later) :
    after.main = state.main ∧ after.accept = state.accept := by
  cases added with
  | quiet after later quiet => exact ⟨quiet.same.1, quiet.same.2.1⟩
  | registers | drops | creates => exact ⟨rfl, rfl⟩

/-- A call that sends nothing but lines goes on, and its thread has nothing in
flight. -/
theorem quiet_main {targets : List Link} (controlled : Controlled state)
    (known : ∀ link ∈ targets, state.Registered link) (quiet : Quiet state targets after) (main : Main)
    (alike : main.Alike state.main) (sends : ∀ link ∈ main.targets, link ∈ targets ∨ state.Registered link) :
    Controlled { after with main := main } ∧
      ReflTransGen Custody.Step state.custody (State.custody { after with main := main }) := by
  have same := quiet.same.1
  constructor
  · refine controlled_main (quiet.controlled controlled) main (by rw [alike.stage, same]) fun link member => ?_
    exact quiet.registered.mpr ((sends link member).elim (known link) id)
  · rw [← same] at alike
    rw [custody_main main alike]
    exact quiet_custody controlled known quiet

/-- `do_network_status` does nothing but take the lock and give it back. -/
theorem listStep_lock {call : Listing} {later : Option Listing}
    (stepped : listStep state call = some (after, later)) : ∃ lock, after = { state with lock := lock } := by
  cases call with
  | locking =>
    simp only [listStep] at stepped
    split_ifs at stepped
    exact ⟨.held, (Prod.mk.inj (Option.some.inj stepped)).1.symm⟩
  | heading => exact ⟨state.lock, (Prod.mk.inj (Option.some.inj stepped)).1.symm⟩
  | looking idx =>
    simp only [listStep] at stepped
    split at stepped
    · exact ⟨.free, (Prod.mk.inj (Option.some.inj stepped)).1.symm⟩
    · exact ⟨state.lock, (Prod.mk.inj (Option.some.inj stepped)).1.symm⟩

/-- A quiet call of the main thread goes on, or it ends and leads to the menu. -/
theorem quiet_call {Call : Type} {targets : List Link} (controlled : Controlled state)
    (known : ∀ link ∈ targets, state.Registered link) (quiet : Quiet state targets after) (place : Call → Main)
    (menu : Main.menu.Alike state.main) (alike : ∀ call, (place call).Alike state.main) (later : Option Call)
    (sends : ∀ link ∈ later.elim [] fun call => (place call).targets, link ∈ targets ∨ state.Registered link) :
    Controlled { after with main := (later.map place).getD .menu } ∧
      ReflTransGen Custody.Step state.custody
        (State.custody { after with main := (later.map place).getD .menu }) := by
  cases later with
  | none => exact quiet_main controlled known quiet .menu menu fun link member => by cases member
  | some call => exact quiet_main controlled known quiet (place call) (alike call) sends

/-- `socket` and `connect` in `node_connect_peer`: from now on the main thread
has to register the connection or to close it. -/
theorem dialled_custody (controlled : Controlled state) (fd : Nat) (place : state.main = .menu)
    (free : state.table.entry fd = none) :
    Controlled { state with table := state.table.opens fd, main := .connecting ⟨fd, state.table.count⟩ } ∧
      ReflTransGen Custody.Step state.custody
        (State.custody { state with
          table := state.table.opens fd
          main := .connecting ⟨fd, state.table.count⟩ }) := by
  have opened : Controlled { state with table := state.table.opens fd } :=
    ⟨controlled.running, controlled.listening, controlled.targets⟩
  refine ⟨controlled_main opened _ (by rw [place]; rfl) fun link member => (by cases member), ?_⟩
  have unshut : state.custody.stage.isShut = false := by
    simp only [State.custody, place]
    rfl
  have same : State.custody { state with
        table := state.table.opens fd
        main := .connecting ⟨fd, state.table.count⟩ } =
      { state.custody with
        table := state.table.opens fd
        flights := ⟨fd, state.table.count⟩ :: state.custody.flights } := by
    simp only [State.custody, place]
    rfl
  rw [same]
  exact .single (.opens fd _ free unshut (.refl _))

/-- The `close` of a connection that failed, which nobody else has seen. -/
theorem failed_custody (controlled : Controlled state) {link : Link} (place : state.main = .failed link) :
    Controlled { state.closes link with main := .menu } ∧
      ReflTransGen Custody.Step state.custody (State.custody { state.closes link with main := .menu }) := by
  have closed : Controlled (state.closes link) := ⟨controlled.running, controlled.listening, controlled.targets⟩
  refine ⟨controlled_main closed .menu (by rw [State.closes, State.does, place]; rfl)
    fun link member => (by cases member), ?_⟩
  have had : state.custody.flights.Perm (link :: state.accept.flights) := by
    simp only [State.custody, place]
    exact .refl _
  have same : State.custody { state.closes link with main := .menu } =
      { (state.closes link).custody with flights := state.accept.flights } := by
    simp only [State.custody, State.closes, State.does, place]
    rfl
  rw [same, custody_closes controlled]
  exact .single (.drops link _ had)

/-- `add_peer` on the main thread, and what follows it there. -/
theorem adding_custody {call : Adding} {later : Option Adding} (controlled : Controlled state)
    (place : state.main = .adding call) (added : Added state call after later) :
    Controlled { after with main := (later.map Main.adding).getD .counting } ∧
      ReflTransGen Custody.Step state.custody
        (State.custody { after with main := (later.map Main.adding).getD .counting }) := by
  have known := controlled.main_targets
  rw [place] at known
  obtain ⟨kept, stage, targets⟩ := added.controlled controlled known
  have main := added.same.1.trans place
  constructor
  · refine controlled_main kept _ ?_ fun link member => targets link ?_
    · rw [main]
      cases later <;> rfl
    · cases later <;> exact member
  · have flights : state.custody.flights = [] ++ call.flights ++ state.accept.flights := by
      simp only [State.custody, place]
      rfl
    have creators : state.custody.creators = [] ++ call.creators ++ state.accept.creators := by
      simp only [State.custody, place]
      rfl
    have steps := added_custody controlled known added _ _ _ _ flights creators
    rw [← added.same.2] at steps
    refine cast ?_ steps
    congr 1
    cases later <;> simp only [State.custody, main] <;> rfl

/-- The main thread: one case for each place that it can be at. -/
theorem mainStep_custody {outcome : Outcome} (controlled : Controlled state)
    (stepped : mainStep state outcome = some next) :
    Controlled next ∧ ReflTransGen Custody.Step state.custody next.custody := by
  have known := controlled.main_targets
  have rests (main : Main) (alike : main.Alike state.main) (targets : main.targets = []) :
      Controlled { state with main := main } ∧
        ReflTransGen Custody.Step state.custody (State.custody { state with main := main }) :=
    quiet_main controlled known (.locks state.lock) main alike fun link member => by
      rw [targets] at member
      cases member
  unfold mainStep at stepped
  split at stepped
  case h_1 fd place =>
    split_ifs at stepped with free
    obtain rfl := Option.some.inj stepped
    exact dialled_custody controlled fd place free
  case h_2 length place =>
    obtain rfl := Option.some.inj stepped
    exact rests _ (place ▸ ⟨rfl, rfl, rfl, rfl⟩) rfl
  case h_3 place | h_4 place =>
    obtain rfl := Option.some.inj stepped
    exact rests _ (place ▸ ⟨rfl, rfl, rfl, rfl⟩) rfl
  case h_5 link place =>
    obtain rfl := Option.some.inj stepped
    exact rests _ (place ▸ ⟨rfl, rfl, rfl, rfl⟩) rfl
  case h_6 link place =>
    obtain rfl := Option.some.inj stepped
    exact rests _ (place ▸ ⟨rfl, rfl, rfl, rfl⟩) rfl
  case h_7 link place =>
    obtain rfl := Option.some.inj stepped
    exact failed_custody controlled place
  case h_8 outcome call place =>
    obtain ⟨⟨after, later⟩, added, rfl⟩ := Option.map_eq_some_iff.mp stepped
    have steps := adding_custody controlled place (addStep_added added)
    cases later <;> exact steps
  case h_9 place =>
    obtain rfl := Option.some.inj stepped
    exact rests _ (place ▸ ⟨rfl, rfl, rfl, rfl⟩) rfl
  case h_10 outcome call place =>
    obtain ⟨⟨after, later⟩, asked, rfl⟩ := Option.map_eq_some_iff.mp stepped
    obtain ⟨quiet, targets⟩ := askStep_quiet asked
    rw [place] at known
    have steps := quiet_call controlled known quiet .asking (place ▸ ⟨rfl, rfl, rfl, rfl⟩)
      (fun _ => place ▸ ⟨rfl, rfl, rfl, rfl⟩) later targets
    cases later <;> exact steps
  case h_11 outcome call place =>
    obtain ⟨⟨after, later⟩, cast, rfl⟩ := Option.map_eq_some_iff.mp stepped
    obtain ⟨quiet, targets⟩ := castStep_quiet cast
    rw [place] at known
    have steps := quiet_call controlled known quiet .casting (place ▸ ⟨rfl, rfl, rfl, rfl⟩)
      (fun _ => place ▸ ⟨rfl, rfl, rfl, rfl⟩) later targets
    cases later <;> exact steps
  case h_12 call place =>
    obtain ⟨⟨after, later⟩, listed, rfl⟩ := Option.map_eq_some_iff.mp stepped
    obtain ⟨lock, rfl⟩ := listStep_lock listed
    have steps := quiet_call controlled known (.locks lock) .listing (place ▸ ⟨rfl, rfl, rfl, rfl⟩)
      (fun _ => place ▸ ⟨rfl, rfl, rfl, rfl⟩) later fun link member => by
        cases later <;> cases member
    cases later <;> exact steps
  case h_13 stop place =>
    obtain ⟨⟨after, later⟩, stopped, rfl⟩ := Option.map_eq_some_iff.mp stepped
    exact stopStep_custody controlled place stopped
  case h_14 => cases stepped

/-- A move of `accept_thread` with the same to close does not show in the
custody. -/
theorem custody_accept (state : State) (accept : Accept) (flights : accept.flights = state.accept.flights)
    (creators : accept.creators = state.accept.creators) :
    State.custody { state with accept := accept } = state.custody := by
  simp only [State.custody, flights, creators]

/-- `accept_thread`. -/
theorem acceptStep_custody {outcome : Outcome} (controlled : Controlled state)
    (stepped : acceptStep state outcome = some next) :
    Controlled next ∧ ReflTransGen Custody.Step state.custody next.custody := by
  have known : ∀ link ∈ state.accept.targets, state.Registered link :=
    fun link target => controlled.targets link (Or.inr (Or.inl target))
  have accepts : ReflTransGen Custody.Step state.custody (state.does .accept state.server).custody := by
    rw [custody_does controlled]
    exact .single .accepts
  unfold acceptStep at stepped
  split at stepped
  case h_1 place =>
    obtain rfl := Option.some.inj stepped
    refine ⟨controlled_accept controlled _ fun link member => ?_, ?_⟩
    · split_ifs at member <;> cases member
    · rw [custody_accept state (if state.running then .waiting else .ended)
        (by rw [place]; split_ifs <;> rfl) (by rw [place]; split_ifs <;> rfl)]
  case h_2 fd place =>
    split_ifs at stepped with opens
    obtain rfl := Option.some.inj stepped
    obtain ⟨listening, -, free⟩ := opens
    have opened : Controlled { state.does .accept state.server with table := state.table.opens fd } :=
      ⟨controlled.running, controlled.listening, controlled.targets⟩
    refine ⟨controlled_accept opened _ fun link member => (by cases member), accepts.tail ?_⟩
    have unshut : state.custody.stage.isShut = false := by
      have flag := controlled.listening
      rw [listening] at flag
      exact Bool.not_inj flag.symm
    have obtained : (state.main.flights ++ [(⟨fd, state.table.count⟩ : Link)]).Perm
        (⟨fd, state.table.count⟩ :: state.custody.flights) := by
      simp only [State.custody, place, Accept.flights, List.append_nil]
      exact List.perm_append_singleton _ _
    have same : State.custody { state.does .accept state.server with
          table := state.table.opens fd
          accept := .adding (.registering ⟨fd, state.table.count⟩) } =
        { (state.does .accept state.server).custody with
          table := state.table.opens fd
          flights := state.main.flights ++ [⟨fd, state.table.count⟩] } := by
      simp only [State.custody, State.does, place, Accept.flights, Accept.creators, Adding.flights, Adding.creators,
        List.append_nil]
    rw [same]
    exact .opens fd _ free unshut obtained
  case h_3 place =>
    obtain rfl := Option.some.inj stepped
    have recorded : Controlled (state.does .accept state.server) :=
      ⟨controlled.running, controlled.listening, controlled.targets⟩
    refine ⟨controlled_accept recorded _ fun link member => (by cases member), ?_⟩
    have waits : (state.does .accept state.server).accept = .waiting := place
    rwa [custody_accept (state.does .accept state.server) .testing (by rw [waits]; rfl) (by rw [waits]; rfl)]
  case h_4 outcome call place =>
    obtain ⟨⟨after, later⟩, added, rfl⟩ := Option.map_eq_some_iff.mp stepped
    have added := addStep_added added
    rw [place] at known
    obtain ⟨kept, stage, targets⟩ := added.controlled controlled known
    constructor
    · refine controlled_accept kept _ fun link member => targets link ?_
      cases later <;> exact member
    · have flights : state.custody.flights = state.main.flights ++ call.flights ++ [] := by
        simp only [State.custody, place, List.append_nil]
        rfl
      have creators : state.custody.creators = state.main.creators ++ call.creators ++ [] := by
        simp only [State.custody, place, List.append_nil]
        rfl
      have steps := added_custody controlled known added _ _ _ _ flights creators
      rw [← added.same.1] at steps
      refine cast ?_ steps
      congr 1
      cases later <;> simp only [State.custody, List.append_nil] <;> rfl
  case h_5 => cases stepped

/-- A busy handler that stays busy does not show in the custody. -/
theorem custody_busy (state : State) {handler : Handler} (was : (state.handlers idx).phase = .busy)
    (busy : handler.phase = .busy) : (state.withHandler idx handler).custody = state.custody := by
  have same : state.custody.phase idx = handler.phase := was.trans busy.symm
  rw [custody_withHandler, ← same, Function.update_eq_self]

/-- `peer_handler`. -/
theorem handlerStep_custody {outcome : Outcome} (controlled : Controlled state)
    (stepped : handlerStep state idx outcome = some next) :
    Controlled next ∧ ReflTransGen Custody.Step state.custody next.custody := by
  have known : ∀ link ∈ (state.handlers idx).targets, state.Registered link :=
    fun link target => controlled.targets link (Or.inr (Or.inr ⟨idx, target⟩))
  unfold handlerStep at stepped
  split at stepped
  case h_1 => cases stepped
  case h_2 slot there =>
    have here : state.custody.slots[idx]? = some slot.custody := by
      simp only [State.custody, List.getElem?_map, there]
      rfl
    have own : ∀ link ∈ [slot.link], state.Registered link := by
      intro link member
      obtain rfl := List.mem_singleton.mp member
      exact ⟨slot, List.mem_of_getElem? there, rfl⟩
    have rests (after : State) (controlled : Controlled after) (alike : after.handlers = state.handlers)
        (handler : Handler) (was : (state.handlers idx).phase = .busy) (busy : handler.phase = .busy)
        (targets : ∀ link ∈ handler.targets, after.Registered link)
        (steps : ReflTransGen Custody.Step state.custody after.custody) :
        Controlled (after.withHandler idx handler) ∧
          ReflTransGen Custody.Step state.custody (after.withHandler idx handler).custody := by
      refine ⟨controlled_handler controlled idx handler targets, ?_⟩
      rw [← alike] at was
      rwa [custody_busy after was busy]
    have reads (busy : state.custody.phase idx = .busy) :
        ReflTransGen Custody.Step state.custody (state.does .read slot.link).custody := by
      rw [custody_does controlled]
      exact .single (.reads idx slot.custody here busy)
    have read : Controlled (state.does .read slot.link) :=
      ⟨controlled.running, controlled.listening, controlled.targets⟩
    split at stepped
    case h_1 place =>
      obtain rfl := Option.some.inj stepped
      have busy : (state.handlers idx).phase = .busy := by rw [place]; rfl
      split_ifs
      · exact rests state controlled rfl _ busy rfl (fun link member => by cases member) .refl
      · refine ⟨controlled_handler controlled idx _ fun link member => (by cases member), ?_⟩
        rw [custody_withHandler]
        exact .single (.leaves idx busy)
    case h_2 total newline place =>
      split_ifs at stepped
      all_goals
        obtain rfl := Option.some.inj stepped
        have busy : (state.handlers idx).phase = .busy := by rw [place]; rfl
        exact rests _ read rfl _ busy rfl (fun link member => by cases member) (reads busy)
    case h_3 total place =>
      obtain rfl := Option.some.inj stepped
      have busy : (state.handlers idx).phase = .busy := by rw [place]; rfl
      exact rests _ read rfl _ busy rfl (fun link member => by cases member) (reads busy)
    case h_4 place | h_5 length place | h_7 length place =>
      obtain rfl := Option.some.inj stepped
      have busy : (state.handlers idx).phase = .busy := by rw [place]; rfl
      exact rests state controlled rfl _ busy rfl (fun link member => by cases member) .refl
    case h_6 left count place =>
      obtain ⟨⟨after, rest⟩, sent, rfl⟩ := Option.map_eq_some_iff.mp stepped
      have busy : (state.handlers idx).phase = .busy := by rw [place]; rfl
      have quiet : Quiet state [slot.link] after := sends_quiet List.mem_cons_self sent
      dsimp only
      split_ifs
      all_goals
        exact rests after (quiet.controlled controlled) quiet.same.2.2.1 _ busy rfl (fun link member => by cases member)
          (quiet_custody controlled own quiet)
    case h_8 outcome call place =>
      obtain ⟨⟨after, later⟩, cast, rfl⟩ := Option.map_eq_some_iff.mp stepped
      have busy : (state.handlers idx).phase = .busy := by rw [place]; rfl
      obtain ⟨quiet, targets⟩ := castStep_quiet cast
      rw [place] at known
      refine rests after (quiet.controlled controlled) quiet.same.2.2.1 _ busy (by cases later <;> rfl) ?_
        (quiet_custody controlled known quiet)
      intro link member
      refine quiet.registered.mpr ((targets link ?_).elim (known link) id)
      cases later <;> exact member
    case h_9 place =>
      obtain rfl := Option.some.inj stepped
      have busy : (state.handlers idx).phase = .busy := by rw [place]; rfl
      have cleared : Controlled (state.clears idx) := controlled_slots controlled _ fun _ => clears_keeps idx
      refine ⟨controlled_handler cleared idx .closing fun link member => (by cases member), ?_⟩
      rw [custody_withHandler, custody_clears]
      exact .single (.marks idx busy)
    case h_10 place =>
      obtain rfl := Option.some.inj stepped
      have closing : (state.handlers idx).phase = .closing := by rw [place]; rfl
      have closed : Controlled (state.closes slot.link) :=
        ⟨controlled.running, controlled.listening, controlled.targets⟩
      refine ⟨controlled_handler closed idx .ended fun link member => (by cases member), ?_⟩
      rw [custody_withHandler, custody_closes controlled]
      exact .single (.ends idx slot.custody here closing)
    case h_11 => cases stepped

/-- Every step of a thread is a sequence of steps of the custody, most often
none or one. -/
theorem step_custody {turn : Turn} (controlled : Controlled state) (stepped : step state turn = some next) :
    Controlled next ∧ ReflTransGen Custody.Step state.custody next.custody := by
  cases turn with
  | main outcome => exact mainStep_custody controlled stepped
  | accept outcome => exact acceptStep_custody controlled stepped
  | handler idx outcome => exact handlerStep_custody controlled stepped

/-! ## Runs of the threads -/

/-- At the start the flags are set and nothing is sent. -/
theorem controlled_start (fd : Nat) : Controlled (start fd) where
  running := rfl
  listening := rfl
  targets := by
    rintro link (target | target | ⟨idx, target⟩) <;> cases target

/-- Every run of the threads is a run of the custody, so what its rules keep
holds of the threads. -/
theorem run_custody {fd : Nat} {turns : List Turn} (ran : run step (start fd) turns = some state) :
    Controlled state ∧ ReflTransGen Custody.Step (Custody.start maxPeers fd) state.custody := by
  refine run_invariant step (fun _ _ => True)
    (fun state => Controlled state ∧ ReflTransGen Custody.Step (Custody.start maxPeers fd) state.custody) ?_
    (start fd) state turns ⟨controlled_start fd, .refl⟩ (every_of_forall step _ (fun _ _ => trivial) _ _) ran
  rintro state turn next ⟨controlled, steps⟩ - stepped
  obtain ⟨still, more⟩ := step_custody controlled stepped
  exact ⟨still, steps.trans more⟩

/-! ## The table of peers -/

/-- What `peer_t` holds of a slot. -/
def peerOf (slot : Custody.Slot) : Peer := ⟨slot.link.fd, slot.active⟩

/-- The array `peers` of the node, as far as it is filled. -/
def State.peers (state : State) : List Peer := state.slots.map Slot.peer

/-- The custody knows the array. -/
theorem custody_peers (state : State) : state.custody.slots.map peerOf = state.peers := by
  rw [State.custody, List.map_map]
  rfl

/-- A mark on a slot is the end of its connection in the table of peers. -/
theorem peers_marked (slots : List Custody.Slot) (idx : Nat) :
    (slots.modify idx Custody.Slot.mark).map peerOf = endPeer (slots.map peerOf) idx := by
  refine List.ext_getElem? fun one => ?_
  simp only [endPeer, List.getElem?_map, List.getElem?_modify]
  cases slots[one]? with
  | none => rfl
  | some slot =>
    by_cases here : idx = one
    · simp [here, peerOf, Custody.Slot.mark]
    · simp [here]

/-- Until `node_stop` begins, each change of the table is an event of its
history. -/
theorem peers_step {one other : Custody.State} (kept : Custody.Kept one) (capacity : one.capacity = maxPeers)
    (stepped : Custody.Step one other) (serving : other.stage = .serving) :
    one.stage = .serving ∧
      (other.slots.map peerOf = one.slots.map peerOf ∨
        ∃ event, slotStep (one.slots.map peerOf) event = some (other.slots.map peerOf)) := by
  cases stepped with
  | opens | drops | creates | accepts | writes | reads | leaves | ends | aims | stops =>
    exact ⟨serving, Or.inl rfl⟩
  | halts | shuts | closes => cases serving
  | hits idx aim =>
    have closed := (kept.aimed idx false aim).1
    rw [show one.stage = .serving from serving] at closed
    cases closed
  | registers link flights creators room =>
    refine ⟨serving, Or.inr ⟨.connected link.fd, ?_⟩⟩
    rw [slotStep, registerPeer, List.length_map, if_neg (by omega), List.map_append]
    rfl
  | marks idx busy =>
    refine ⟨serving, ?_⟩
    cases there : one.slots[idx]? with
    | none =>
      refine Or.inl ?_
      rw [List.modify_eq_self (by simpa using there)]
    | some slot =>
      have had := kept.slot idx slot there
      have unshut : one.stage.isShut ≠ true := by
        rw [show one.stage = .serving from serving]
        decide
      have active : slot.active = true := by
        cases active : slot.active with
        | true => rfl
        | false =>
          rcases had.marked active with gone | closing | ⟨done, aim⟩
          · rcases had.lost gone with ended | ⟨shut, -⟩
            · rw [busy] at ended
              cases ended
            · exact absurd shut unshut
          · rw [busy] at closing
            cases closing
          · exact absurd (kept.shut (by simp [aim])) unshut
      refine Or.inr ⟨.disconnected idx, ?_⟩
      simp [slotStep, there, peerOf, active, peers_marked]

/-- The custody never changes how many slots there are room for. -/
theorem capacity_step {one other : Custody.State} (stepped : Custody.Step one other) :
    other.capacity = one.capacity := by
  cases stepped <;> rfl

/-- The table of the threads has a history of connections and disconnections. -/
theorem peers_history {fd : Nat} {turns : List Turn} (ran : run step (start fd) turns = some state)
    (running : state.running = true) : ∃ events, run slotStep [] events = some state.peers := by
  obtain ⟨controlled, steps⟩ := run_custody ran
  have serving : state.custody.stage = .serving := by
    have flag := controlled.running
    rw [running] at flag
    exact of_decide_eq_true flag.symm
  have along (one : Custody.State) (steps : ReflTransGen Custody.Step (Custody.start maxPeers fd) one) :
      one.capacity = maxPeers ∧
        (one.stage = .serving → ∃ events, run slotStep [] events = some (one.slots.map peerOf)) := by
    induction steps with
    | refl => exact ⟨rfl, fun _ => ⟨[], rfl⟩⟩
    | tail before stepped ih =>
      obtain ⟨capacity, history⟩ := ih
      refine ⟨(capacity_step stepped).trans capacity, fun serving => ?_⟩
      obtain ⟨was, change⟩ := peers_step (Custody.kept_steps before).1 capacity stepped serving
      obtain ⟨events, ran⟩ := history was
      rcases change with same | ⟨event, happened⟩
      · exact ⟨events, by rw [same, ran]⟩
      · exact ⟨events ++ [event], (run_append _ _ _ _ _).mpr
          ⟨_, ran, (run_cons _ _ _ _ _).mpr ⟨_, happened, rfl⟩⟩⟩
  rw [← custody_peers]
  exact (along state.custody steps).2 serving

/-! ## Descriptors -/

/-- All threads have ended, or were never created. -/
def State.Finished (state : State) : Prop :=
  state.main = .stopping .stopped ∧ state.accept = .ended ∧
    ∀ idx, state.handlers idx = .ended ∨ state.handlers idx = .unborn

/-- A call of `add_peer` has one connection in hand at most. -/
theorem Adding.flights_length (call : Adding) : call.flights.length ≤ 1 := by
  cases call <;> simp [Adding.flights]

/-- A connection is in flight in each of two threads at most. -/
theorem flights_length (state : State) : state.custody.flights.length ≤ 2 := by
  have main : state.main.flights.length ≤ 1 := by
    cases state.main with
    | adding call => exact call.flights_length
    | _ => simp [Main.flights]
  have accept : state.accept.flights.length ≤ 1 := by
    cases state.accept with
    | adding call => exact call.flights_length
    | _ => simp [Accept.flights]
  have both : state.custody.flights.length = state.main.flights.length + state.accept.flights.length :=
    List.length_append
  omega

/-- When all threads have ended nothing is in flight, and nobody is about to
close anything. -/
theorem Finished.closed (finished : state.Finished) :
    state.custody.stage = .closed ∧ state.custody.flights = [] ∧ state.custody.aim = none ∧
      ∀ idx, state.custody.phase idx ≠ .closing := by
  obtain ⟨main, accept, handlers⟩ := finished
  refine ⟨by simp only [State.custody, main]; rfl, by simp only [State.custody, main, accept]; rfl,
    by simp only [State.custody, main]; rfl, fun idx => ?_⟩
  rcases handlers idx with ended | unborn
  · simp [State.custody, ended, Handler.phase]
  · simp [State.custody, unborn, Handler.phase]

/-- Whatever the kernel, the peers and the user do and however the threads are
interleaved, every system call reaches the connection that it is meant for. A
line may also be sent after the handler has closed the connection, and from
`node_stop` on a call may find nothing. No connection is closed twice; all but
the listening socket, one for each of two threads and those of the slots have
been closed; and when all threads have ended only slots that are still active
are open. -/
theorem descriptors_kept (fd : Nat) (turns : List Turn) (state : State)
    (ran : run step (start fd) turns = some state) :
    (∀ before deed after, state.deeds = before ++ deed :: after →
      deed.hit = some deed.link.thing ∨
        if deed.kind = .write then deed.link.thing ∈ Custody.closings before
        else deed.hit = none ∧ deed.stopping = true) ∧
    (Custody.closings state.deeds).Nodup ∧
    state.table.count ≤ (Custody.closings state.deeds).length + (1 + 2 + maxPeers) ∧
    (state.Finished → ∀ connection < state.table.count, connection ∈ Custody.closings state.deeds ∨
      ∃ slot ∈ state.slots, slot.connection = connection ∧ slot.peer.active = true) := by
  obtain ⟨-, steps⟩ := run_custody ran
  obtain ⟨kept, recorded⟩ := Custody.kept_steps steps
  refine ⟨recorded.right, recorded.once, ?_, fun finished connection old => ?_⟩
  · have all := Custody.count_le kept recorded
    have flights := flights_length state
    have slots := kept.bounded
    have sum : state.custody.kept.length = state.custody.flights.length + state.custody.slots.length + 1 := by
      simp [Custody.State.kept]
    have capacity : state.custody.capacity = maxPeers := rfl
    have closed : Custody.closings state.custody.deeds = Custody.closings state.deeds := rfl
    have count : state.custody.table.count = state.table.count := rfl
    rw [closed, count] at all
    omega
  · obtain ⟨closed, landed, stopped, ended⟩ := Finished.closed finished
    refine (Custody.closed_or_active kept recorded closed landed stopped ended connection old).imp id ?_
    rintro ⟨slot, member, rfl, active⟩
    obtain ⟨own, here, rfl⟩ := List.mem_map.mp member
    exact ⟨own, here, rfl, active⟩

/-- `node_stop` and the handler of a peer close the same slot: both have found
it active. The second call finds nothing, which the result allows once
`node_stop` has begun. -/
theorem descriptors_kept_here :
    let turns : List Turn :=
      [.accept .goes, .accept (.opens 4), .accept .goes, .accept .goes,
        .handler 0 .goes, .handler 0 (.received false),
        .main .stops, .main .goes, .main .goes, .main .goes, .main .goes, .main .goes,
        .handler 0 .fails, .handler 0 .goes, .handler 0 .goes,
        .main .goes, .main .goes, .main .goes, .main .goes,
        .accept .goes, .accept (.resends []), .accept .goes, .accept .goes]
    ∃ state, run step (start 3) turns = some state ∧ state.Finished ∧
      (state.deeds.map fun deed => (deed.kind, deed.link.fd, deed.hit)) =
        [(.accept, 3, some 0), (.read, 4, some 1), (.close, 3, some 0), (.read, 4, some 1), (.close, 4, some 1),
          (.close, 4, none)] ∧
      (Custody.closings state.deeds).Nodup ∧ state.table.count = 2 ∧
      ∀ connection < state.table.count, connection ∈ Custody.closings state.deeds ∨
        ∃ slot ∈ state.slots, slot.connection = connection ∧ slot.peer.active = true := by
  intro turns
  have ends : (run step (start 3) turns).isSome = true := rfl
  have ran := (Option.some_get ends).symm
  obtain ⟨-, once, -, closed⟩ := descriptors_kept 3 turns _ ran
  have finished : ((run step (start 3) turns).get ends).Finished := by
    refine ⟨rfl, rfl, fun idx => ?_⟩
    cases idx with
    | zero => exact Or.inl rfl
    | succ idx => exact Or.inr rfl
  exact ⟨_, ran, finished, rfl, once, rfl, closed finished⟩

end Threads

end MiniCoin
