import MiniCoin.DescriptorTables
import Mathlib.Data.List.Perm.Subperm
import Mathlib.Logic.Relation

/-!
# Custody of descriptors

A server keeps the connections of a process in slots. What was opened is in flight until it gets a
slot or is dropped; each slot has a reader, which marks its slot and closes it when its connection
ends; a stopper first shuts the listening socket down, so that nothing is opened any more, and then
closes the slots that are not marked. The reader and the stopper may both close one slot.

No descriptor is closed that stands for something else, nothing is closed twice, and what is still
open has a keeper.
-/

namespace Custody

open DescriptorTables Relation
open scoped List

/-- The system calls whose descriptor more than one thread uses. Only `close`
changes what the descriptor stands for. -/
inductive Kind where
  | accept
  | read
  | write
  | close
  deriving DecidableEq

/-- A system call for a link, what its descriptor stood for then, and whether
the stopper had begun. -/
structure Deed where
  kind : Kind
  link : Link
  hit : Option Nat
  stopping : Bool

/-- What has been closed, in order. A `close` that found nothing closes
nothing. -/
def closings (deeds : List Deed) : List Nat :=
  deeds.filterMap fun deed => if deed.kind = .close then deed.hit else none

/-- The call reached what was meant. A write may also come after the connection
was closed, and once the stopper has begun a call may reach nothing. -/
def Right (before : List Deed) (deed : Deed) : Prop :=
  deed.hit = some deed.link.thing ∨
    if deed.kind = .write then deed.link.thing ∈ closings before else deed.hit = none ∧ deed.stopping = true

/-- A link that has been registered, and its flag. The flag is cleared by the
reader and by the stopper, whoever comes first. -/
structure Slot where
  link : Link
  active : Bool

/-- The flag cleared. The link stays, so a late caller still has its
descriptor. -/
def Slot.mark (slot : Slot) : Slot := { slot with active := false }

/-- The reader of a slot: not yet created, at work, about to close its
connection, or gone. Between the flag and the `close` there is a step, in which
the stopper may get ahead. -/
inductive Phase where
  | unborn
  | busy
  | closing
  | ended
  deriving DecidableEq

/-- The stopper has not begun, has begun, has shut the listening socket down,
has closed it. -/
inductive Stage where
  | serving
  | halted
  | shut
  | closed
  deriving DecidableEq

/-- From the shutdown of the listening socket on, no new connection can be
obtained. -/
def Stage.isShut : Stage → Bool
  | serving | halted => false
  | shut | closed => true

/-- `aim` is the slot that the stopper has found active, and whether it has
marked it. -/
structure State where
  table : Table
  capacity : Nat
  slots : List Slot
  server : Link
  stage : Stage
  flights : List Link
  creators : List Nat
  phase : Nat → Phase
  aim : Option (Nat × Bool)
  deeds : List Deed

namespace State

/-- A call is recorded with what its descriptor stands for at this moment. -/
def does (state : State) (kind : Kind) (link : Link) : State :=
  { state with deeds := state.deeds ++ [⟨kind, link, state.table.entry link.fd, decide (state.stage ≠ .serving)⟩] }

/-- A `close` also frees the descriptor, which the kernel may then give out
again. -/
def closes (state : State) (link : Link) : State :=
  { state.does .close link with table := state.table.closes link.fd }

/-- What somebody has to close: the listening socket, what is in flight, and
what has a slot. -/
def kept (state : State) : List Nat :=
  state.server.thing :: (state.flights.map Link.thing ++ state.slots.map (·.link.thing))

end State

/-- What happens to descriptors. A premise that mentions the stage or the phase
is a fact of the threads that they check or that their order of statements
gives. -/
inductive Step (state : State) : State → Prop
  | opens (fd : Nat) (flights : List Link) (free : state.table.entry fd = none)
      (unshut : state.stage.isShut = false) (obtained : flights.Perm (⟨fd, state.table.count⟩ :: state.flights)) :
      Step state { state with table := state.table.opens fd, flights := flights }
  | drops (link : Link) (flights : List Link) (had : state.flights.Perm (link :: flights)) :
      Step state { state.closes link with flights := flights }
  | registers (link : Link) (flights : List Link) (creators : List Nat)
      (room : state.slots.length < state.capacity) (had : state.flights.Perm (link :: flights))
      (gets : creators.Perm (state.slots.length :: state.creators)) :
      Step state { state with slots := state.slots ++ [⟨link, true⟩], flights := flights, creators := creators }
  | creates (idx : Nat) (creators : List Nat) (had : state.creators.Perm (idx :: creators)) :
      Step state { state with phase := Function.update state.phase idx .busy, creators := creators }
  | accepts : Step state (state.does .accept state.server)
  | writes (slot : Slot) (member : slot ∈ state.slots) : Step state (state.does .write slot.link)
  | reads (idx : Nat) (slot : Slot) (there : state.slots[idx]? = some slot) (busy : state.phase idx = .busy) :
      Step state (state.does .read slot.link)
  | leaves (idx : Nat) (busy : state.phase idx = .busy) :
      Step state { state with phase := Function.update state.phase idx .ended }
  | marks (idx : Nat) (busy : state.phase idx = .busy) :
      Step state { state with
        slots := state.slots.modify idx Slot.mark
        phase := Function.update state.phase idx .closing }
  | ends (idx : Nat) (slot : Slot) (there : state.slots[idx]? = some slot) (closing : state.phase idx = .closing) :
      Step state { state.closes slot.link with phase := Function.update state.phase idx .ended }
  | halts (serving : state.stage = .serving) : Step state { state with stage := .halted }
  | shuts (halted : state.stage = .halted) : Step state { state with stage := .shut }
  | closes (shut : state.stage = .shut) : Step state { state.closes state.server with stage := .closed }
  | aims (idx : Nat) (slot : Slot) (there : state.slots[idx]? = some slot) (active : slot.active = true)
      (closed : state.stage = .closed) (free : state.aim = none) : Step state { state with aim := some (idx, false) }
  | hits (idx : Nat) (aim : state.aim = some (idx, false)) :
      Step state { state with slots := state.slots.modify idx Slot.mark, aim := some (idx, true) }
  | stops (idx : Nat) (slot : Slot) (there : state.slots[idx]? = some slot) (aim : state.aim = some (idx, true)) :
      Step state { state.closes slot.link with aim := none }

/-- With the listening socket only. -/
def start (capacity fd : Nat) : State where
  table := (⟨fun _ => none, 0⟩ : Table).opens fd
  capacity := capacity
  slots := []
  server := ⟨fd, 0⟩
  stage := .serving
  flights := []
  creators := []
  phase := fun _ => .unborn
  aim := none
  deeds := []

variable {state next : State}

/-! ## The invariant -/

/-- A slot and its reader. If the connection is gone, only those can still use
the descriptor whose next call finds nothing there. -/
structure SlotKept (state : State) (idx : Nat) (slot : Slot) : Prop where
  known : state.table.Holds slot.link ∨ state.table.Gone slot.link.thing
  active : slot.active = true → state.table.Holds slot.link
  lost : state.table.Gone slot.link.thing →
    state.phase idx = .ended ∨ state.stage.isShut = true ∧ state.table.entry slot.link.fd = none
  marked : slot.active = false →
    state.table.Gone slot.link.thing ∨ state.phase idx = .closing ∨ ∃ done, state.aim = some (idx, done)
  closing : state.phase idx = .closing → slot.active = false
  aimed : ∀ done, state.aim = some (idx, done) →
    (state.table.Holds slot.link ∨ state.table.entry slot.link.fd = none) ∧ (done = true → slot.active = false)

/-- The invariant. Whoever has to close a connection is counted in `kept`, each
connection once, and what is open belongs to someone. -/
structure Kept (state : State) : Prop where
  sound : state.table.Sound
  bounded : state.slots.length ≤ state.capacity
  nodup : state.kept.Nodup
  kept : ∀ fd thing, state.table.entry fd = some thing → thing ∈ state.kept
  old : ∀ thing ∈ state.kept, thing < state.table.count
  served : state.stage ≠ .closed → state.table.Holds state.server
  closed : state.stage = .closed → state.table.entry state.server.fd = none ∧ state.table.Gone state.server.thing
  flying : ∀ link ∈ state.flights, state.table.Holds link
  slot : ∀ idx slot, state.slots[idx]? = some slot → SlotKept state idx slot
  creators : state.creators.Nodup
  created : ∀ idx ∈ state.creators, idx < state.slots.length ∧ state.phase idx = .unborn
  unborn : ∀ idx, state.slots.length ≤ idx → state.phase idx = .unborn
  aimed : ∀ idx done, state.aim = some (idx, done) → state.stage = .closed ∧ idx < state.slots.length

/-- The calls so far, and what they have closed. Every call is right, what is
closed is what was opened and is gone, and nothing is closed twice. -/
structure Recorded (table : Table) (deeds : List Deed) : Prop where
  right : ∀ before deed after, deeds = before ++ deed :: after → Right before deed
  closed : ∀ thing, thing ∈ closings deeds ↔ thing < table.count ∧ table.Gone thing
  once : (closings deeds).Nodup

/-! ## The record -/

/-- One more call adds what it closed, if it closed something. -/
theorem closings_append (deeds : List Deed) (deed : Deed) :
    closings (deeds ++ [deed]) = closings deeds ++ if deed.kind = .close then deed.hit.toList else [] := by
  rw [closings, List.filterMap_append]
  congr 1
  by_cases close : deed.kind = .close
  · cases hit : deed.hit <;> simp [close, hit]
  · simp [close]

variable {table : Table} {deeds : List Deed} {deed : Deed} {link : Link}

/-- The last call, or one before it. -/
theorem right_append (right : ∀ before one after, deeds = before ++ one :: after → Right before one)
    (new : Right deeds deed) :
    ∀ before one after, deeds ++ [deed] = before ++ one :: after → Right before one := by
  intro before one after cut
  rcases List.eq_nil_or_concat' after with rfl | ⟨rest, last, rfl⟩
  · obtain ⟨rfl, same⟩ := List.append_inj' cut rfl
    rw [← List.singleton_inj.mp same]
    exact new
  · rw [← List.cons_append, ← List.append_assoc] at cut
    obtain ⟨same, -⟩ := List.append_inj' cut rfl
    exact right before one rest same

/-- A new connection has a number that no call has closed. -/
theorem Recorded.opens (recorded : Recorded table deeds) (fd : Nat) (free : table.entry fd = none) :
    Recorded (table.opens fd) deeds := by
  refine ⟨recorded.right, fun thing => ?_, recorded.once⟩
  rw [recorded.closed]
  constructor
  · rintro ⟨old, gone⟩
    exact ⟨Nat.lt_succ_of_lt old, gone.opens old fd⟩
  · rintro ⟨old, gone⟩
    obtain ⟨before, other⟩ := Table.gone_of_opens free gone
    have below : thing < table.count + 1 := old
    exact ⟨by omega, before⟩

/-- A call that closes nothing. -/
theorem Recorded.does (recorded : Recorded table deeds) (right : Right deeds deed)
    (nothing : deed.kind = .close → deed.hit = none) : Recorded table (deeds ++ [deed]) := by
  have same : closings (deeds ++ [deed]) = closings deeds := by
    rw [closings_append]
    split_ifs with close
    · rw [nothing close]
      exact List.append_nil _
    · exact List.append_nil _
  refine ⟨right_append recorded.right right, ?_, ?_⟩
  · rw [same]
    exact recorded.closed
  · rw [same]
    exact recorded.once

/-- A `close` of what is held closes it for the first time. -/
theorem Recorded.closes (recorded : Recorded table deeds) (sound : table.Sound) (holds : table.Holds link)
    (close : deed.kind = .close) (hit : deed.hit = some link.thing) (own : deed.link = link) :
    Recorded (table.closes link.fd) (deeds ++ [deed]) := by
  have more : closings (deeds ++ [deed]) = closings deeds ++ [link.thing] := by
    rw [closings_append, if_pos close, hit]
    rfl
  refine ⟨right_append recorded.right (Or.inl (by rw [hit, own])), fun thing => ?_, ?_⟩
  · rw [more, List.mem_append, List.mem_singleton, recorded.closed]
    constructor
    · rintro (⟨old, gone⟩ | rfl)
      · exact ⟨old, gone.closes link.fd⟩
      · exact ⟨sound.old link.fd link.thing holds, Table.gone_closed sound holds⟩
    · rintro ⟨old, gone⟩
      exact (Table.gone_of_closes holds gone).imp (fun before => ⟨old, before⟩) id
  · rw [more, List.nodup_append]
    refine ⟨recorded.once, List.nodup_singleton _, ?_⟩
    rintro thing closed other here rfl
    rw [List.mem_singleton.mp here, recorded.closed] at closed
    exact holds.not_gone closed.2

/-! ## Slots -/

/-- What leaves a slot, its reader and the stopper as they are with respect to
it. -/
theorem SlotKept.alike {idx : Nat} {slot : Slot} (kept : SlotKept state idx slot)
    (holds : state.table.Holds slot.link → next.table.Holds slot.link)
    (gone : next.table.Gone slot.link.thing ↔ state.table.Gone slot.link.thing)
    (free : state.stage.isShut = true → state.table.entry slot.link.fd = none →
      next.table.entry slot.link.fd = none)
    (stage : state.stage.isShut = true → next.stage.isShut = true)
    (ended : state.phase idx = .ended → next.phase idx = .ended)
    (closing : next.phase idx = .closing ↔ state.phase idx = .closing)
    (aim : ∀ done, next.aim = some (idx, done) ↔ state.aim = some (idx, done))
    (aimed : state.aim ≠ none → state.stage.isShut = true) : SlotKept next idx slot := by
  constructor
  · exact kept.known.imp holds gone.mpr
  · intro active
    exact holds (kept.active active)
  · intro lost
    rcases kept.lost (gone.mp lost) with lost | ⟨shut, unused⟩
    · exact Or.inl (ended lost)
    · exact Or.inr ⟨stage shut, free shut unused⟩
  · intro marked
    rcases kept.marked marked with lost | now | ⟨done, now⟩
    · exact Or.inl (gone.mpr lost)
    · exact Or.inr (Or.inl (closing.mpr now))
    · exact Or.inr (Or.inr ⟨done, (aim done).mpr now⟩)
  · intro now
    exact kept.closing (closing.mp now)
  · intro done now
    have before := (aim done).mp now
    obtain ⟨reached, marked⟩ := kept.aimed done before
    exact ⟨reached.imp holds (free (aimed (by simp [before]))), marked⟩

/-- A link with another thing is closed. -/
theorem SlotKept.closes {idx : Nat} {slot : Slot} (kept : SlotKept state idx slot) (held : state.table.Holds link)
    (different : slot.link.thing ≠ link.thing) (table : next.table = state.table.closes link.fd)
    (stage : state.stage.isShut = true → next.stage.isShut = true)
    (phase : next.phase idx = state.phase idx)
    (aim : ∀ done, next.aim = some (idx, done) ↔ state.aim = some (idx, done))
    (aimed : state.aim ≠ none → state.stage.isShut = true) : SlotKept next idx slot := by
  refine kept.alike ?_ ?_ ?_ stage (by rw [phase]; exact id) (by rw [phase]) aim aimed
  · rw [table]
    exact fun holds => holds.closes held different
  · rw [table]
    exact Table.gone_closes_iff held different
  · rw [table]
    exact fun _ => Table.entry_closes

/-- A slot after a mark, and what it was before. -/
theorem getElem?_marked {slots : List Slot} {idx one : Nat} {slot : Slot}
    (there : (slots.modify idx Slot.mark)[one]? = some slot) :
    ∃ before, slots[one]? = some before ∧ slot = if one = idx then before.mark else before := by
  rw [List.getElem?_modify] at there
  obtain ⟨before, was, rfl⟩ := Option.map_eq_some_iff.mp there
  exact ⟨before, was, by simp only [eq_comm]⟩

/-- A mark changes no link. -/
theorem map_marked (slots : List Slot) (idx : Nat) :
    (slots.modify idx Slot.mark).map (·.link.thing) = slots.map (·.link.thing) := by
  refine List.ext_getElem? fun one => ?_
  rw [List.getElem?_map, List.getElem?_map, List.getElem?_modify]
  cases slots[one]? with
  | none => rfl
  | some slot =>
    by_cases same : idx = one
    · simp [same, Slot.mark]
    · simp [same]

/-! ## What each step keeps -/

/-- At the start only the listening socket is open, and it belongs to the
stopper. -/
theorem kept_start (capacity fd : Nat) : Kept (start capacity fd) := by
  have holds := Table.holds_opened ⟨fun _ => none, 0⟩ fd
  constructor
  case sound => exact Table.Sound.opens ⟨fun _ _ _ here => (by cases here), fun _ _ here => (by cases here)⟩ fd
  case bounded => exact Nat.zero_le _
  case nodup => exact List.nodup_singleton _
  case kept =>
    intro one thing here
    simp only [start, Table.opens, Function.update_apply] at here
    split_ifs at here
    obtain rfl := Option.some.inj here
    exact List.mem_cons_self
  case old =>
    intro thing member
    rw [List.mem_singleton.mp member]
    exact Nat.zero_lt_one
  case served => exact fun _ => holds
  case closed => exact fun closed => by cases closed
  case flying => exact fun link member => by cases member
  case slot => exact fun idx slot there => by simp [start] at there
  case creators => exact List.nodup_nil
  case created => exact fun idx member => by cases member
  case unborn => exact fun _ _ => rfl
  case aimed => exact fun idx done aim => by cases aim

/-- The stopper aims at slots only when the listening socket is closed. -/
theorem Kept.shut (kept : Kept state) (aim : state.aim ≠ none) : state.stage.isShut = true := by
  obtain ⟨⟨idx, done⟩, same⟩ := Option.ne_none_iff_exists'.mp aim
  rw [(kept.aimed idx done same).1]
  rfl

/-- The link of a slot is among those to be closed. -/
theorem mem_things {idx : Nat} {slot : Slot} (there : state.slots[idx]? = some slot) :
    slot.link.thing ∈ state.slots.map (·.link.thing) :=
  List.mem_map.mpr ⟨slot, List.mem_of_getElem? there, rfl⟩

/-- A link among those in flight comes first. -/
theorem flights_perm {flights others : List Link} (server : Nat) (slots : List Nat)
    (perm : flights.Perm (link :: others)) :
    (server :: (flights.map Link.thing ++ slots)).Perm
      (link.thing :: server :: (others.map Link.thing ++ slots)) := by
  have moved : (flights.map Link.thing ++ slots).Perm (link.thing :: (others.map Link.thing ++ slots)) :=
    (perm.map Link.thing).append_right slots
  exact (moved.cons server).trans (List.Perm.swap _ _ _)

/-- A record alone changes nothing. -/
theorem kept_does (kept : Kept state) (kind : Kind) (link : Link) : Kept (state.does kind link) where
  sound := kept.sound
  bounded := kept.bounded
  nodup := kept.nodup
  kept := kept.kept
  old := kept.old
  served := kept.served
  closed := kept.closed
  flying := kept.flying
  slot idx slot there := (kept.slot idx slot there).alike id Iff.rfl (fun _ => id) id id Iff.rfl (fun _ => Iff.rfl)
    kept.shut
  creators := kept.creators
  created := kept.created
  unborn := kept.unborn
  aimed := kept.aimed

/-- A new connection is in flight. A slot may still name its descriptor from
before, but then the reader of that slot has ended, because the listening socket
is not shut. -/
theorem kept_opens (kept : Kept state) (fd : Nat) (flights : List Link) (free : state.table.entry fd = none)
    (unshut : state.stage.isShut = false) (obtained : flights.Perm (⟨fd, state.table.count⟩ :: state.flights)) :
    Kept { state with table := state.table.opens fd, flights := flights } := by
  have perm : State.kept { state with table := state.table.opens fd, flights := flights } ~
      state.table.count :: state.kept := flights_perm _ _ obtained
  have opened : state.stage ≠ .closed := by
    intro closed
    rw [closed] at unshut
    cases unshut
  constructor
  case sound => exact kept.sound.opens fd
  case bounded => exact kept.bounded
  case nodup =>
    rw [perm.nodup_iff, List.nodup_cons]
    exact ⟨fun member => Nat.lt_irrefl _ (kept.old _ member), kept.nodup⟩
  case kept =>
    intro one thing here
    rw [perm.mem_iff, List.mem_cons]
    simp only [Table.opens, Function.update_apply] at here
    split_ifs at here
    · exact Or.inl (Option.some.inj here).symm
    · exact Or.inr (kept.kept one thing here)
  case old =>
    intro thing member
    rcases List.mem_cons.mp (perm.mem_iff.mp member) with rfl | before
    · exact Nat.lt_succ_self _
    · exact Nat.lt_succ_of_lt (kept.old thing before)
  case served => exact fun _ => (kept.served opened).opens free
  case closed => exact fun closed => absurd closed opened
  case flying =>
    intro link member
    rcases List.mem_cons.mp (obtained.mem_iff.mp member) with rfl | before
    · exact Table.holds_opened state.table fd
    · exact (kept.flying link before).opens free
  case slot =>
    intro idx slot there
    have old : slot.link.thing < state.table.count :=
      kept.old _ (List.mem_cons_of_mem _ (List.mem_append_right _ (mem_things there)))
    refine (kept.slot idx slot there).alike (fun holds => holds.opens free) (Table.gone_opens_iff free old) ?_
      id id Iff.rfl (fun _ => Iff.rfl) kept.shut
    intro shut
    rw [shut] at unshut
    cases unshut
  case creators => exact kept.creators
  case created => exact kept.created
  case unborn => exact kept.unborn
  case aimed => exact kept.aimed

/-- A connection in flight may be closed, and is then in nobody's care. -/
theorem kept_drops (kept : Kept state) (flights : List Link) (had : state.flights.Perm (link :: flights)) :
    Kept { state.closes link with flights := flights } := by
  have perm : state.kept ~ link.thing :: State.kept { state with flights := flights } := flights_perm _ _ had
  have nodup := perm.nodup_iff.mp kept.nodup
  obtain ⟨apart, others⟩ := List.nodup_cons.mp nodup
  have holds : state.table.Holds link := kept.flying link (had.mem_iff.mpr List.mem_cons_self)
  constructor
  case sound => exact kept.sound.closes link.fd
  case bounded => exact kept.bounded
  case nodup => exact others
  case kept =>
    intro one thing here
    simp only [State.closes, Table.closes, Function.update_apply] at here
    split_ifs at here with same
    rcases List.mem_cons.mp (perm.mem_iff.mp (kept.kept one thing here)) with rfl | member
    · exact absurd (kept.sound.single one link.fd link.thing here holds) same
    · exact member
  case old => exact fun thing member => kept.old thing (perm.mem_iff.mpr (List.mem_cons_of_mem _ member))
  case served =>
    intro serving
    refine (kept.served serving).closes holds ?_
    intro same
    exact apart (same ▸ List.mem_cons_self)
  case closed =>
    intro closed
    obtain ⟨free, gone⟩ := kept.closed closed
    exact ⟨Table.entry_closes free, gone.closes link.fd⟩
  case flying =>
    intro other member
    refine (kept.flying other (had.mem_iff.mpr (List.mem_cons_of_mem _ member))).closes holds ?_
    intro same
    exact apart (same ▸ List.mem_cons_of_mem _ (List.mem_append_left _ (List.mem_map_of_mem member)))
  case slot =>
    intro idx slot there
    refine (kept.slot idx slot there).closes holds ?_ rfl id rfl (fun _ => Iff.rfl) kept.shut
    intro same
    exact apart (same ▸ List.mem_cons_of_mem _ (List.mem_append_right _ (mem_things there)))
  case creators => exact kept.creators
  case created => exact kept.created
  case unborn => exact kept.unborn
  case aimed => exact kept.aimed

/-- Or it may be registered. It passes from the flights to the slots, and its
reader is yet to be created. -/
theorem kept_registers (kept : Kept state) (flights : List Link) (creators : List Nat)
    (room : state.slots.length < state.capacity) (had : state.flights.Perm (link :: flights))
    (gets : creators.Perm (state.slots.length :: state.creators)) :
    Kept { state with slots := state.slots ++ [⟨link, true⟩], flights := flights, creators := creators } := by
  have holds : state.table.Holds link := kept.flying link (had.mem_iff.mpr List.mem_cons_self)
  have perm : State.kept { state with slots := state.slots ++ [⟨link, true⟩], flights := flights, creators := creators } ~
      state.kept := by
    refine List.Perm.trans ?_ (flights_perm _ _ had).symm
    simp only [State.kept, List.map_append, List.map_cons, List.map_nil, ← List.append_assoc]
    exact ((List.perm_append_singleton _ _).cons _).trans (List.Perm.swap _ _ _)
  constructor
  case sound => exact kept.sound
  case bounded =>
    rw [List.length_append]
    exact room
  case nodup => exact perm.nodup_iff.mpr kept.nodup
  case kept => exact fun one thing here => perm.mem_iff.mpr (kept.kept one thing here)
  case old => exact fun thing member => kept.old thing (perm.mem_iff.mp member)
  case served => exact kept.served
  case closed => exact kept.closed
  case flying => exact fun other member => kept.flying other (had.mem_iff.mpr (List.mem_cons_of_mem _ member))
  case slot =>
    intro idx slot there
    rcases Nat.lt_or_ge idx state.slots.length with before | new
    · rw [List.getElem?_append_left before] at there
      exact (kept.slot idx slot there).alike id Iff.rfl (fun _ => id) id id Iff.rfl (fun _ => Iff.rfl) kept.shut
    · have unborn := kept.unborn idx new
      rw [List.getElem?_append_right new, List.getElem?_singleton] at there
      split_ifs at there
      obtain rfl := Option.some.inj there
      constructor
      case known => exact Or.inl holds
      case active => exact fun _ => holds
      case lost => exact fun gone => absurd gone holds.not_gone
      case marked => exact fun unmarked => absurd unmarked (by simp)
      case closing =>
        intro closing
        rw [unborn] at closing
        cases closing
      case aimed => exact fun done aim => absurd (kept.aimed idx done aim).2 (by omega)
  case creators =>
    rw [gets.nodup_iff, List.nodup_cons]
    exact ⟨fun member => Nat.lt_irrefl _ (kept.created _ member).1, kept.creators⟩
  case created =>
    intro idx member
    rw [List.length_append]
    rcases List.mem_cons.mp (gets.mem_iff.mp member) with rfl | before
    · exact ⟨Nat.lt_succ_self _, kept.unborn _ (Nat.le_refl _)⟩
    · exact ⟨Nat.lt_succ_of_lt (kept.created idx before).1, (kept.created idx before).2⟩
  case unborn =>
    intro idx new
    rw [List.length_append] at new
    exact kept.unborn idx (Nat.le_of_succ_le new)
  case aimed =>
    intro idx done aim
    obtain ⟨closed, before⟩ := kept.aimed idx done aim
    exact ⟨closed, by simpa using Nat.lt_succ_of_lt before⟩

/-- Readers may go on as long as nobody starts or stops closing. -/
theorem kept_phase (kept : Kept state) (phase : Nat → Phase) (creators : List Nat)
    (ended : ∀ idx, state.phase idx = .ended → phase idx = .ended)
    (closing : ∀ idx, phase idx = .closing ↔ state.phase idx = .closing) (nodup : creators.Nodup)
    (created : ∀ idx ∈ creators, idx < state.slots.length ∧ phase idx = .unborn)
    (unborn : ∀ idx, state.slots.length ≤ idx → phase idx = .unborn) :
    Kept { state with phase := phase, creators := creators } where
  sound := kept.sound
  bounded := kept.bounded
  nodup := kept.nodup
  kept := kept.kept
  old := kept.old
  served := kept.served
  closed := kept.closed
  flying := kept.flying
  slot idx slot there := (kept.slot idx slot there).alike id Iff.rfl (fun _ => id) id (ended idx) (closing idx)
    (fun _ => Iff.rfl) kept.shut
  creators := nodup
  created := created
  unborn := unborn
  aimed := kept.aimed

/-- A reader is created once, by the thread that registered the slot. -/
theorem kept_creates (kept : Kept state) (idx : Nat) (creators : List Nat)
    (had : state.creators.Perm (idx :: creators)) :
    Kept { state with phase := Function.update state.phase idx .busy, creators := creators } := by
  obtain ⟨inside, unborn⟩ := kept.created idx (had.mem_iff.mpr List.mem_cons_self)
  obtain ⟨apart, nodup⟩ := List.nodup_cons.mp (had.nodup_iff.mp kept.creators)
  refine kept_phase kept _ creators ?_ ?_ nodup ?_ ?_
  · intro one ended
    have different : one ≠ idx := by
      rintro rfl
      rw [unborn] at ended
      cases ended
    rw [Function.update_of_ne different, ended]
  · intro one
    by_cases here : one = idx
    · simp [here, unborn]
    · rw [Function.update_of_ne here]
  · intro one member
    have different : one ≠ idx := by
      rintro rfl
      exact apart member
    rw [Function.update_of_ne different]
    exact kept.created one (had.mem_iff.mpr (List.mem_cons_of_mem _ member))
  · intro one new
    rw [Function.update_of_ne (by omega)]
    exact kept.unborn one new

/-- A reader that has begun is not one that is to be created, nor one of a later
slot. -/
theorem kept_begun (kept : Kept state) (idx : Nat) (phase : Phase) (begun : state.phase idx ≠ .unborn) :
    (∀ one ∈ state.creators, one < state.slots.length ∧ Function.update state.phase idx phase one = .unborn) ∧
      ∀ one, state.slots.length ≤ one → Function.update state.phase idx phase one = .unborn := by
  have same (one : Nat) (unborn : state.phase one = .unborn) : Function.update state.phase idx phase one = .unborn := by
    have different : one ≠ idx := by
      rintro rfl
      exact begun unborn
    rw [Function.update_of_ne different, unborn]
  exact ⟨fun one member => ⟨(kept.created one member).1, same one (kept.created one member).2⟩,
    fun one new => same one (kept.unborn one new)⟩

/-- A reader may leave without closing, since the stopper closes what is still
active. -/
theorem kept_leaves (kept : Kept state) (idx : Nat) (busy : state.phase idx = .busy) :
    Kept { state with phase := Function.update state.phase idx .ended } := by
  obtain ⟨created, unborn⟩ := kept_begun kept idx .ended (by simp [busy])
  refine kept_phase kept _ state.creators ?_ ?_ kept.creators created unborn
  · intro one ended
    rw [Function.update_apply]
    split_ifs
    · rfl
    · exact ended
  · intro one
    by_cases here : one = idx
    · simp [here, busy]
    · rw [Function.update_of_ne here]

/-- A slot is marked, by its reader or by the stopper. -/
theorem kept_marked (kept : Kept state) (idx : Nat) (phase : Nat → Phase) (aim : Option (Nat × Bool))
    (ended : ∀ one, state.phase one = .ended → phase one = .ended)
    (closing : ∀ one, one ≠ idx → (phase one = .closing ↔ state.phase one = .closing))
    (aims : ∀ one done, aim = some (one, done) →
      ∃ before, state.aim = some (one, before) ∧ (one ≠ idx → before = done))
    (others : ∀ one done, one ≠ idx → state.aim = some (one, done) → aim = some (one, done))
    (reason : phase idx = .closing ∨ ∃ done, aim = some (idx, done))
    (created : ∀ one ∈ state.creators, one < state.slots.length ∧ phase one = .unborn)
    (unborn : ∀ one, state.slots.length ≤ one → phase one = .unborn) :
    Kept { state with slots := state.slots.modify idx Slot.mark, phase := phase, aim := aim } where
  sound := kept.sound
  bounded := by
    rw [List.length_modify]
    exact kept.bounded
  nodup := by
    simp only [State.kept, map_marked]
    exact kept.nodup
  kept := by
    simp only [State.kept, map_marked]
    exact kept.kept
  old := by
    simp only [State.kept, map_marked]
    exact kept.old
  served := kept.served
  closed := kept.closed
  flying := kept.flying
  slot := by
    intro one slot there
    obtain ⟨before, was, rfl⟩ := getElem?_marked there
    have had := kept.slot one before was
    by_cases here : one = idx
    · subst here
      rw [if_pos rfl]
      constructor
      case known => exact had.known
      case active => exact fun active => absurd active (by simp [Slot.mark])
      case lost => exact fun gone => (had.lost gone).imp_left (ended one)
      case marked => exact fun _ => Or.inr reason
      case closing => exact fun _ => rfl
      case aimed =>
        intro done now
        obtain ⟨before, earlier, -⟩ := aims one done now
        exact ⟨(had.aimed before earlier).1, fun _ => rfl⟩
    · rw [if_neg here]
      refine had.alike id Iff.rfl (fun _ => id) id (ended one) (closing one here) (fun done => ⟨?_, others one done here⟩)
        kept.shut
      intro now
      obtain ⟨before, earlier, same⟩ := aims one done now
      rw [earlier, same here]
  creators := kept.creators
  created := by
    rw [List.length_modify]
    exact created
  unborn := by
    rw [List.length_modify]
    exact unborn
  aimed := by
    intro one done now
    obtain ⟨before, earlier, -⟩ := aims one done now
    rw [List.length_modify]
    exact kept.aimed one before earlier

/-- A reader that has lost its peer clears the flag and is about to close. -/
theorem kept_marks (kept : Kept state) (idx : Nat) (busy : state.phase idx = .busy) :
    Kept { state with
      slots := state.slots.modify idx Slot.mark
      phase := Function.update state.phase idx .closing } := by
  obtain ⟨created, unborn⟩ := kept_begun kept idx .closing (by simp [busy])
  refine kept_marked kept idx _ state.aim ?_ ?_ (fun one done now => ⟨done, now, fun _ => rfl⟩)
    (fun _ _ _ => id) (Or.inl (Function.update_self ..)) created unborn
  · intro one ended
    have different : one ≠ idx := by
      rintro rfl
      rw [busy] at ended
      cases ended
    rw [Function.update_of_ne different, ended]
  · intro one different
    rw [Function.update_of_ne different]

/-- The stopper clears the flag of the slot it aims at. -/
theorem kept_hits (kept : Kept state) (idx : Nat) (aim : state.aim = some (idx, false)) :
    Kept { state with slots := state.slots.modify idx Slot.mark, aim := some (idx, true) } := by
  refine kept_marked kept idx state.phase _ (fun _ => id) (fun _ _ => Iff.rfl) ?_ ?_ (Or.inr ⟨true, rfl⟩)
    kept.created kept.unborn
  · intro one done now
    obtain ⟨rfl, rfl⟩ := Prod.mk.inj (Option.some.inj now)
    exact ⟨false, aim, fun other => absurd rfl other⟩
  · intro one done other now
    rw [aim] at now
    exact absurd (Prod.mk.inj (Option.some.inj now)).1.symm other

/-- The stopper finds an active slot. -/
theorem kept_aims (kept : Kept state) (idx : Nat) (slot : Slot) (there : state.slots[idx]? = some slot)
    (active : slot.active = true) (closed : state.stage = .closed) (free : state.aim = none) :
    Kept { state with aim := some (idx, false) } where
  sound := kept.sound
  bounded := kept.bounded
  nodup := kept.nodup
  kept := kept.kept
  old := kept.old
  served := kept.served
  closed := kept.closed
  flying := kept.flying
  slot := by
    intro one other here
    have had := kept.slot one other here
    constructor
    case known => exact had.known
    case active => exact had.active
    case lost => exact had.lost
    case marked =>
      intro marked
      rcases had.marked marked with gone | closing | ⟨done, now⟩
      · exact Or.inl gone
      · exact Or.inr (Or.inl closing)
      · rw [free] at now
        cases now
    case closing => exact had.closing
    case aimed =>
      intro done now
      obtain ⟨rfl, rfl⟩ := Prod.mk.inj (Option.some.inj now)
      obtain rfl : slot = other := Option.some.inj (there.symm.trans here)
      exact ⟨Or.inl (had.active active), fun marked => by cases marked⟩
  creators := kept.creators
  created := kept.created
  unborn := kept.unborn
  aimed := by
    intro one done now
    obtain ⟨rfl, rfl⟩ := Prod.mk.inj (Option.some.inj now)
    exact ⟨closed, (List.getElem?_eq_some_iff.mp there).1⟩

/-- The stopper goes on, with the listening socket still open. -/
theorem kept_stage (kept : Kept state) (stage : Stage) (before : state.stage ≠ .closed) (after : stage ≠ .closed)
    (shut : state.stage.isShut = true → stage.isShut = true) : Kept { state with stage := stage } where
  sound := kept.sound
  bounded := kept.bounded
  nodup := kept.nodup
  kept := kept.kept
  old := kept.old
  served _ := kept.served before
  closed closed := absurd closed after
  flying := kept.flying
  slot idx slot there := (kept.slot idx slot there).alike id Iff.rfl (fun _ => id) shut id Iff.rfl (fun _ => Iff.rfl)
    kept.shut
  creators := kept.creators
  created := kept.created
  unborn := kept.unborn
  aimed idx done aim := absurd (kept.aimed idx done aim).1 before

/-- The stopper closes the listening socket, after which only slots are left to
be closed. -/
theorem kept_closes (kept : Kept state) (shut : state.stage = .shut) :
    Kept { state.closes state.server with stage := .closed } := by
  have opened : state.stage ≠ .closed := by simp [shut]
  have holds := kept.served opened
  have apart := (List.nodup_cons.mp kept.nodup).1
  constructor
  case sound => exact kept.sound.closes _
  case bounded => exact kept.bounded
  case nodup => exact kept.nodup
  case kept =>
    intro one thing here
    simp only [State.closes, Table.closes, Function.update_apply] at here
    split_ifs at here
    exact kept.kept one thing here
  case old => exact kept.old
  case served => exact fun serving => absurd rfl serving
  case closed => exact fun _ => ⟨Table.entry_closed _ _, Table.gone_closed kept.sound holds⟩
  case flying =>
    intro link member
    refine (kept.flying link member).closes holds ?_
    intro same
    exact apart (same ▸ List.mem_append_left _ (List.mem_map_of_mem member))
  case slot =>
    intro idx slot there
    refine (kept.slot idx slot there).closes holds ?_ rfl (fun _ => rfl) rfl (fun _ => Iff.rfl) kept.shut
    intro same
    exact apart (same ▸ List.mem_append_right _ (mem_things there))
  case creators => exact kept.creators
  case created => exact kept.created
  case unborn => exact kept.unborn
  case aimed => exact fun idx done aim => absurd (kept.aimed idx done aim).1 opened

/-- A slot that is marked is closed, by its reader or by the stopper; the other
one may have been there before. -/
theorem kept_closed (kept : Kept state) (idx : Nat) (slot : Slot) (there : state.slots[idx]? = some slot)
    (inactive : slot.active = false) (reached : state.table.Holds slot.link ∨ state.table.entry slot.link.fd = none)
    (phase : Nat → Phase) (aim : Option (Nat × Bool)) (others : ∀ one, one ≠ idx → phase one = state.phase one)
    (lost : phase idx = .ended ∨ state.stage.isShut = true)
    (aims : ∀ one done, aim = some (one, done) → state.aim = some (one, done))
    (stays : ∀ one done, one ≠ idx → state.aim = some (one, done) → aim = some (one, done))
    (created : ∀ one ∈ state.creators, one < state.slots.length ∧ phase one = .unborn)
    (unborn : ∀ one, state.slots.length ≤ one → phase one = .unborn) :
    Kept { state.closes slot.link with phase := phase, aim := aim } := by
  have had := kept.slot idx slot there
  have gone : (state.table.closes slot.link.fd).Gone slot.link.thing := by
    rcases reached with held | free
    · exact Table.gone_closed kept.sound held
    · rw [Table.closes_free free]
      refine had.known.resolve_left fun holds => ?_
      rw [Table.Holds, free] at holds
      cases holds
  have holds (other : Link) (held : state.table.Holds other) (different : other.thing ≠ slot.link.thing) :
      (state.table.closes slot.link.fd).Holds other := by
    rcases reached with own | free
    · exact held.closes own different
    · rw [Table.closes_free free]
      exact held
  have vanished (thing : Nat) (different : thing ≠ slot.link.thing) :
      (state.table.closes slot.link.fd).Gone thing ↔ state.table.Gone thing := by
    rcases reached with own | free
    · exact Table.gone_closes_iff own different
    · rw [Table.closes_free free]
  obtain ⟨apart, rest⟩ := List.nodup_cons.mp kept.nodup
  obtain ⟨-, slots, between⟩ := List.nodup_append.mp rest
  constructor
  case sound => exact kept.sound.closes _
  case bounded => exact kept.bounded
  case nodup => exact kept.nodup
  case kept =>
    intro one thing here
    simp only [State.closes, Table.closes, Function.update_apply] at here
    split_ifs at here
    exact kept.kept one thing here
  case old => exact kept.old
  case served =>
    intro serving
    refine holds _ (kept.served serving) fun same => ?_
    exact apart (same ▸ List.mem_append_right _ (mem_things there))
  case closed =>
    intro closed
    obtain ⟨free, before⟩ := kept.closed closed
    exact ⟨Table.entry_closes free, before.closes _⟩
  case flying =>
    intro link member
    exact holds link (kept.flying link member) (between _ (List.mem_map_of_mem member) _ (mem_things there))
  case slot =>
    intro one other present
    have here : state.slots[one]? = some other := present
    by_cases same : one = idx
    · subst same
      obtain rfl : slot = other := Option.some.inj (there.symm.trans here)
      constructor
      case known => exact Or.inr gone
      case active => exact fun active => absurd active (by simp [inactive])
      case lost => exact fun _ => lost.imp id fun shut => ⟨shut, Table.entry_closed _ _⟩
      case marked => exact fun _ => Or.inl gone
      case closing => exact fun _ => inactive
      case aimed => exact fun done _ => ⟨Or.inr (Table.entry_closed _ _), fun _ => inactive⟩
    · have different : other.link.thing ≠ slot.link.thing := by
        intro equal
        have inside : one < (state.slots.map (·.link.thing)).length := by
          rw [List.length_map]
          exact (List.getElem?_eq_some_iff.mp here).1
        refine same ((List.getElem?_inj inside slots).mp ?_)
        rw [List.getElem?_map, List.getElem?_map, here, there, Option.map_some, Option.map_some, equal]
      have closing : phase one = .closing ↔ state.phase one = .closing := by rw [others one same]
      exact (kept.slot one other here).alike (fun held => holds _ held different) (vanished _ different)
        (fun _ => Table.entry_closes) id (fun ended => (others one same).trans ended) closing
        (fun done => ⟨aims one done, stays one done same⟩) kept.shut
  case creators => exact kept.creators
  case created => exact created
  case unborn => exact unborn
  case aimed => exact fun one done now => kept.aimed one done (aims one done now)

/-- The reader closes its own connection, or finds nothing if the stopper was
faster. -/
theorem kept_ends (kept : Kept state) (idx : Nat) (slot : Slot) (there : state.slots[idx]? = some slot)
    (closing : state.phase idx = .closing) :
    Kept { state.closes slot.link with phase := Function.update state.phase idx .ended } := by
  have had := kept.slot idx slot there
  obtain ⟨created, unborn⟩ := kept_begun kept idx .ended (by simp [closing])
  refine kept_closed kept idx slot there (had.closing closing) ?_ _ state.aim
    (fun one different => Function.update_of_ne different ..) (Or.inl (Function.update_self ..)) (fun _ _ => id)
    (fun _ _ _ => id) created unborn
  refine had.known.imp_right fun gone => ?_
  rcases had.lost gone with ended | ⟨-, free⟩
  · rw [closing] at ended
    cases ended
  · exact free

/-- The stopper closes what it has marked. A reader that cleared the flag in
between has closed the connection already, and then the call finds nothing. -/
theorem kept_stops (kept : Kept state) (idx : Nat) (slot : Slot) (there : state.slots[idx]? = some slot)
    (aim : state.aim = some (idx, true)) : Kept { state.closes slot.link with aim := none } := by
  obtain ⟨reached, inactive⟩ := (kept.slot idx slot there).aimed true aim
  refine kept_closed kept idx slot there (inactive rfl) reached state.phase none (fun _ _ => rfl)
    (Or.inr (kept.shut (by simp [aim]))) (fun one done now => by cases now) (fun one done other now => ?_)
    kept.created kept.unborn
  rw [aim] at now
  exact absurd (Prod.mk.inj (Option.some.inj now)).1.symm other

/-- Every step keeps the invariant. -/
theorem kept_step (kept : Kept state) (stepped : Step state next) : Kept next := by
  cases stepped with
  | opens fd flights free unshut obtained => exact kept_opens kept fd flights free unshut obtained
  | drops link flights had => exact kept_drops kept flights had
  | registers link flights creators room had gets => exact kept_registers kept flights creators room had gets
  | creates idx creators had => exact kept_creates kept idx creators had
  | accepts | writes slot member | reads idx slot there busy => exact kept_does kept _ _
  | leaves idx busy => exact kept_leaves kept idx busy
  | marks idx busy => exact kept_marks kept idx busy
  | ends idx slot there closing => exact kept_ends kept idx slot there closing
  | halts serving => exact kept_stage kept .halted (by simp [serving]) (by simp) (by simp [serving, Stage.isShut])
  | shuts halted => exact kept_stage kept .shut (by simp [halted]) (by simp) (fun _ => rfl)
  | closes shut => exact kept_closes kept shut
  | aims idx slot there active closed free => exact kept_aims kept idx slot there active closed free
  | hits idx aim => exact kept_hits kept idx aim
  | stops idx slot there aim => exact kept_stops kept idx slot there aim

/-! ## What each step records -/

/-- A link is closed that holds, or whose descriptor is not used any more. -/
theorem recorded_closes (kept : Kept state) (recorded : Recorded state.table state.deeds)
    (reached : state.table.Holds link ∨ state.table.entry link.fd = none ∧ state.stage ≠ .serving) :
    Recorded (state.closes link).table (state.closes link).deeds := by
  rcases reached with holds | ⟨free, begun⟩
  · exact recorded.closes kept.sound holds rfl holds rfl
  · have same : (state.closes link).table = state.table := Table.closes_free free
    rw [same]
    exact recorded.does (Or.inr ⟨free, decide_eq_true begun⟩) fun _ => free

/-- A shut socket means that the stopper has begun, as the record says. -/
theorem begun_of_shut (shut : state.stage.isShut = true) : state.stage ≠ .serving := by
  intro serving
  rw [serving] at shut
  cases shut

/-- Every step keeps the record right: a call reaches its own connection,
because the descriptor has not been given out again. -/
theorem recorded_step (kept : Kept state) (recorded : Recorded state.table state.deeds) (stepped : Step state next) :
    Recorded next.table next.deeds := by
  cases stepped with
  | opens fd flights free unshut obtained => exact recorded.opens fd free
  | drops link flights had =>
    exact recorded_closes kept recorded (Or.inl (kept.flying link (had.mem_iff.mpr List.mem_cons_self)))
  | registers | creates | leaves | marks | halts | shuts | aims | hits => exact recorded
  | accepts =>
    refine recorded.does ?_ fun close => by cases close
    by_cases closed : state.stage = .closed
    · exact Or.inr ⟨(kept.closed closed).1, by simp [closed]⟩
    · exact Or.inl (kept.served closed)
  | writes slot member =>
    refine recorded.does ?_ fun close => by cases close
    obtain ⟨idx, there⟩ := List.mem_iff_getElem?.mp member
    refine (kept.slot idx slot there).known.imp id fun gone => ?_
    have old : slot.link.thing < state.table.count :=
      kept.old _ (List.mem_cons_of_mem _ (List.mem_append_right _ (mem_things there)))
    exact (recorded.closed _).mpr ⟨old, gone⟩
  | reads idx slot there busy =>
    refine recorded.does ?_ fun close => by cases close
    refine (kept.slot idx slot there).known.imp id fun gone => ?_
    rcases (kept.slot idx slot there).lost gone with ended | ⟨shut, free⟩
    · rw [busy] at ended
      cases ended
    · exact ⟨free, decide_eq_true (begun_of_shut shut)⟩
  | ends idx slot there closing =>
    refine recorded_closes kept recorded ((kept.slot idx slot there).known.imp id fun gone => ?_)
    rcases (kept.slot idx slot there).lost gone with ended | ⟨shut, free⟩
    · rw [closing] at ended
      cases ended
    · exact ⟨free, begun_of_shut shut⟩
  | closes shut => exact recorded_closes kept recorded (Or.inl (kept.served (by simp [shut])))
  | stops idx slot there aim =>
    have begun := begun_of_shut (kept.shut (by simp [aim]))
    exact recorded_closes kept recorded (((kept.slot idx slot there).aimed true aim).1.imp id fun free => ⟨free, begun⟩)

/-! ## Runs -/

/-- The record starts empty. -/
theorem recorded_start (capacity fd : Nat) : Recorded (start capacity fd).table (start capacity fd).deeds where
  right := by
    intro before deed after cut
    simp [start] at cut
  closed := by
    intro thing
    refine iff_of_false List.not_mem_nil fun ⟨old, gone⟩ => gone fd ?_
    obtain rfl : thing = 0 := Nat.lt_one_iff.mp old
    exact Table.holds_opened ⟨fun _ => none, 0⟩ fd
  once := List.nodup_nil

/-- So both hold of whatever can be reached. -/
theorem kept_steps {capacity fd : Nat} (steps : ReflTransGen Step (start capacity fd) state) :
    Kept state ∧ Recorded state.table state.deeds := by
  induction steps with
  | refl => exact ⟨kept_start capacity fd, recorded_start capacity fd⟩
  | tail _ stepped ih => exact ⟨kept_step ih.1 stepped, recorded_step ih.1 ih.2 stepped⟩

/-- What was opened has been closed, or somebody has to close it. -/
theorem closed_or_kept (kept : Kept state) (recorded : Recorded state.table state.deeds) (thing : Nat)
    (old : thing < state.table.count) :
    thing ∈ closings state.deeds ∨ thing ∈ state.kept ∧ ¬ state.table.Gone thing := by
  by_cases gone : state.table.Gone thing
  · exact Or.inl ((recorded.closed thing).mpr ⟨old, gone⟩)
  · have there := gone
    simp only [Table.Gone, not_forall, not_not] at there
    obtain ⟨fd, entry⟩ := there
    exact Or.inr ⟨kept.kept fd thing entry, gone⟩

/-- Every connection that was ever opened has been closed or is in somebody's
care, so none is forgotten. -/
theorem count_le (kept : Kept state) (recorded : Recorded state.table state.deeds) :
    state.table.count ≤ (closings state.deeds).length + state.kept.length := by
  have within : List.range state.table.count ⊆ closings state.deeds ++ state.kept := by
    intro thing member
    refine List.mem_append.mpr ?_
    exact (closed_or_kept kept recorded thing (List.mem_range.mp member)).imp id And.left
  have size := (List.subperm_of_subset List.nodup_range within).length_le
  rwa [List.length_range, List.length_append] at size

/-- When all have ended, only a slot that is not marked can still be open. -/
theorem closed_or_active (kept : Kept state) (recorded : Recorded state.table state.deeds)
    (closed : state.stage = .closed) (landed : state.flights = []) (stopped : state.aim = none)
    (ended : ∀ idx, state.phase idx ≠ .closing) (thing : Nat) (old : thing < state.table.count) :
    thing ∈ closings state.deeds ∨ ∃ slot ∈ state.slots, slot.link.thing = thing ∧ slot.active = true := by
  refine (closed_or_kept kept recorded thing old).imp id fun ⟨member, present⟩ => ?_
  rw [State.kept, landed, List.map_nil, List.nil_append, List.mem_cons] at member
  rcases member with rfl | member
  · exact absurd (kept.closed closed).2 present
  · obtain ⟨slot, here, rfl⟩ := List.mem_map.mp member
    refine ⟨slot, here, rfl, ?_⟩
    obtain ⟨idx, there⟩ := List.mem_iff_getElem?.mp here
    cases active : slot.active with
    | true => rfl
    | false =>
      rcases (kept.slot idx slot there).marked active with gone | closing | ⟨done, aim⟩
      · exact absurd gone present
      · exact absurd closing (ended idx)
      · rw [stopped] at aim
        cases aim

end Custody
