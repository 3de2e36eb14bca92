import MiniCoin.Descriptors
import MiniCoin.Exclusion

/-!
# The lock of the peer table

The critical sections of `peers_lock` that last longer than a step are those of the two broadcasts,
which send inside, of `do_network_status`, which prints inside, and of `node_stop`. At most one
thread is in such a section, so `add_peer` gives no slot while a broadcast looks at the table. The
thread inside needs nobody else to go on, if the system calls return: a call of `send` takes some
bytes or fails, and there are `MAX_PEERS` slots at most. So `node_stop`, which waits for nothing but
the lock, returns.

All this is said of the time before `peers_lock` is destroyed. The sockets block, so that a call of
`send` to a peer that reads nothing need not return; how long a call takes is not modelled.
-/

namespace MiniCoin

open Runs Relation

namespace Threads

/-! ## Critical sections -/

/-- A broadcast is inside from its lock to its unlock, over all sends. -/
def Casting.inside : Casting → Bool
  | locking .. => false
  | looking .. | sending .. => true

/-- So is the list of peers, over its prints. -/
def Listing.inside : Listing → Bool
  | locking => false
  | heading | looking _ => true

/-- And `node_stop`, while it goes through the slots. -/
def Stop.inside : Stop → Bool
  | looking _ | clearing _ | closingPeer _ => true
  | halting | shutting | closing | locking | destroying | stopped => false

/-- The main thread is inside in each of the three. -/
def Main.inside : Main → Bool
  | casting call => call.inside
  | listing call => call.inside
  | stopping stop => stop.inside
  | menu | connecting _ | failed _ | adding _ | counting | asking _ => false

/-- A handler is inside only when it forwards. -/
def Handler.inside : Handler → Bool
  | casting call => call.inside
  | unborn | testing | reading _ | handling | answering _ | failed | closing | ended => false

/-- With one byte taken by each call of `send`, which is the slowest that a call
can be. -/
def Casting.stepsLeft (peers : Nat) : Casting → Nat
  | locking .. => 0
  | looking idx _ length => (peers - idx) * (length + 2) + 1
  | sending idx _ left _ length => left + (peers - (idx + 1)) * (length + 2) + 2

/-- One step for each slot, one for the head and one for the unlock. -/
def Listing.stepsLeft (peers : Nat) : Listing → Nat
  | locking => 0
  | heading => peers + 2
  | looking idx => peers - idx + 1

/-- At most three steps for each slot: it is found active, cleared and
closed. -/
def Stop.stepsLeft (peers : Nat) : Stop → Nat
  | looking idx => (peers - idx) * 3 + 1
  | clearing idx => (peers - (idx + 1)) * 3 + 3
  | closingPeer idx => (peers - (idx + 1)) * 3 + 2
  | halting | shutting | closing | locking | destroying | stopped => 0

/-- The bound of the call that the main thread is in. -/
def Main.stepsLeft (peers : Nat) : Main → Nat
  | casting call => call.stepsLeft peers
  | listing call => call.stepsLeft peers
  | stopping stop => stop.stepsLeft peers
  | menu | connecting _ | failed _ | adding _ | counting | asking _ => 0

/-- The bound of the broadcast that the handler is in. -/
def Handler.stepsLeft (peers : Nat) : Handler → Nat
  | casting call => call.stepsLeft peers
  | unborn | testing | reading _ | handling | answering _ | failed | closing | ended => 0

/-- The threads of a node. There is one handler for each slot, also if it has
ended. -/
inductive Thread where
  | main
  | accept
  | handler (idx : Nat)
  deriving DecidableEq

/-- Whose turn it is. -/
def Turn.thread : Turn → Thread
  | main _ => .main
  | accept _ => .accept
  | handler idx _ => .handler idx

namespace State

/-- The thread is in a critical section of `peers_lock`: a broadcast, the list
of peers or `node_stop`. -/
def inside (state : State) : Thread → Bool
  | .main => state.main.inside
  | .accept => false
  | .handler idx => (state.handlers idx).inside

/-- A bound on the steps that it takes there. -/
def stepsLeft (state : State) : Thread → Nat
  | .main => state.main.stepsLeft state.slots.length
  | .accept => 0
  | .handler idx => (state.handlers idx).stepsLeft state.slots.length

/-- What the pattern of a lock needs to see of the node: who is inside, and for
how long. -/
def exclusion (state : State) : Exclusion.View Thread where
  held := decide (state.lock = .held)
  inside := state.inside
  left := state.stepsLeft

end State

variable {state after next : State} {turn : Turn} {fd idx : Nat}

/-! ## Calls -/

/-- A slot that can be read is one of the table. -/
theorem slots_before {slot : Slot} (there : state.slots[idx]? = some slot) : idx < state.slots.length :=
  (List.getElem?_eq_some_iff.mp there).1

/-- What is left for a slot and for those behind it. -/
theorem slots_left {peers : Nat} (before : idx < peers) (each : Nat) :
    (peers - idx) * each = (peers - (idx + 1)) * each + each := by
  rw [show peers - idx = peers - (idx + 1) + 1 by omega, Nat.add_mul, Nat.one_mul]

/-- A call of `send` leaves the lock alone, and the bytes that it has taken are
no longer left. -/
theorem sends_lock {link : DescriptorTables.Link} {left count rest : Nat}
    (sent : state.sends link left count = some (after, rest)) :
    after.lock = state.lock ∧ rest ≤ left ∧ (rest = 0 ∨ rest < left) := by
  unfold State.sends at sent
  split at sent
  case isFalse => cases sent
  case isTrue possible =>
    obtain ⟨rfl, rfl⟩ := Prod.mk.inj (Option.some.inj sent)
    refine ⟨rfl, ?_⟩
    split_ifs <;> omega

/-- A request is sent without the lock. -/
theorem askStep_lock {call : Asking} {outcome : Outcome} {later : Option Asking}
    (stepped : askStep state call outcome = some (after, later)) : after.lock = state.lock := by
  unfold askStep at stepped
  split at stepped
  case h_1 idx =>
    split at stepped <;> obtain ⟨rfl, -⟩ := Prod.mk.inj (Option.some.inj stepped) <;> rfl
  case h_2 link left count =>
    obtain ⟨⟨middle, rest⟩, sent, same⟩ := Option.map_eq_some_iff.mp stepped
    obtain ⟨rfl, -⟩ := Prod.mk.inj same
    exact (sends_lock sent).1
  case h_3 => cases stepped

/-- Nothing of `add_peer` is in a section that lasts. -/
theorem addStep_lock {call : Adding} {outcome : Outcome} {later : Option Adding}
    (stepped : addStep state call outcome = some (after, later)) : after.lock = state.lock := by
  unfold addStep at stepped
  split at stepped
  case h_1 link =>
    split_ifs at stepped <;> obtain ⟨rfl, -⟩ := Prod.mk.inj (Option.some.inj stepped) <;> rfl
  case h_4 outcome link call =>
    obtain ⟨⟨middle, next⟩, asked, same⟩ := Option.map_eq_some_iff.mp stepped
    obtain ⟨rfl, -⟩ := Prod.mk.inj same
    exact askStep_lock asked
  case h_7 link left rest count =>
    obtain ⟨⟨middle, more⟩, sent, same⟩ := Option.map_eq_some_iff.mp stepped
    obtain ⟨rfl, -⟩ := Prod.mk.inj same
    exact (sends_lock sent).1
  case h_8 => cases stepped
  all_goals
    obtain ⟨rfl, -⟩ := Prod.mk.inj (Option.some.inj stepped)
    rfl

/-- A slot is given when the lock is free. -/
theorem addStep_slots {call : Adding} {outcome : Outcome} {later : Option Adding}
    (stepped : addStep state call outcome = some (after, later)) (busy : state.lock ≠ .free) :
    after.slots.length = state.slots.length := by
  cases addStep_added stepped with
  | quiet _ _ quiet => cases quiet <;> rfl
  | drops | creates => rfl
  | registers link place =>
    rw [place] at stepped
    cases outcome <;> simp [addStep, busy] at stepped

/-- A broadcast enters, works and leaves. -/
theorem castStep_passage {call : Casting} {outcome : Outcome} {later : Option Casting}
    (stepped : castStep state call outcome = some (after, later)) :
    Exclusion.Passage ⟨decide (state.lock = .held), call.inside, call.stepsLeft state.slots.length⟩
      ⟨decide (after.lock = .held), later.elim false Casting.inside,
        later.elim 0 (Casting.stepsLeft state.slots.length)⟩ := by
  unfold castStep at stepped
  split at stepped
  case h_1 exclude length =>
    split_ifs at stepped with free
    obtain ⟨rfl, rfl⟩ := Prod.mk.inj (Option.some.inj stepped)
    exact .enters (by simp [free]) rfl rfl rfl
  case h_2 idx exclude length =>
    split at stepped
    · obtain ⟨rfl, rfl⟩ := Prod.mk.inj (Option.some.inj stepped)
      exact .leaves rfl rfl rfl
    · rename_i slot there
      obtain ⟨rfl, rfl⟩ := Prod.mk.inj (Option.some.inj stepped)
      have all := slots_left (slots_before there) (length + 2)
      split_ifs
      · refine .works rfl rfl rfl ?_
        simp only [Option.elim_some, Casting.stepsLeft]
        omega
      · refine .works rfl rfl rfl ?_
        simp only [Option.elim_some, Casting.stepsLeft]
        omega
  case h_3 idx link left exclude length count =>
    obtain ⟨⟨middle, rest⟩, sent, same⟩ := Option.map_eq_some_iff.mp stepped
    obtain ⟨rfl, rfl⟩ := Prod.mk.inj same
    obtain ⟨lock, bound, less⟩ := sends_lock sent
    split_ifs with all
    · refine .works (by simp only [lock]) rfl rfl ?_
      simp only [Option.elim_some, Casting.stepsLeft]
      omega
    · refine .works (by simp only [lock]) rfl rfl ?_
      simp only [Option.elim_some, Casting.stepsLeft]
      omega
  case h_4 => cases stepped

/-- No broadcast destroys the lock. -/
theorem castStep_destroyed {call : Casting} {outcome : Outcome} {later : Option Casting}
    (stepped : castStep state call outcome = some (after, later)) (destroyed : after.lock = .destroyed) :
    state.lock = .destroyed := by
  unfold castStep at stepped
  split at stepped
  case h_1 exclude length =>
    split_ifs at stepped
    obtain ⟨rfl, -⟩ := Prod.mk.inj (Option.some.inj stepped)
    cases destroyed
  case h_2 idx exclude length =>
    split at stepped
    · obtain ⟨rfl, -⟩ := Prod.mk.inj (Option.some.inj stepped)
      cases destroyed
    · obtain ⟨rfl, -⟩ := Prod.mk.inj (Option.some.inj stepped)
      exact destroyed
  case h_3 idx link left exclude length count =>
    obtain ⟨⟨middle, rest⟩, sent, same⟩ := Option.map_eq_some_iff.mp stepped
    obtain ⟨rfl, -⟩ := Prod.mk.inj same
    exact (sends_lock sent).1 ▸ destroyed
  case h_4 => cases stepped

/-- `do_network_status` enters, works and leaves. -/
theorem listStep_passage {call : Listing} {later : Option Listing}
    (stepped : listStep state call = some (after, later)) :
    Exclusion.Passage ⟨decide (state.lock = .held), call.inside, call.stepsLeft state.slots.length⟩
      ⟨decide (after.lock = .held), later.elim false Listing.inside,
        later.elim 0 (Listing.stepsLeft state.slots.length)⟩ := by
  cases call with
  | locking =>
    simp only [listStep] at stepped
    split_ifs at stepped with free
    obtain ⟨rfl, rfl⟩ := Prod.mk.inj (Option.some.inj stepped)
    exact .enters (by simp [free]) rfl rfl rfl
  | heading =>
    obtain ⟨rfl, rfl⟩ := Prod.mk.inj (Option.some.inj stepped)
    refine .works rfl rfl rfl ?_
    simp only [Option.elim_some, Listing.stepsLeft]
    omega
  | looking idx =>
    simp only [listStep] at stepped
    split at stepped
    · obtain ⟨rfl, rfl⟩ := Prod.mk.inj (Option.some.inj stepped)
      exact .leaves rfl rfl rfl
    · rename_i slot there
      obtain ⟨rfl, rfl⟩ := Prod.mk.inj (Option.some.inj stepped)
      have before := slots_before there
      refine .works rfl rfl rfl ?_
      simp only [Option.elim_some, Listing.stepsLeft]
      omega

/-- Neither does the list of peers. -/
theorem listStep_destroyed {call : Listing} {later : Option Listing}
    (stepped : listStep state call = some (after, later)) (destroyed : after.lock = .destroyed) :
    state.lock = .destroyed := by
  cases call with
  | locking =>
    simp only [listStep] at stepped
    split_ifs at stepped
    obtain ⟨rfl, -⟩ := Prod.mk.inj (Option.some.inj stepped)
    cases destroyed
  | heading =>
    obtain ⟨rfl, -⟩ := Prod.mk.inj (Option.some.inj stepped)
    exact destroyed
  | looking idx =>
    simp only [listStep] at stepped
    split at stepped
    · obtain ⟨rfl, -⟩ := Prod.mk.inj (Option.some.inj stepped)
      cases destroyed
    · obtain ⟨rfl, -⟩ := Prod.mk.inj (Option.some.inj stepped)
      exact destroyed

/-- What `node_stop` does in a step. The `close` of the listening socket comes
before the lock, and those of the slots are made while it is held. -/
inductive StopMove (state : State) : Stop → State → Stop → Prop
  | halts : StopMove state .halting { state with running := false } .shutting
  | shuts : StopMove state .shutting { state with listening := false } .closing
  | closes : StopMove state .closing (state.closes state.server) .locking
  | locks (free : state.lock = .free) : StopMove state .locking { state with lock := .held } (.looking 0)
  | unlocks (idx : Nat) : StopMove state (.looking idx) { state with lock := .free } .destroying
  | skips (idx : Nat) (there : idx < state.slots.length) : StopMove state (.looking idx) state (.looking (idx + 1))
  | finds (idx : Nat) (there : idx < state.slots.length) : StopMove state (.looking idx) state (.clearing idx)
  | clears (idx : Nat) : StopMove state (.clearing idx) (state.clears idx) (.closingPeer idx)
  | closesPeer (idx : Nat) (slot : Slot) :
      StopMove state (.closingPeer idx) (state.closes slot.link) (.looking (idx + 1))
  | destroys : StopMove state .destroying
      { state with lock := if state.lock = .free then .destroyed else state.lock } .stopped

/-- A step of `node_stop` is one of these moves. -/
theorem stopStep_move {stop later : Stop} (stepped : stopStep state stop = some (after, later)) :
    StopMove state stop after later := by
  cases stop with
  | halting =>
    obtain ⟨rfl, rfl⟩ := Prod.mk.inj (Option.some.inj stepped)
    exact .halts
  | shutting =>
    obtain ⟨rfl, rfl⟩ := Prod.mk.inj (Option.some.inj stepped)
    exact .shuts
  | closing =>
    obtain ⟨rfl, rfl⟩ := Prod.mk.inj (Option.some.inj stepped)
    exact .closes
  | locking =>
    simp only [stopStep] at stepped
    split_ifs at stepped with free
    obtain ⟨rfl, rfl⟩ := Prod.mk.inj (Option.some.inj stepped)
    exact .locks free
  | looking idx =>
    simp only [stopStep] at stepped
    split at stepped
    · obtain ⟨rfl, rfl⟩ := Prod.mk.inj (Option.some.inj stepped)
      exact .unlocks idx
    · rename_i slot there
      obtain ⟨rfl, rfl⟩ := Prod.mk.inj (Option.some.inj stepped)
      split_ifs
      · exact .finds idx (slots_before there)
      · exact .skips idx (slots_before there)
  | clearing idx =>
    obtain ⟨rfl, rfl⟩ := Prod.mk.inj (Option.some.inj stepped)
    exact .clears idx
  | closingPeer idx =>
    obtain ⟨slot, there, same⟩ := Option.map_eq_some_iff.mp stepped
    obtain ⟨rfl, rfl⟩ := Prod.mk.inj same
    exact .closesPeer idx slot
  | destroying =>
    obtain ⟨rfl, rfl⟩ := Prod.mk.inj (Option.some.inj stepped)
    exact .destroys
  | stopped => cases stepped

/-- A move takes the free lock, comes nearer to the unlock, or stays outside. -/
theorem StopMove.passage {stop later : Stop} (move : StopMove state stop after later) :
    Exclusion.Passage ⟨decide (state.lock = .held), stop.inside, stop.stepsLeft state.slots.length⟩
      ⟨decide (after.lock = .held), later.inside, later.stepsLeft after.slots.length⟩ := by
  cases move with
  | halts | shuts | closes => exact .rests rfl rfl rfl
  | locks free => exact .enters (by simp [free]) rfl rfl rfl
  | unlocks => exact .leaves rfl rfl rfl
  | skips idx there | finds idx there =>
    have all := slots_left there 3
    refine .works rfl rfl rfl ?_
    simp only [Stop.stepsLeft]
    omega
  | clears idx =>
    refine .works rfl rfl rfl ?_
    simp only [Stop.stepsLeft, State.clears, List.length_modify]
    omega
  | closesPeer idx slot =>
    refine .works rfl rfl rfl ?_
    simp only [Stop.stepsLeft, State.closes, State.does]
    omega
  | destroys =>
    refine .rests ?_ rfl rfl
    by_cases free : state.lock = .free <;> simp [free]

/-- The lock is destroyed by the last move only. -/
theorem StopMove.destroyed {stop later : Stop} (move : StopMove state stop after later)
    (destroyed : after.lock = .destroyed) : state.lock = .destroyed ∨ later = .stopped := by
  cases move with
  | locks | unlocks => cases destroyed
  | destroys => exact Or.inr rfl
  | halts | shuts | closes | skips | finds | clears | closesPeer => exact Or.inl destroyed

/-- `node_stop` starts no handler and adds no slot. -/
theorem StopMove.same {stop later : Stop} (move : StopMove state stop after later) :
    after.handlers = state.handlers ∧ after.slots.length = state.slots.length := by
  cases move with
  | clears => exact ⟨rfl, List.length_modify ..⟩
  | _ => exact ⟨rfl, rfl⟩

/-! ## Steps of the threads -/

/-- A step of the thread. A slot is given only when nobody is inside, and the
lock is destroyed only at the end of `node_stop`. -/
structure Guards (thread : Thread) (state next : State) : Prop where
  moves : Exclusion.Moves thread state.exclusion next.exclusion
  main : thread = .main ∨ next.main = state.main
  slots : next.slots.length = state.slots.length ∨ ∀ one, state.inside one = false
  destroyed : next.lock = .destroyed → state.lock = .destroyed ∨ next.main = .stopping .stopped

/-- The other threads are where they were, but for a handler that starts. -/
theorem guards_of {thread : Thread} (main : thread = .main ∨ next.main = state.main)
    (handlers : ∀ idx, thread = .handler idx ∨ next.handlers idx = state.handlers idx ∨
      (state.handlers idx).inside = false ∧ (next.handlers idx).inside = false)
    (slots : next.slots.length = state.slots.length ∨ ∀ one, state.inside one = false)
    (destroyed : next.lock = .destroyed → state.lock = .destroyed ∨ next.main = .stopping .stopped)
    (own : Exclusion.Passage (state.exclusion.spot thread) (next.exclusion.spot thread)) :
    Guards thread state next := by
  refine ⟨⟨own, ?_, ?_⟩, main, slots, destroyed⟩
  · intro another different
    cases another with
    | main => exact congrArg Main.inside (main.resolve_left different.symm)
    | accept => rfl
    | handler idx =>
      rcases (handlers idx).resolve_left different.symm with same | ⟨before, behind⟩
      · exact congrArg Handler.inside same
      · exact behind.trans before.symm
  · intro another different inside
    have slots := slots.resolve_right fun outside => by
      have here : state.inside another = true := inside
      rw [outside another] at here
      cases here
    cases another with
    | main =>
      change next.main.stepsLeft next.slots.length = state.main.stepsLeft state.slots.length
      rw [main.resolve_left different.symm, slots]
    | accept => rfl
    | handler idx =>
      rcases (handlers idx).resolve_left different.symm with same | ⟨before, -⟩
      · change (next.handlers idx).stepsLeft next.slots.length = (state.handlers idx).stepsLeft state.slots.length
        rw [same, slots]
      · rw [show (state.handlers idx).inside = true from inside] at before
        cases before

/-- A handler that is created has not been inside. -/
theorem addStep_others {call : Adding} {outcome : Outcome} {later : Option Adding}
    (kept : Custody.Kept state.custody) (mine : ∀ idx ∈ call.creators, idx ∈ state.custody.creators)
    (stepped : addStep state call outcome = some (after, later)) (idx : Nat) :
    after.handlers idx = state.handlers idx ∨
      (state.handlers idx).inside = false ∧ (after.handlers idx).inside = false := by
  cases addStep_added stepped with
  | quiet _ _ quiet => exact Or.inl (congrFun quiet.same.2.2.1 idx)
  | drops | registers => exact Or.inl rfl
  | creates created link place =>
    by_cases same : idx = created
    · subst same
      have unborn := (kept.created idx (mine idx (by rw [place]; exact List.mem_singleton.mpr rfl))).2
      refine Or.inr ⟨?_, ?_⟩
      · change (state.handlers idx).phase = .unborn at unborn
        cases place : state.handlers idx with
        | unborn => rfl
        | _ => rw [place] at unborn; cases unborn
      · simp [State.withHandler, Handler.inside]
    · exact Or.inl (Function.update_of_ne same ..)

/-- While the lock is held the table has no new slot. -/
theorem addStep_room {call : Adding} {outcome : Outcome} {later : Option Adding}
    (exclusive : Exclusion.Exclusive state.exclusion)
    (stepped : addStep state call outcome = some (after, later)) :
    after.slots.length = state.slots.length ∨ ∀ one, state.inside one = false := by
  by_cases free : state.lock = .free
  · exact Or.inr (exclusive.free (by simp [State.exclusion, free]))
  · exact Or.inl (addStep_slots stepped free)

/-- The main thread keeps to the rules. Wherever it can be inside, the step is
one of a broadcast, of the list or of `node_stop`. -/
theorem mainStep_guards {outcome : Outcome} (kept : Custody.Kept state.custody)
    (exclusive : Exclusion.Exclusive state.exclusion) (stepped : mainStep state outcome = some next) :
    Guards .main state next := by
  have rests (other : State) (lock : other.lock = state.lock) (handlers : other.handlers = state.handlers)
      (slots : other.slots = state.slots) (outside : state.main.inside = false) (still : other.main.inside = false) :
      Guards .main state other :=
    guards_of (Or.inl rfl) (fun idx => Or.inr (Or.inl (congrFun handlers idx))) (Or.inl (congrArg List.length slots))
      (fun destroyed => Or.inl (lock ▸ destroyed))
      (.rests (by simp only [State.exclusion, Exclusion.View.spot, lock]) outside still)
  unfold mainStep at stepped
  split at stepped
  case h_1 fd place =>
    split_ifs at stepped
    obtain rfl := Option.some.inj stepped
    exact rests _ rfl rfl rfl (by rw [place]; rfl) rfl
  case h_2 place | h_3 place | h_4 place | h_5 place | h_6 place | h_7 place | h_9 place =>
    obtain rfl := Option.some.inj stepped
    exact rests _ rfl rfl rfl (by rw [place]; rfl) rfl
  case h_8 outcome call place =>
    obtain ⟨⟨after, later⟩, added, rfl⟩ := Option.map_eq_some_iff.mp stepped
    have mine : ∀ idx ∈ call.creators, idx ∈ state.custody.creators := by
      intro idx member
      apply List.mem_append_left
      rw [place]
      exact member
    have others := addStep_others kept mine added
    have room := addStep_room exclusive added
    have lock := addStep_lock added
    refine guards_of (Or.inl rfl) (fun idx => Or.inr (others idx)) room (fun destroyed => Or.inl (lock ▸ destroyed))
      (.rests ?_ ?_ ?_)
    · simp only [State.exclusion, Exclusion.View.spot, lock]
    · change state.main.inside = false
      rw [place]
      rfl
    · cases later <;> rfl
  case h_10 outcome call place =>
    obtain ⟨⟨after, later⟩, asked, rfl⟩ := Option.map_eq_some_iff.mp stepped
    have lock := askStep_lock asked
    obtain ⟨-, -, handlers, slots, -⟩ := (askStep_quiet asked).1.same
    refine rests _ lock handlers slots (by rw [place]; rfl) ?_
    cases later <;> rfl
  case h_11 outcome call place =>
    obtain ⟨⟨after, later⟩, cast, rfl⟩ := Option.map_eq_some_iff.mp stepped
    obtain ⟨-, -, handlers, slots, -⟩ := (castStep_quiet cast).1.same
    refine guards_of (Or.inl rfl) (fun idx => Or.inr (Or.inl (congrFun handlers idx)))
      (Or.inl (congrArg List.length slots)) (fun destroyed => Or.inl (castStep_destroyed cast destroyed)) ?_
    have passage := castStep_passage cast
    simp only [State.exclusion, Exclusion.View.spot, State.inside, State.stepsLeft, place, slots]
    cases later <;> exact passage
  case h_12 call place =>
    obtain ⟨⟨after, later⟩, listed, rfl⟩ := Option.map_eq_some_iff.mp stepped
    obtain ⟨lock, same⟩ := listStep_lock listed
    have handlers : after.handlers = state.handlers := by rw [same]
    have slots : after.slots = state.slots := by rw [same]
    refine guards_of (Or.inl rfl) (fun idx => Or.inr (Or.inl (congrFun handlers idx)))
      (Or.inl (congrArg List.length slots)) (fun destroyed => Or.inl (listStep_destroyed listed destroyed)) ?_
    have passage := listStep_passage listed
    simp only [State.exclusion, Exclusion.View.spot, State.inside, State.stepsLeft, place, slots]
    cases later <;> exact passage
  case h_13 stop place =>
    obtain ⟨⟨after, later⟩, stopped, rfl⟩ := Option.map_eq_some_iff.mp stepped
    have move := stopStep_move stopped
    obtain ⟨handlers, slots⟩ := move.same
    refine guards_of (Or.inl rfl) (fun idx => Or.inr (Or.inl (congrFun handlers idx))) (Or.inl slots)
      (fun destroyed => (move.destroyed destroyed).imp id (congrArg Main.stopping)) ?_
    have passage := move.passage
    simp only [State.exclusion, Exclusion.View.spot, State.inside, State.stepsLeft, place]
    exact passage
  case h_14 => cases stepped

/-- So does `accept_thread`. It is never inside at the end of a step, since
`add_peer` locks and unlocks around assignments only. -/
theorem acceptStep_guards {outcome : Outcome} (kept : Custody.Kept state.custody)
    (exclusive : Exclusion.Exclusive state.exclusion) (stepped : acceptStep state outcome = some next) :
    Guards .accept state next := by
  have rests (other : State) (lock : other.lock = state.lock) (main : other.main = state.main)
      (handlers : other.handlers = state.handlers) (slots : other.slots = state.slots) :
      Guards .accept state other :=
    guards_of (Or.inr main) (fun idx => Or.inr (Or.inl (congrFun handlers idx))) (Or.inl (congrArg List.length slots))
      (fun destroyed => Or.inl (lock ▸ destroyed))
      (.rests (by simp only [State.exclusion, Exclusion.View.spot, lock]) rfl rfl)
  unfold acceptStep at stepped
  split at stepped
  case h_1 | h_3 =>
    obtain rfl := Option.some.inj stepped
    exact rests _ rfl rfl rfl rfl
  case h_2 fd place =>
    split_ifs at stepped
    obtain rfl := Option.some.inj stepped
    exact rests _ rfl rfl rfl rfl
  case h_4 outcome call place =>
    obtain ⟨⟨after, later⟩, added, rfl⟩ := Option.map_eq_some_iff.mp stepped
    have mine : ∀ idx ∈ call.creators, idx ∈ state.custody.creators := by
      intro idx member
      apply List.mem_append_right
      rw [place]
      exact member
    have main := (addStep_added added).same.1
    have others := addStep_others kept mine added
    have room := addStep_room exclusive added
    have lock := addStep_lock added
    refine guards_of (Or.inr main) (fun idx => Or.inr (others idx)) room (fun destroyed => Or.inl (lock ▸ destroyed))
      (.rests ?_ rfl rfl)
    simp only [State.exclusion, Exclusion.View.spot, lock]
  case h_5 => cases stepped

/-- So does a handler. -/
theorem handlerStep_guards {outcome : Outcome} (stepped : handlerStep state idx outcome = some next) :
    Guards (.handler idx) state next := by
  have moves (other : State) (handler : Handler) (main : other.main = state.main)
      (handlers : other.handlers = state.handlers) (slots : other.slots.length = state.slots.length)
      (destroyed : other.lock = .destroyed → state.lock = .destroyed)
      (own : Exclusion.Passage (state.exclusion.spot (.handler idx))
        ⟨decide (other.lock = .held), handler.inside, handler.stepsLeft state.slots.length⟩) :
      Guards (.handler idx) state (other.withHandler idx handler) := by
    refine guards_of (Or.inr main) (fun one => ?_) (Or.inl slots) (fun after => Or.inl (destroyed after)) ?_
    · by_cases same : one = idx
      · exact Or.inl (by rw [same])
      · exact Or.inr (Or.inl ((Function.update_of_ne same ..).trans (congrFun handlers one)))
    · have spot : (other.withHandler idx handler).exclusion.spot (.handler idx) =
          ⟨decide (other.lock = .held), handler.inside, handler.stepsLeft state.slots.length⟩ := by
        simp only [State.exclusion, Exclusion.View.spot, State.inside, State.stepsLeft, State.withHandler,
          Function.update_self, slots]
        rfl
      rw [spot]
      exact own
  have rests (other : State) (handler : Handler) (lock : other.lock = state.lock) (main : other.main = state.main)
      (handlers : other.handlers = state.handlers) (slots : other.slots.length = state.slots.length)
      (outside : (state.handlers idx).inside = false) (still : handler.inside = false) :
      Guards (.handler idx) state (other.withHandler idx handler) :=
    moves other handler main handlers slots (fun destroyed => lock ▸ destroyed)
      (.rests (by rw [lock]; rfl) outside still)
  unfold handlerStep at stepped
  split at stepped
  case h_1 => cases stepped
  case h_2 slot there =>
    split at stepped
    case h_1 place =>
      obtain rfl := Option.some.inj stepped
      exact rests _ _ rfl rfl rfl rfl (by rw [place]; rfl) (by split_ifs <;> rfl)
    case h_2 total newline place =>
      split_ifs at stepped
      all_goals
        obtain rfl := Option.some.inj stepped
        exact rests _ _ rfl rfl rfl rfl (by rw [place]; rfl) rfl
    case h_3 place | h_4 place | h_5 place | h_7 place | h_10 place =>
      obtain rfl := Option.some.inj stepped
      exact rests _ _ rfl rfl rfl rfl (by rw [place]; rfl) rfl
    case h_6 left count place =>
      obtain ⟨⟨after, rest⟩, sent, rfl⟩ := Option.map_eq_some_iff.mp stepped
      have calls : Quiet state [slot.link] after := sends_quiet List.mem_cons_self sent
      obtain ⟨main, -, handlers, slots, -⟩ := calls.same
      exact rests _ _ (sends_lock sent).1 main handlers (congrArg List.length slots) (by rw [place]; rfl)
        (by split_ifs <;> rfl)
    case h_8 outcome call place =>
      obtain ⟨⟨after, later⟩, cast, rfl⟩ := Option.map_eq_some_iff.mp stepped
      obtain ⟨main, -, handlers, slots, -⟩ := (castStep_quiet cast).1.same
      refine moves _ _ main handlers (congrArg List.length slots) (castStep_destroyed cast) ?_
      have passage := castStep_passage cast
      simp only [State.exclusion, Exclusion.View.spot, State.inside, State.stepsLeft, place]
      cases later <;> exact passage
    case h_9 place =>
      obtain rfl := Option.some.inj stepped
      exact rests _ _ rfl rfl rfl (List.length_modify ..) (by rw [place]; rfl) rfl
    case h_11 => cases stepped

/-- So does every thread. -/
theorem step_guards (kept : Custody.Kept state.custody) (exclusive : Exclusion.Exclusive state.exclusion)
    (stepped : step state turn = some next) : Guards turn.thread state next := by
  cases turn with
  | main outcome => exact mainStep_guards kept exclusive stepped
  | accept outcome => exact acceptStep_guards kept exclusive stepped
  | handler idx outcome => exact handlerStep_guards stepped

/-! ## Progress -/

/-- Inside a broadcast there is always a next step: `send` returns, or the next
slot is looked at. -/
theorem castStep_enabled (state : State) {call : Casting} (inside : call.inside = true) :
    ∃ outcome, (castStep state call outcome).isSome = true := by
  cases call with
  | locking => cases inside
  | looking idx exclude length =>
    refine ⟨.goes, ?_⟩
    simp only [castStep]
    split <;> rfl
  | sending idx link left exclude length =>
    -- a call of `send` may always fail
    refine ⟨.sent 0, ?_⟩
    simp [castStep, State.sends]

/-- So there is inside the list of peers. -/
theorem listStep_enabled (state : State) {call : Listing} (inside : call.inside = true) :
    (listStep state call).isSome = true := by
  cases call with
  | locking => cases inside
  | heading => rfl
  | looking idx =>
    simp only [listStep]
    split <;> rfl

/-- And inside `node_stop`, if the slot it aims at is there. -/
theorem stopStep_enabled {stop : Stop} (inside : stop.inside = true)
    (aimed : ∀ idx marked, stop.aim = some (idx, marked) → idx < state.slots.length) :
    (stopStep state stop).isSome = true := by
  cases stop with
  | looking idx =>
    simp only [stopStep]
    split <;> rfl
  | clearing idx => rfl
  | closingPeer idx =>
    have there : idx < state.slots.length := aimed idx true rfl
    simp [stopStep, there]
  | halting | shutting | closing | locking | destroying | stopped => cases inside

/-- `node_stop` looks at slots that are there. -/
theorem aimed_slots {stop : Stop} (kept : Custody.Kept state.custody) (place : state.main = .stopping stop) :
    ∀ idx marked, stop.aim = some (idx, marked) → idx < state.slots.length := by
  intro idx marked aim
  have known := (kept.aimed idx marked (by simp only [State.custody, place]; exact aim)).2
  simpa [State.custody] using known

/-- The thread inside can go on. -/
theorem inside_enabled (kept : Custody.Kept state.custody) {thread : Thread} (inside : state.inside thread = true) :
    ∃ turn : Turn, turn.thread = thread ∧ (step state turn).isSome = true := by
  cases thread with
  | accept => cases inside
  | main =>
    change state.main.inside = true at inside
    cases place : state.main with
    | casting call =>
      rw [place] at inside
      obtain ⟨outcome, enabled⟩ := castStep_enabled state inside
      exact ⟨.main outcome, rfl, by simpa [step, mainStep, place] using enabled⟩
    | listing call =>
      rw [place] at inside
      exact ⟨.main .goes, rfl, by simpa [step, mainStep, place] using listStep_enabled state inside⟩
    | stopping stop =>
      rw [place] at inside
      have aimed := aimed_slots kept place
      exact ⟨.main .goes, rfl, by simpa [step, mainStep, place] using stopStep_enabled inside aimed⟩
    | _ => rw [place] at inside; cases inside
  | handler idx =>
    change (state.handlers idx).inside = true at inside
    have there : idx < state.slots.length := by
      by_contra beyond
      have unborn := kept.unborn idx (by simpa [State.custody] using beyond)
      change (state.handlers idx).phase = .unborn at unborn
      cases place : state.handlers idx with
      | unborn => rw [place] at inside; cases inside
      | _ => rw [place] at unborn; cases unborn
    cases place : state.handlers idx with
    | casting call =>
      rw [place] at inside
      obtain ⟨outcome, enabled⟩ := castStep_enabled state inside
      exact ⟨.handler idx outcome, rfl, by simpa [step, handlerStep, place, there] using enabled⟩
    | _ => rw [place] at inside; cases inside

/-- The main thread has nothing left to do. -/
theorem step_stopped (stopped : state.main = .stopping .stopped) (main : turn.thread = .main) :
    step state turn = none := by
  cases turn with
  | main outcome => cases outcome <;> simp [step, mainStep, stopped, stopStep]
  | accept outcome => cases main
  | handler idx outcome => cases main

/-! ## Runs -/

/-- What holds of every state that the threads reach: the descriptors are in
custody, the flags say how far `node_stop` is, the lock excludes, and it is
destroyed at the end only. -/
structure Guarded (state : State) : Prop where
  kept : ∃ fd, ReflTransGen Custody.Step (Custody.start maxPeers fd) state.custody
  controlled : Controlled state
  exclusive : Exclusion.Exclusive state.exclusion
  destroyed : state.lock = .destroyed → state.main = .stopping .stopped

/-- At the start nobody is inside. -/
theorem guarded_start (fd : Nat) : Guarded (start fd) where
  kept := ⟨fd, .refl⟩
  controlled := controlled_start fd
  exclusive := by
    apply Exclusion.exclusive_of_free rfl
    intro thread
    cases thread <;> rfl
  destroyed := fun destroyed => by cases destroyed

/-- The custody of a guarded state is kept. -/
theorem Guarded.custody (guarded : Guarded state) : Custody.Kept state.custody := by
  obtain ⟨fd, steps⟩ := guarded.kept
  exact (Custody.kept_steps steps).1

/-- Every step keeps a state guarded, by the rules that each thread keeps to. -/
theorem Guarded.goes (guarded : Guarded state) (stepped : step state turn = some next) :
    Guarded next ∧ Guards turn.thread state next := by
  have guards := step_guards guarded.custody guarded.exclusive stepped
  obtain ⟨controlled, more⟩ := step_custody guarded.controlled stepped
  obtain ⟨fd, steps⟩ := guarded.kept
  refine ⟨⟨⟨fd, steps.trans more⟩, controlled, guarded.exclusive.moves guards.moves, fun destroyed => ?_⟩, guards⟩
  rcases guards.destroyed destroyed with before | stopped
  · have stopped := guarded.destroyed before
    rcases guards.main with main | same
    · rw [step_stopped stopped main] at stepped
      cases stepped
    · exact same.trans stopped
  · exact stopped

/-- So every state that the threads reach is guarded. -/
theorem run_guarded {turns : List Turn} (ran : run step (start fd) turns = some state) : Guarded state := by
  refine run_invariant step (fun _ _ => True) Guarded ?_ (start fd) state turns (guarded_start fd)
    (every_of_forall step _ (fun _ _ => trivial) _ _) ran
  intro before turn behind guarded _ stepped
  exact (guarded.goes stepped).1

/-- A part of what holds throughout a run holds throughout it. -/
theorem throughout_left {state : State} {first second : State → Prop} {turns : List Turn}
    (both : Throughout step (fun state => first state ∧ second state) state turns) :
    Throughout step first state turns := by
  induction turns generalizing state with
  | nil => exact both.1
  | cons turn rest ih => exact ⟨both.1.1, fun next stepped => ih (both.2 next stepped)⟩

/-- In every state that the threads reach before `node_stop` has destroyed
`peers_lock`, it is held exactly if a thread is in one of its critical sections,
and then only one is. Meanwhile no step gives a slot. That thread can go on, and
leaves after a bounded number of its own steps, whatever the others do; each
call of `send`, each `printf` and each `close` in them is taken to return. -/
theorem lock_handed_back (fd : Nat) (turns : List Turn) (state : State)
    (ran : run step (start fd) turns = some state) (before : state.main ≠ .stopping .stopped) :
    (∀ one other, state.inside one = true → state.inside other = true → one = other) ∧
    (state.lock = .held ↔ ∃ thread, state.inside thread = true) ∧ state.lock ≠ .destroyed ∧
    ∀ thread, state.inside thread = true →
      (∀ turn next, step state turn = some next → next.slots.length = state.slots.length) ∧
      (∃ turn : Turn, turn.thread = thread ∧ (step state turn).isSome = true) ∧
      ∀ more final, run step state more = some final →
        Throughout step (fun state => state.inside thread = true ∧ state.main ≠ .stopping .stopped) state more →
        more.countP (fun turn => turn.thread = thread) ≤ state.stepsLeft thread := by
  have guarded := run_guarded ran
  refine ⟨guarded.exclusive.single, ?_, fun destroyed => before (guarded.destroyed destroyed),
    fun thread inside => ⟨?_, inside_enabled guarded.custody inside, ?_⟩⟩
  · have held := guarded.exclusive.held
    simpa only [State.exclusion, decide_eq_true_eq] using held
  · intro turn next stepped
    refine (guarded.goes stepped).2.slots.resolve_right fun outside => ?_
    rw [outside thread] at inside
    cases inside
  · intro more final went stays
    have goes (state : State) (turn : Turn) (next : State) (guarded : Guarded state)
        (stepped : step state turn = some next) :
        Guarded next ∧ Exclusion.Moves turn.thread state.exclusion next.exclusion :=
      (guarded.goes stepped).imp id Guards.moves
    exact Exclusion.steps_le step Turn.thread State.exclusion Guarded goes thread state final more guarded went
      (throughout_left stays)

/-- A handler has begun to forward a line of five bytes, and `node_stop` waits
for the lock. The handler takes at most fifteen steps to the unlock. -/
theorem lock_handed_back_here :
    let turns : List Turn :=
      [.accept .goes, .accept (.opens 4), .accept .goes, .accept .goes,
        .accept .goes, .accept (.sent 24), .accept (.resends []), .accept .goes,
        .accept .goes, .accept (.opens 5), .accept .goes, .accept .goes,
        .main .lists, .main .goes, .main .goes, .main .goes, .main .goes, .main .goes,
        .handler 0 .goes, .handler 0 (.received true), .handler 0 (.casts 5), .handler 0 .goes,
        .main .stops, .main .goes, .main .goes, .main .goes]
    ∃ state, run step (start 3) turns = some state ∧ state.lock = .held ∧
      step state (.main .goes) = none ∧
      (∀ one, state.inside one = true → one = .handler 0) ∧
      (∀ turn next, step state turn = some next → next.slots.length = state.slots.length) ∧
      (∃ turn : Turn, turn.thread = .handler 0 ∧ (step state turn).isSome = true) ∧
      ∀ more final, run step state more = some final →
        Throughout step (fun state => state.inside (.handler 0) = true ∧ state.main ≠ .stopping .stopped) state more →
        more.countP (fun turn => turn.thread = .handler 0) ≤ 15 := by
  intro turns
  have ends : (run step (start 3) turns).isSome = true := rfl
  have ran := (Option.some_get ends).symm
  have waits : ((run step (start 3) turns).get ends).main = .stopping .locking := rfl
  obtain ⟨single, -, -, progress⟩ := lock_handed_back 3 turns _ ran (by rw [waits]; simp)
  have inside : ((run step (start 3) turns).get ends).inside (.handler 0) = true := rfl
  obtain ⟨slots, enabled, bounded⟩ := progress (.handler 0) inside
  exact ⟨_, ran, rfl, rfl, fun one here => single one _ here inside, slots, enabled, bounded⟩

/-! ## The end -/

/-- A bound on the steps up to the end of `node_stop`. -/
def Stop.rank (peers : Nat) : Stop → Nat
  | halting => 3 * maxPeers + 6
  | shutting => 3 * maxPeers + 5
  | closing => 3 * maxPeers + 4
  | locking => 3 * maxPeers + 3
  | looking idx => (looking idx).stepsLeft peers + 1
  | clearing idx => (clearing idx).stepsLeft peers + 1
  | closingPeer idx => (closingPeer idx).stepsLeft peers + 1
  | destroying => 1
  | stopped => 0

/-- From anywhere in `node_stop` the end is at most three steps for each slot
and six more away. -/
theorem Stop.rank_le {peers : Nat} (room : peers ≤ maxPeers) (stop : Stop) : stop.rank peers ≤ 3 * maxPeers + 6 := by
  cases stop <;> simp only [Stop.rank, Stop.stepsLeft] <;> omega

/-- The table matters inside only. -/
theorem Stop.rank_outside {stop : Stop} (outside : stop.inside = false) (peers others : Nat) :
    stop.rank peers = stop.rank others := by
  cases stop with
  | looking | clearing | closingPeer => cases outside
  | halting | shutting | closing | locking | destroying | stopped => rfl

/-- Every move of `node_stop` comes nearer to its end. -/
theorem StopMove.rank {stop later : Stop} (room : state.slots.length ≤ maxPeers)
    (move : StopMove state stop after later) : later.rank after.slots.length < stop.rank state.slots.length := by
  cases move with
  | clears idx =>
    simp only [Stop.rank, Stop.stepsLeft, State.clears, List.length_modify]
    omega
  | closesPeer idx slot =>
    simp only [Stop.rank, Stop.stepsLeft, State.closes, State.does]
    omega
  | _ =>
    simp only [Stop.rank, Stop.stepsLeft]
    omega

/-- The table has room for its slots. -/
theorem Guarded.room (guarded : Guarded state) : state.slots.length ≤ maxPeers := by
  have bounded := guarded.custody.bounded
  simpa [State.custody] using bounded

/-- A step of the main thread in `node_stop`, or of another thread meanwhile. -/
theorem Guarded.stops {stop : Stop} (guarded : Guarded state) (place : state.main = .stopping stop)
    (stepped : step state turn = some next) :
    ∃ later, next.main = .stopping later ∧
      later.rank next.slots.length + (if turn.thread = .main then 1 else 0) ≤ stop.rank state.slots.length := by
  obtain ⟨-, guards⟩ := guarded.goes stepped
  by_cases main : turn.thread = .main
  · cases turn with
    | main outcome =>
      cases outcome with
      | goes =>
        simp only [step, mainStep, place] at stepped
        obtain ⟨⟨after, later⟩, stopped, rfl⟩ := Option.map_eq_some_iff.mp stepped
        have less := (stopStep_move stopped).rank guarded.room
        refine ⟨later, rfl, ?_⟩
        rw [if_pos main]
        exact less
      | _ => simp [step, mainStep, place] at stepped
    | accept => cases main
    | handler => cases main
  · refine ⟨stop, (guards.main.resolve_left main).trans place, ?_⟩
    rw [if_neg main, Nat.add_zero]
    apply Nat.le_of_eq
    cases inside : stop.inside with
    | false => exact Stop.rank_outside inside _ _
    | true =>
      rw [guards.slots.resolve_right]
      intro outside
      have here : state.main.inside = false := outside .main
      rw [place] at here
      cases inside.symm.trans here

/-- Over a whole run, each turn of the main thread in `node_stop` is paid for by
the rank, and the turns of other threads cost nothing. -/
theorem run_stops {stop : Stop} {more : List Turn} {final : State} (guarded : Guarded state)
    (place : state.main = .stopping stop) (went : run step state more = some final) :
    Guarded final ∧ ∃ later, final.main = .stopping later ∧
      more.countP (fun turn => turn.thread = .main) + later.rank final.slots.length ≤
        stop.rank state.slots.length := by
  induction more generalizing state stop with
  | nil =>
    obtain rfl := Option.some.inj went
    exact ⟨guarded, stop, place, by simp⟩
  | cons turn rest ih =>
    obtain ⟨next, stepped, went⟩ := (run_cons step state final turn rest).mp went
    obtain ⟨middle, there, paid⟩ := guarded.stops place stepped
    obtain ⟨still, later, ended, counted⟩ := ih (guarded.goes stepped).1 there went
    refine ⟨still, later, ended, ?_⟩
    rw [List.countP_cons]
    simp only [decide_eq_true_eq]
    omega

/-- `node_stop` waits for nothing but the lock, and then for a thread that can
go on. -/
theorem Guarded.stopping {stop : Stop} (guarded : Guarded state) (place : state.main = .stopping stop)
    (running : stop ≠ .stopped) :
    (step state (.main .goes)).isSome = true ∨
      ∃ turn : Turn, turn.thread ≠ .main ∧ state.inside turn.thread = true ∧ (step state turn).isSome = true := by
  have goes (enabled : (stopStep state stop).isSome = true) : (step state (.main .goes)).isSome = true := by
    simpa [step, mainStep, place] using enabled
  cases stop with
  | halting | shutting | closing | destroying => exact Or.inl (goes rfl)
  | looking | clearing | closingPeer =>
    exact Or.inl (goes (stopStep_enabled rfl (aimed_slots guarded.custody place)))
  | locking =>
    cases lock : state.lock with
    | free => exact Or.inl (goes (by simp [stopStep, lock]))
    | held =>
      obtain ⟨thread, inside⟩ := guarded.exclusive.held.mp (by simp [State.exclusion, lock])
      obtain ⟨turn, rfl, enabled⟩ := inside_enabled guarded.custody inside
      refine Or.inr ⟨turn, fun main => ?_, inside, enabled⟩
      have here : state.inside turn.thread = true := inside
      rw [main] at here
      simp [State.inside, place, Main.inside, Stop.inside] at here
    | destroyed =>
      have stopped := guarded.destroyed lock
      rw [place] at stopped
      cases stopped
  | stopped => exact absurd rfl running

/-- `node_stop` returns, whatever the other threads do and wherever they are
when it begins. The main thread takes a bounded number of steps there, and if it
waits it is for the lock, which a thread has that can go on. Each of the calls
is a step that returns: so does every `send` of the thread that has the lock,
although the sockets block. -/
theorem stop_returns (fd : Nat) (turns : List Turn) (state : State) (stop : Stop) (more : List Turn) (final : State)
    (ran : run step (start fd) turns = some state) (place : state.main = .stopping stop)
    (went : run step state more = some final) :
    more.countP (fun turn => turn.thread = .main) ≤ 3 * maxPeers + 6 ∧
    (final.main = .stopping .stopped ∨ (step final (.main .goes)).isSome = true ∨
      ∃ turn : Turn, turn.thread ≠ .main ∧ final.inside turn.thread = true ∧ (step final turn).isSome = true) := by
  have guarded := run_guarded ran
  obtain ⟨still, later, ended, counted⟩ := run_stops guarded place went
  have bound := Stop.rank_le guarded.room stop
  constructor
  · omega
  · by_cases stopped : later = .stopped
    · exact Or.inl (stopped ▸ ended)
    · exact Or.inr (still.stopping ended stopped)

/-- `node_stop` waits for the handler that forwards a line, and then closes both
peers. -/
theorem stop_returns_here :
    let turns : List Turn :=
      [.accept .goes, .accept (.opens 4), .accept .goes, .accept .goes,
        .accept .goes, .accept (.sent 24), .accept (.resends []), .accept .goes,
        .accept .goes, .accept (.opens 5), .accept .goes, .accept .goes,
        .handler 0 .goes, .handler 0 (.received true), .handler 0 (.casts 5), .handler 0 .goes,
        .main .stops, .main .goes, .main .goes, .main .goes]
    let more : List Turn :=
      [.handler 0 .goes, .handler 0 .goes, .handler 0 (.sent 5), .handler 0 .goes,
        .main .goes, .main .goes, .main .goes, .main .goes, .main .goes, .main .goes, .main .goes, .main .goes,
        .main .goes]
    ∃ state final, run step (start 3) turns = some state ∧ step state (.main .goes) = none ∧
      run step state more = some final ∧ final.main = .stopping .stopped ∧
      more.countP (fun turn => turn.thread = .main) ≤ 3 * maxPeers + 6 := by
  intro turns more
  have ends : (run step (start 3) turns).isSome = true := rfl
  have ran := (Option.some_get ends).symm
  have later : (run step ((run step (start 3) turns).get ends) more).isSome = true := rfl
  have went := (Option.some_get later).symm
  have bounded := (stop_returns 3 turns _ .locking more _ ran rfl went).1
  exact ⟨_, _, ran, rfl, went, rfl, bounded⟩

end Threads

end MiniCoin
