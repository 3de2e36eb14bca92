import MiniCoin.Runs
import Mathlib.Data.List.Count

/-!
# Mutual exclusion

A lock, and threads that are inside its critical section or outside. A thread enters when the lock
is free, and frees it when it leaves. Then at most one thread is inside, and the lock is held if one
is.

A thread that works inside has fewer steps left after each of its own steps, and the steps of the
others leave it as many. So it does not stay for ever.
-/

namespace Exclusion

open Runs

universe u v w

variable {Thread : Type u}

/-- The lock and one thread, with a bound on the steps that it still takes
inside. -/
structure Spot where
  held : Bool
  inside : Bool
  left : Nat

/-- What a step of the thread does: it stays outside, enters when the lock is
free, works inside with less left to do, or leaves and frees the lock. -/
inductive Passage (one other : Spot) : Prop
  | rests (held : other.held = one.held) (outside : one.inside = false) (still : other.inside = false)
  | enters (free : one.held = false) (held : other.held = true) (outside : one.inside = false)
      (inside : other.inside = true)
  | works (held : other.held = one.held) (inside : one.inside = true) (still : other.inside = true)
      (less : other.left < one.left)
  | leaves (free : other.held = false) (inside : one.inside = true) (outside : other.inside = false)

/-- The lock and all threads, without anything else that they do. A system is
shown to be exclusive by giving such a view of its states. -/
structure View (Thread : Type u) where
  held : Bool
  inside : Thread → Bool
  left : Thread → Nat

/-- What the lock and this one thread show. -/
def View.spot (view : View Thread) (thread : Thread) : Spot :=
  ⟨view.held, view.inside thread, view.left thread⟩

/-- At most one thread is inside, and the lock is held exactly while one is. -/
structure Exclusive (view : View Thread) : Prop where
  single : ∀ one other, view.inside one = true → view.inside other = true → one = other
  held : view.held = true ↔ ∃ thread, view.inside thread = true

/-- A step of the thread, seen by all: the others are where they were, and have
as much left to do if they are inside. -/
structure Moves (thread : Thread) (one other : View Thread) : Prop where
  own : Passage (one.spot thread) (other.spot thread)
  others : ∀ another ≠ thread, other.inside another = one.inside another
  left : ∀ another ≠ thread, one.inside another = true → other.left another = one.left another

variable {one other : View Thread} {thread : Thread}

/-- Nobody is inside while the lock is free. -/
theorem Exclusive.free (exclusive : Exclusive one) (free : one.held = false) (thread : Thread) :
    one.inside thread = false := by
  by_contra inside
  have held := exclusive.held.mpr ⟨thread, by simpa using inside⟩
  rw [free] at held
  cases held

/-- Nobody else is inside. -/
theorem Exclusive.alone (exclusive : Exclusive one) (inside : one.inside thread = true) :
    ∀ another ≠ thread, one.inside another = false := by
  intro another different
  by_contra too
  exact different (exclusive.single another thread (by simpa using too) inside)

/-- The thread is the only one inside. -/
theorem exclusive_of_alone (held : one.held = true) (inside : one.inside thread = true)
    (alone : ∀ another ≠ thread, one.inside another = false) : Exclusive one := by
  have only (another : Thread) (here : one.inside another = true) : another = thread := by
    by_contra different
    rw [alone another different] at here
    cases here
  constructor
  · intro first second early late
    exact (only first early).trans (only second late).symm
  · exact ⟨fun _ => ⟨thread, inside⟩, fun _ => held⟩

/-- A system begins exclusive: the lock is free and all threads are outside. -/
theorem exclusive_of_free (free : one.held = false) (outside : ∀ thread, one.inside thread = false) :
    Exclusive one := by
  constructor
  · intro first second early
    rw [outside first] at early
    cases early
  · constructor
    · intro held
      rw [free] at held
      cases held
    · rintro ⟨thread, inside⟩
      rw [outside thread] at inside
      cases inside

/-- Each step keeps the exclusion. -/
theorem Exclusive.moves (exclusive : Exclusive one) (moves : Moves thread one other) : Exclusive other := by
  cases moves.own with
  | rests held outside still =>
    have same (another : Thread) : other.inside another = one.inside another := by
      by_cases own : another = thread
      · rw [own]
        exact still.trans outside.symm
      · exact moves.others another own
    constructor
    · intro first second early late
      rw [same] at early late
      exact exclusive.single first second early late
    · rw [show other.held = one.held from held, exclusive.held]
      simp only [same]
  | enters free held outside inside =>
    apply exclusive_of_alone held inside
    intro another different
    rw [moves.others another different]
    exact exclusive.free free another
  | works held inside still less =>
    have locked : other.held = true := by
      rw [show other.held = one.held from held]
      exact exclusive.held.mpr ⟨thread, inside⟩
    apply exclusive_of_alone locked still
    intro another different
    rw [moves.others another different]
    exact exclusive.alone inside another different
  | leaves free inside outside =>
    apply exclusive_of_free free
    intro another
    by_cases own : another = thread
    · rw [own]
      exact outside
    · rw [moves.others another own]
      exact exclusive.alone inside another own

/-- While the thread stays inside, a step of its own takes one from what is
left. -/
theorem Moves.stays [DecidableEq Thread] {actor : Thread} (moves : Moves actor one other)
    (inside : one.inside thread = true) (still : other.inside thread = true) :
    other.left thread + (if actor = thread then 1 else 0) ≤ one.left thread := by
  split_ifs with own
  · subst own
    cases moves.own with
    | works held inside still less => exact less
    | rests held outside => rw [show one.inside actor = false from outside] at inside; cases inside
    | enters free held outside => rw [show one.inside actor = false from outside] at inside; cases inside
    | leaves free inside outside => rw [show other.inside actor = false from outside] at still; cases still
  · exact Nat.le_of_eq (moves.left thread (fun same => own same.symm) inside)

section Systems

variable {State : Type v} {Label : Type w} (step : State → Label → Option State) (actor : Label → Thread)
  (view : State → View Thread) (good : State → Prop)

/-- A thread that does not leave takes at most the steps that it had left. -/
theorem steps_le [DecidableEq Thread]
    (moves : ∀ state label next, good state → step state label = some next →
      good next ∧ Moves (actor label) (view state) (view next))
    (thread : Thread) (state final : State) (labels : List Label) (start : good state)
    (ran : run step state labels = some final)
    (stays : Throughout step (fun state => (view state).inside thread = true) state labels) :
    labels.countP (fun label => actor label = thread) ≤ (view state).left thread := by
  induction labels generalizing state with
  | nil => exact Nat.zero_le _
  | cons label rest ih =>
    obtain ⟨next, stepped, ran⟩ := (run_cons step state final label rest).mp ran
    obtain ⟨inside, later⟩ := stays
    obtain ⟨still, moved⟩ := moves state label next start stepped
    have later := later next stepped
    have here : (view next).inside thread = true := by
      cases rest with
      | nil => exact later
      | cons => exact later.1
    have paid := moved.stays inside here
    have counted := ih next still ran later
    rw [List.countP_cons]
    simp only [decide_eq_true_eq]
    omega

end Systems

end Exclusion
