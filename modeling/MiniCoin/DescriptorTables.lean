import Mathlib.Data.List.Basic
import Mathlib.Data.List.Nodup
import Mathlib.Logic.Function.Basic

/-!
# Tables of descriptors

A kernel numbers what a process opens. A number is given to something else as soon as it was
closed, so a program that keeps numbers may mean one thing and reach another one. Here the things
that were opened are numbered in their order and never again; a link is a descriptor together with
the thing that it stood for when it was obtained.

Opening takes a free descriptor and leaves what other descriptors stand for. What was closed is gone
for ever, even if its descriptor comes back.
-/

namespace DescriptorTables

/-- A descriptor, and what it stood for when it was obtained. A program keeps
the number only, and the pair tells whether the number still means the same. -/
structure Link where
  fd : Nat
  thing : Nat
  deriving DecidableEq

/-- What the descriptors stand for, and how many things have been opened. Things
are numbered, so that a descriptor that is given out again stands for another
thing. -/
structure Table where
  entry : Nat → Option Nat
  count : Nat

namespace Table

/-- The next thing is opened, under the descriptor. -/
def opens (table : Table) (fd : Nat) : Table :=
  ⟨Function.update table.entry fd (some table.count), table.count + 1⟩

/-- The descriptor stands for nothing, and may be given out again. -/
def closes (table : Table) (fd : Nat) : Table :=
  { table with entry := Function.update table.entry fd none }

/-- The descriptor still stands for what it stood for, so a call on it reaches
what is meant. -/
def Holds (table : Table) (link : Link) : Prop := table.entry link.fd = some link.thing

/-- Whether it does can be tested. -/
instance (table : Table) (link : Link) : Decidable (table.Holds link) :=
  inferInstanceAs (Decidable (table.entry link.fd = some link.thing))

/-- No descriptor stands for it, so it has been closed. -/
def Gone (table : Table) (thing : Nat) : Prop := ∀ fd, table.entry fd ≠ some thing

/-- No two descriptors stand for one thing, and what they stand for was opened.
A table that starts empty stays so. -/
structure Sound (table : Table) : Prop where
  single : ∀ fd other thing, table.entry fd = some thing → table.entry other = some thing → fd = other
  old : ∀ fd thing, table.entry fd = some thing → thing < table.count

variable {table : Table} {fd : Nat} {link other : Link}

/-! ## Opening -/

/-- A new thing is under one descriptor, since it is new. -/
theorem Sound.opens (sound : Sound table) (fd : Nat) : Sound (table.opens fd) := by
  constructor
  · intro one two thing first second
    simp only [Table.opens, Function.update_apply] at first second
    split_ifs at first second with here there there
    · rw [here, there]
    · obtain rfl := Option.some.inj first
      exact absurd (sound.old two _ second) (Nat.lt_irrefl _)
    · obtain rfl := Option.some.inj second
      exact absurd (sound.old one _ first) (Nat.lt_irrefl _)
    · exact sound.single one two thing first second
  · intro one thing first
    simp only [Table.opens, Function.update_apply] at first ⊢
    split_ifs at first
    · obtain rfl := Option.some.inj first
      exact Nat.lt_succ_self _
    · exact Nat.lt_succ_of_lt (sound.old one thing first)

/-- Who opens a thing has a link to it. -/
theorem holds_opened (table : Table) (fd : Nat) : (table.opens fd).Holds ⟨fd, table.count⟩ := by
  simp [Holds, opens]

/-- A free descriptor is not that of a link that holds. -/
theorem Holds.opens (holds : table.Holds link) (free : table.entry fd = none) : (table.opens fd).Holds link := by
  have different : link.fd ≠ fd := by
    intro same
    rw [Holds, same, free] at holds
    cases holds
  simpa [Holds, Table.opens, different] using holds

/-- What is gone stays gone, as a descriptor that is given out again stands for
another thing. -/
theorem Gone.opens {thing : Nat} (gone : table.Gone thing) (old : thing < table.count) (fd : Nat) :
    (table.opens fd).Gone thing := by
  intro one first
  simp only [Table.opens, Function.update_apply] at first
  split_ifs at first
  · have new := Option.some.inj first
    omega
  · exact gone one first

/-- Nothing is lost by opening. -/
theorem gone_of_opens {thing : Nat} (free : table.entry fd = none) (gone : (table.opens fd).Gone thing) :
    table.Gone thing ∧ thing ≠ table.count := by
  constructor
  · intro one first
    have holds : table.Holds ⟨one, thing⟩ := first
    exact gone one (holds.opens free)
  · rintro rfl
    exact gone fd (holds_opened table fd)

/-! ## Closing -/

/-- Closing leaves the others under one descriptor each. -/
theorem Sound.closes (sound : Sound table) (fd : Nat) : Sound (table.closes fd) := by
  have before (one thing : Nat) (first : (table.closes fd).entry one = some thing) :
      table.entry one = some thing := by
    simp only [Table.closes, Function.update_apply] at first
    split_ifs at first
    exact first
  constructor
  · intro one two thing first second
    exact sound.single one two thing (before one thing first) (before two thing second)
  · intro one thing first
    exact sound.old one thing (before one thing first)

/-- Closing a descriptor that stands for nothing. -/
theorem closes_free (free : table.entry fd = none) : table.closes fd = table := by
  have same : Function.update table.entry fd none = table.entry := by
    rw [← free]
    exact Function.update_eq_self fd table.entry
  rw [closes, same]

/-- The descriptor is free after it has been closed. -/
theorem entry_closed (table : Table) (fd : Nat) : (table.closes fd).entry fd = none := by
  simp [closes]

/-- A free descriptor stays free when another is closed. -/
theorem entry_closes {one : Nat} (free : table.entry one = none) : (table.closes fd).entry one = none := by
  simp only [closes, Function.update_apply]
  split_ifs
  · rfl
  · exact free

/-- What is gone stays gone. -/
theorem Gone.closes {thing : Nat} (gone : table.Gone thing) (fd : Nat) : (table.closes fd).Gone thing := by
  intro one first
  simp only [Table.closes, Function.update_apply] at first
  split_ifs at first
  exact gone one first

/-- What the closed descriptor stood for is gone. -/
theorem gone_closed (sound : Sound table) (holds : table.Holds link) : (table.closes link.fd).Gone link.thing := by
  intro one first
  simp only [Table.closes, Function.update_apply] at first
  split_ifs at first with here
  exact here (sound.single one link.fd link.thing first holds)

/-- Links for different things have different descriptors. -/
theorem Holds.closes (holds : table.Holds link) (held : table.Holds other) (different : link.thing ≠ other.thing) :
    (table.closes other.fd).Holds link := by
  have elsewhere : link.fd ≠ other.fd := by
    intro same
    rw [Holds, same, held] at holds
    exact different (Option.some.inj holds).symm
  simpa [Holds, Table.closes, elsewhere] using holds

/-- A `close` through a link that holds makes its own thing disappear and no
other. -/
theorem gone_of_closes {thing : Nat} (held : table.Holds other) (gone : (table.closes other.fd).Gone thing) :
    table.Gone thing ∨ thing = other.thing := by
  by_cases same : thing = other.thing
  · exact Or.inr same
  · refine Or.inl fun one first => ?_
    have holds : table.Holds ⟨one, thing⟩ := first
    exact gone one (holds.closes held same)

/-- So for other things nothing changes. -/
theorem gone_closes_iff {thing : Nat} (held : table.Holds other) (different : thing ≠ other.thing) :
    (table.closes other.fd).Gone thing ↔ table.Gone thing :=
  ⟨fun gone => (gone_of_closes held gone).resolve_right different, fun gone => gone.closes other.fd⟩

/-- Opening does not change what is gone either. -/
theorem gone_opens_iff {thing : Nat} (free : table.entry fd = none) (old : thing < table.count) :
    (table.opens fd).Gone thing ↔ table.Gone thing :=
  ⟨fun gone => (gone_of_opens free gone).1, fun gone => gone.opens old fd⟩

/-- What a link holds is not gone. -/
theorem Holds.not_gone (holds : table.Holds link) : ¬ table.Gone link.thing := fun gone => gone link.fd holds

end Table

end DescriptorTables
