import Mathlib.Algebra.Order.BigOperators.Group.List
import Mathlib.Tactic.Ring

/-!
# Nesting depth

Every symbol of a text has a weight: opening brackets raise the depth, closing brackets
lower it, other symbols leave it alone. A text is enclosed at a depth if reading it from
there never brings the depth down to zero, so that a reader who stops at depth zero
reads all of it. Only the symbols with a weight matter for this.
-/

namespace Nesting

universe u

variable {α : Type u} (weight : α → Int)

/-- How much a text raises the depth. -/
def rise (text : List α) : Int := (text.map weight).sum

/-- Reading the text from a depth keeps the depth positive after every
symbol. -/
def Enclosed : Int → List α → Prop
  | _, [] => True
  | depth, c :: rest => 0 < depth + weight c ∧ Enclosed (depth + weight c) rest

/-- The test follows the recursion of `Enclosed`, so that concrete texts can be
evaluated. -/
instance decidableEnclosed : ∀ (depth : Int) (text : List α), Decidable (Enclosed weight depth text)
  | _, [] => isTrue trivial
  | depth, c :: rest =>
    have := decidableEnclosed (depth + weight c) rest
    inferInstanceAs (Decidable (_ ∧ _))

/-- The empty text does not change the depth. -/
@[simp] theorem rise_nil : rise weight ([] : List α) = 0 := rfl

/-- Depths add up over the text. -/
@[simp] theorem rise_cons (c : α) (rest : List α) :
    rise weight (c :: rest) = weight c + rise weight rest := by simp [rise]

/-- The rises of two texts add up. -/
@[simp] theorem rise_append (left right : List α) :
    rise weight (left ++ right) = rise weight left + rise weight right := by simp [rise]

/-- Nothing leaves the brackets. -/
@[simp] theorem enclosed_nil (depth : Int) : Enclosed weight depth ([] : List α) := trivial

/-- After each byte the depth is still positive. -/
@[simp] theorem enclosed_cons (depth : Int) (c : α) (rest : List α) :
    Enclosed weight depth (c :: rest) ↔
      0 < depth + weight c ∧ Enclosed weight (depth + weight c) rest := Iff.rfl

/-- A text in two parts is enclosed if the first part is, and the second is from
the depth that the first one leaves. -/
@[simp] theorem enclosed_append (depth : Int) (left right : List α) :
    Enclosed weight depth (left ++ right) ↔
      Enclosed weight depth left ∧ Enclosed weight (depth + rise weight left) right := by
  induction left generalizing depth with
  | nil => simp
  | cons c rest ih =>
    rw [List.cons_append, enclosed_cons, enclosed_cons, ih, rise_cons, and_assoc, add_assoc]

/-- What is enclosed at a depth is enclosed at every greater one. -/
theorem enclosed_mono {low high : Int} (le : low ≤ high) (text : List α)
    (enclosed : Enclosed weight low text) : Enclosed weight high text := by
  induction text generalizing low high with
  | nil => trivial
  | cons c rest ih =>
    obtain ⟨positive, later⟩ := enclosed
    exact ⟨by omega, ih (by omega) later⟩

/-- Enclosed text ends at a positive depth, if it started at one. -/
theorem enclosed_rise (depth : Int) (positive : 0 < depth) (text : List α)
    (enclosed : Enclosed weight depth text) : 0 < depth + rise weight text := by
  induction text generalizing depth with
  | nil => simpa using positive
  | cons c rest ih =>
    have := ih (depth + weight c) enclosed.1 enclosed.2
    rw [rise_cons]
    omega

/-- The symbols that have a weight. -/
def brackets (text : List α) : List α := text.filter fun c => weight c ≠ 0

@[simp] theorem brackets_nil : brackets weight ([] : List α) = [] := rfl

/-- The brackets of a text, in order. -/
@[simp] theorem brackets_append (left right : List α) :
    brackets weight (left ++ right) = brackets weight left ++ brackets weight right :=
  List.filter_append _ _

/-- Symbols without a weight add nothing to the rise, so it can be read off the
brackets alone. -/
theorem rise_brackets (text : List α) : rise weight (brackets weight text) = rise weight text := by
  induction text with
  | nil => rfl
  | cons c rest ih =>
    by_cases light : weight c = 0
    · simp_all [brackets]
    · simp_all [brackets]

/-- Only the symbols with a weight decide whether a text is enclosed. -/
theorem enclosed_brackets (depth : Int) (positive : 0 < depth) (text : List α) :
    Enclosed weight depth (brackets weight text) ↔ Enclosed weight depth text := by
  induction text generalizing depth with
  | nil => rfl
  | cons c rest ih =>
    by_cases light : weight c = 0
    · have skipped : brackets weight (c :: rest) = brackets weight rest := by simp [brackets, light]
      rw [skipped, ih depth positive, enclosed_cons, light, add_zero]
      exact ⟨fun enclosed => ⟨positive, enclosed⟩, And.right⟩
    · have kept : brackets weight (c :: rest) = c :: brackets weight rest := by simp [brackets, light]
      rw [kept, enclosed_cons, enclosed_cons]
      constructor
      · rintro ⟨still, later⟩
        exact ⟨still, (ih _ still).mp later⟩
      · rintro ⟨still, later⟩
        exact ⟨still, (ih _ still).mpr later⟩

/-- Text without brackets. -/
def Flat (text : List α) : Prop := ∀ c ∈ text, weight c = 0

/-- Flat text has no brackets left once the other symbols are gone. -/
theorem brackets_flat (text : List α) (flat : Flat weight text) : brackets weight text = [] := by
  simpa [brackets, Flat, List.filter_eq_nil_iff] using flat

/-- Flat text leaves the depth where it was. -/
theorem rise_flat (text : List α) (flat : Flat weight text) : rise weight text = 0 := by
  rw [← rise_brackets, brackets_flat weight text flat, rise_nil]

/-- Flat text never closes what stands open around it. -/
theorem enclosed_flat (depth : Int) (positive : 0 < depth) (text : List α)
    (flat : Flat weight text) : Enclosed weight depth text := by
  rw [← enclosed_brackets weight depth positive, brackets_flat weight text flat]
  trivial

/-! ## Balanced text -/

/-- Every closing bracket has an opening one before it, and the other way
round. -/
def Balanced (text : List α) : Prop := Enclosed weight 1 text ∧ rise weight text = 0

/-- A text can be tested for balance, since both halves compute. -/
instance (text : List α) : Decidable (Balanced weight text) := inferInstanceAs (Decidable (_ ∧ _))

/-- Flat text is balanced. It is the base case: every key, number and quoted
value is flat. -/
theorem balanced_flat (text : List α) (flat : Flat weight text) : Balanced weight text :=
  ⟨enclosed_flat weight 1 one_pos text flat, rise_flat weight text flat⟩

/-- Balanced text may follow balanced text, as the members of an object follow
each other. -/
theorem balanced_append (left right : List α) (first : Balanced weight left)
    (second : Balanced weight right) : Balanced weight (left ++ right) := by
  constructor
  · rw [enclosed_append, first.2]
    exact ⟨first.1, second.1⟩
  · rw [rise_append, first.2, second.2, add_zero]

/-- Brackets around balanced text are balanced. -/
theorem balanced_wrap (opening closing : α) (text : List α) (up : weight opening = 1)
    (down : weight closing = -1) (inside : Balanced weight text) :
    Balanced weight (opening :: (text ++ [closing])) := by
  have deeper : Enclosed weight (1 + 1) text := enclosed_mono weight (by omega) text inside.1
  constructor
  · rw [enclosed_cons, enclosed_append, inside.2, up, enclosed_cons, down]
    exact ⟨by omega, deeper, by omega, trivial⟩
  · rw [rise_cons, rise_append, inside.2, rise_cons, rise_nil, up, down]
    omega

/-- Only the symbols with a weight decide whether a text is balanced. -/
theorem balanced_brackets (text : List α) :
    Balanced weight (brackets weight text) ↔ Balanced weight text := by
  rw [Balanced, enclosed_brackets weight 1 one_pos, rise_brackets, Balanced]

end Nesting
