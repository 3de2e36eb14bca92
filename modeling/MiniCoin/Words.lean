import Mathlib.Data.List.TakeWhile

/-!
# Words of a text

A text is read word by word: a reader skips blanks and takes a part of the first word, and what it
leaves of that word is the first word for the next reader. Such readers see the words of a text only,
not the blanks between them.
-/

namespace Words

universe u

variable {α : Type u} (blank : α → Bool)

/-- The longest parts of a text without blanks, in order. -/
def wordsOf (text : List α) : List (List α) := (text.splitOnP blank).filter (!·.isEmpty)

/-- A word, and what may stand behind it: a blank or nothing. So the word is not
the beginning of a longer one. -/
structure Front (word tail : List α) : Prop where
  nonempty : word ≠ []
  solid : ∀ c ∈ word, blank c = false
  ends : ∀ c ∈ tail.head?, blank c = true

/-- There are no words in an empty text. -/
@[simp] theorem wordsOf_nil : wordsOf blank [] = [] := by
  simp [wordsOf]

/-- A blank before a text changes nothing. -/
theorem wordsOf_blank (c : α) (text : List α) (isBlank : blank c = true) :
    wordsOf blank (c :: text) = wordsOf blank text := by
  have split := List.splitOnP_append_cons (p := blank) [] text isBlank
  rw [List.nil_append, List.splitOnP_nil] at split
  simp [wordsOf, split]

/-- A word that ends at a blank or at the end is the first word. -/
theorem wordsOf_word {word tail : List α} (front : Front blank word tail) :
    wordsOf blank (word ++ tail) = word :: wordsOf blank tail := by
  have visible : word.isEmpty = false := by simpa using front.nonempty
  cases tail with
  | nil =>
    rw [List.append_nil, wordsOf, List.splitOnP_eq_singleton front.solid]
    simp [visible]
  | cons c rest =>
    have isBlank : blank c = true := front.ends c (by simp)
    rw [wordsOf_blank blank c rest isBlank, wordsOf,
      List.splitOnP_append_cons_of_forall_mem front.solid c isBlank rest]
    simp [wordsOf, visible]

/-- Leading blanks make no difference. -/
theorem wordsOf_dropWhile (text : List α) : wordsOf blank (text.dropWhile blank) = wordsOf blank text := by
  induction text with
  | nil => rfl
  | cons c rest ih =>
    cases isBlank : blank c with
    | true => rw [List.dropWhile_cons_of_pos isBlank, ih, wordsOf_blank blank c rest isBlank]
    | false => rw [List.dropWhile_cons_of_neg (by simp [isBlank])]

/-- A text is blank or has a first word. -/
theorem wordsOf_cases (text : List α) :
    (text.dropWhile blank = [] ∧ wordsOf blank text = []) ∨
      ∃ word tail, text.dropWhile blank = word ++ tail ∧ Front blank word tail ∧
        wordsOf blank text = word :: wordsOf blank tail := by
  rw [← wordsOf_dropWhile blank text]
  cases rest : text.dropWhile blank with
  | nil => exact Or.inl ⟨rfl, wordsOf_nil blank⟩
  | cons c others =>
    right
    have solid : blank c = false := by
      have first := List.head?_dropWhile_not blank text
      rw [rest] at first
      simpa using first
    have front : Front blank ((c :: others).takeWhile (!blank ·)) ((c :: others).dropWhile (!blank ·)) := by
      refine ⟨by simp [solid], fun d member => ?_, fun d first => ?_⟩
      · simpa using List.mem_takeWhile_imp member
      · have stop := List.head?_dropWhile_not (!blank ·) (c :: others)
        rw [Option.mem_def.mp first] at stop
        simpa using stop
    exact ⟨_, _, List.takeWhile_append_dropWhile.symm, front, by
      rw [← wordsOf_word blank front, List.takeWhile_append_dropWhile]⟩

/-! ## Readers -/

/-- What is left of some words when the first letters of the first one are
taken. -/
def cut (count : Nat) : List (List α) → List (List α)
  | [] => []
  | word :: rest => if word.length ≤ count then rest else word.drop count :: rest

/-- A reader decides on the first word how much of it to take, whatever stands
behind it. -/
structure Reader where
  count : List α → Nat
  within : ∀ word tail, Front blank word tail → count (word ++ tail) = count word ∧ count word ≤ word.length

variable {blank} (reader : Reader blank)

/-- What a reader takes of a text, and what it leaves. -/
def Reader.take (text : List α) : List α × List α :=
  let solid := text.dropWhile blank
  (solid.take (reader.count solid), solid.drop (reader.count solid))

/-- What it takes of a list of words, and what it leaves. -/
def Reader.takeWord : List (List α) → List α × List (List α)
  | [] => ([], [])
  | word :: rest => (word.take (reader.count word), cut (reader.count word) (word :: rest))

/-- Dropping a part of the first word leaves the rest of it in front. -/
theorem wordsOf_drop {word tail : List α} (front : Front blank word tail) (count : Nat)
    (within : count ≤ word.length) :
    wordsOf blank ((word ++ tail).drop count) = cut count (word :: wordsOf blank tail) := by
  rw [List.drop_append_of_le_length within, cut]
  split_ifs with whole
  · rw [List.drop_eq_nil_of_le whole, List.nil_append]
  · refine wordsOf_word blank ⟨?_, fun c member => front.solid c (List.mem_of_mem_drop member), front.ends⟩
    rw [Ne, List.drop_eq_nil_iff]
    exact whole

/-- Reading a text is reading its words. -/
theorem Reader.take_words (text : List α) :
    (reader.take text).1 = (reader.takeWord (wordsOf blank text)).1 ∧
      wordsOf blank (reader.take text).2 = (reader.takeWord (wordsOf blank text)).2 := by
  rcases wordsOf_cases blank text with ⟨rest, empty⟩ | ⟨word, tail, rest, front, words⟩
  · simp [Reader.take, Reader.takeWord, rest, empty]
  · obtain ⟨same, within⟩ := reader.within word tail front
    rw [Reader.take, rest, words, Reader.takeWord, same]
    exact ⟨List.take_append_of_le_length within, wordsOf_drop front _ within⟩

/-- A reader takes no more than there is. -/
theorem Reader.take_length (text : List α) : (reader.take text).2.length + (reader.take text).1.length ≤ text.length := by
  have blanks : (text.dropWhile blank).length ≤ text.length := (List.dropWhile_sublist _).length_le
  simp only [Reader.take, List.length_drop, List.length_take]
  omega

end Words
