import MiniCoin.CheckedStrings

/-!
# Printing into arrays

`snprintf` into the cells behind an offset, with everything that can go wrong as a fault: a store
outside the array, a text that is cut, and an unsigned difference of sizes below zero. A print that
fits leaves the array with the text behind what was printed before, and so does a loop that prints
a list of texts with commas between them.
-/

namespace CheckedPrints

open ByteStrings CheckedStrings

/-- What printing can do wrong: an access out of range, a text that
`snprintf` cuts, a character that `json_escape` drops, or a size that has
become negative. -/
inductive Overrun where
  | access (fault : Fault)
  | cut
  | dropped
  | wrapped
  deriving DecidableEq

/-- A computation that ends with an error where the source would access outside
an array. -/
abbrev Printed := Except Overrun

/-- A checked access among prints. -/
def access {α : Type} : Checked α → Printed α
  | .ok value => .ok value
  | .error fault => .error (.access fault)

/-- An access inside the array gives its value. -/
@[simp] theorem access_ok {α : Type} (value : α) : access (.ok value) = .ok value := rfl

variable {n : Nat}

/-- `char cells[n] = ".."`: the cells behind the text are zero. -/
def initialised (n : Nat) (text : List UInt8) : Vector UInt8 n := Vector.ofFn fun i => text.getD i 0

/-- `size - used` in `size_t`. Where it would wrap, the program has gone wrong
already. -/
def minus (size used : Nat) : Printed Nat := if used ≤ size then .ok (size - used) else .error .wrapped

/-- Stores one behind the other. -/
def storeAll (cells : Vector UInt8 n) : (position : Nat) → List UInt8 → Printed (Vector UInt8 n)
  | _, [] => .ok cells
  | position, c :: rest => do
    let cells ← access (store cells position c)
    storeAll cells (position + 1) rest

/-- `snprintf(cells + offset, room, ..)`, with the length that it returns. A
text that does not fit is an error here, because the source relies on it. -/
def snprintfAt (cells : Vector UInt8 n) (offset room : Nat) (text : List UInt8) : Printed (Vector UInt8 n × Nat) :=
  if room ≤ text.length then .error .cut
  else do
    let cells ← storeAll cells offset (text ++ [0])
    pure (cells, text.length)

/-- `offset += snprintf(cells + offset, size - offset, ..)`. -/
def printAt (size : Nat) (cells : Vector UInt8 n) (offset : Nat) (text : List UInt8) :
    Printed (Vector UInt8 n × Nat) := do
  let room ← minus size offset
  let (cells, printed) ← snprintfAt cells offset room text
  pure (cells, offset + printed)

/-- The string in an array, as `%s` reads it. -/
def textOf (cells : Vector UInt8 n) : Printed (List UInt8) := do
  let string ← access (CString.ofCells cells)
  pure string.bytes

/-- The comma in front of all items but the first. -/
def printComma (size i : Nat) (cells : Vector UInt8 n) (offset : Nat) : Printed (Vector UInt8 n × Nat) :=
  if 0 < i then printAt size cells offset (ascii ",") else pure (cells, offset)

/-- A loop that prints the items from `i` on. -/
def printItems (size : Nat) (item : Nat → Printed (List UInt8)) :
    (left i : Nat) → Vector UInt8 n → (offset : Nat) → Printed (Vector UInt8 n × Nat)
  | 0, _, cells, offset => pure (cells, offset)
  | left + 1, i, cells, offset => do
    let text ← item i
    let (cells, offset) ← printComma size i cells offset
    let (cells, offset) ← printAt size cells offset text
    printItems size item left (i + 1) cells offset

/-! ## What is in the array -/

/-- The array begins with the text. A terminator counts as part of the text
where one was written. -/
def Begins (cells : Vector UInt8 n) (text : List UInt8) : Prop := cells.toList.take text.length = text

/-- The cells of an array begin with nothing in particular. -/
theorem begins_nil (cells : Vector UInt8 n) : Begins cells [] := rfl

/-- An array that is initialised with a text begins with it. -/
theorem begins_initialised (n : Nat) (text : List UInt8) (fits : text.length ≤ n) :
    Begins (initialised n text) text := by
  refine List.ext_getElem? fun i => ?_
  by_cases inside : i < text.length
  · rw [List.getElem?_take_of_lt inside, Vector.getElem?_toList, Vector.getElem?_eq_getElem (by omega)]
    simp [initialised, inside]
  · rw [List.getElem?_eq_none (by simp; omega), List.getElem?_eq_none (by omega)]

/-- An array that begins with a text begins with each part of it from the
front. -/
theorem Begins.left {cells : Vector UInt8 n} {text behind : List UInt8} (begins : Begins cells (text ++ behind)) :
    Begins cells text := by
  have shorter := congrArg (List.take text.length) begins
  rwa [List.take_take, List.length_append, Nat.min_eq_left (Nat.le_add_right _ _), List.take_left] at shorter

/-- What a terminated text in the array is read as. -/
theorem Begins.read {cells : Vector UInt8 n} {text : List UInt8} (begins : Begins cells (text ++ [0]))
    (clean : 0 ∉ text) : textOf cells = .ok text := by
  have split : cells.toList = text ++ 0 :: cells.toList.drop (text ++ [0]).length := by
    conv_lhs => rw [← List.take_append_drop (text ++ [0]).length cells.toList, begins]
    simp
  have view : cstr cells.toList = text := by
    rw [split]
    exact cstr_terminated _ _ clean
  rw [textOf, CString.ofCells, if_pos (by rw [split]; simp)]
  exact congrArg Except.ok view

/-- A store behind the text. -/
theorem Begins.store {cells : Vector UInt8 n} {written : List UInt8} (begins : Begins cells written) (c : UInt8)
    (room : written.length < n) :
    ∃ stored, access (CheckedStrings.store cells written.length c) = .ok stored ∧ Begins stored (written ++ [c]) := by
  obtain ⟨stored, run, next⟩ := store_next cells written c begins room
  exact ⟨stored, by rw [run, access_ok], next⟩

/-- The step lemma of all printing: bytes stored behind a text that fits extend
it. -/
theorem storeAll_exact (bytes written : List UInt8) (cells : Vector UInt8 n) (begins : Begins cells written)
    (room : written.length + bytes.length ≤ n) :
    ∃ stored, storeAll cells written.length bytes = .ok stored ∧ Begins stored (written ++ bytes) := by
  induction bytes generalizing written cells with
  | nil => exact ⟨cells, rfl, by simpa using begins⟩
  | cons c rest ih =>
    simp only [List.length_cons] at room
    obtain ⟨stored, run, next⟩ := begins.store c (by omega)
    obtain ⟨all, others, shows⟩ := ih (written ++ [c]) stored next (by
      simp only [List.length_append, List.length_singleton]
      omega)
    refine ⟨all, ?_, by simpa using shows⟩
    rw [List.length_append, List.length_singleton] at others
    rw [storeAll, run]
    exact others

/-- A print that fits. -/
theorem snprintfAt_exact (text written : List UInt8) (room : Nat) (cells : Vector UInt8 n)
    (begins : Begins cells written) (fits : text.length < room) (inside : written.length + room ≤ n) :
    ∃ printed, snprintfAt cells written.length room text = .ok (printed, text.length) ∧
      Begins printed (written ++ text ++ [0]) := by
  obtain ⟨printed, run, shows⟩ := storeAll_exact (text ++ [0]) written cells begins (by
    simp only [List.length_append, List.length_singleton]
    omega)
  refine ⟨printed, ?_, by simpa using shows⟩
  rw [snprintfAt, if_neg (by omega), run]
  rfl

/-- `snprintf(buf + off, size - off, ...)` with room for the text and its
terminator: no store is out of range, and `off` moves on by the length of the
text. -/
theorem printAt_exact (size : Nat) (text written : List UInt8) (cells : Vector UInt8 n)
    (begins : Begins cells written) (fits : (written ++ text).length < size) (inside : size ≤ n) :
    ∃ printed, printAt size cells written.length text = .ok (printed, (written ++ text).length) ∧
      Begins printed (written ++ text ++ [0]) := by
  rw [List.length_append] at fits
  obtain ⟨printed, run, shows⟩ := snprintfAt_exact text written (size - written.length) cells begins
    (by omega) (by omega)
  refine ⟨printed, ?_, shows⟩
  rw [printAt, minus, if_pos (by omega), List.length_append]
  simp only [bind, Except.bind, run]
  rfl

/-! ## Lists of texts -/

/-- The comma between elements is printed with room to spare, and the first
element has none. -/
theorem printComma_exact (size i : Nat) (written : List UInt8) (cells : Vector UInt8 n)
    (begins : Begins cells written) (room : written.length + 1 < size) (inside : size ≤ n) :
    ∃ printed, printComma size i cells written.length =
        .ok (printed, (written ++ if decide (0 < i) then ascii "," else []).length) ∧
      Begins printed (written ++ if decide (0 < i) then ascii "," else []) := by
  simp only [decide_eq_true_eq, printComma]
  split_ifs with due
  · obtain ⟨printed, run, shows⟩ := printAt_exact size (ascii ",") written cells begins
      (by rw [List.length_append]; exact room) inside
    exact ⟨printed, run, shows.left⟩
  · exact ⟨cells, by simp [pure, Except.pure], by simpa using begins⟩

/-- The loop prints the texts of its items if there is room for all of them. -/
theorem printItems_exact (size : Nat) (item : Nat → Printed (List UInt8)) (inside : size ≤ n)
    (texts : List (List UInt8)) (i : Nat) (made : ∀ j text, texts[j]? = some text → item (i + j) = .ok text)
    (written : List UInt8) (cells : Vector UInt8 n) (begins : Begins cells written)
    (room : (written ++ commaText (decide (0 < i)) texts).length + 1 < size) :
    ∃ printed, printItems size item texts.length i cells written.length =
        .ok (printed, (written ++ commaText (decide (0 < i)) texts).length) ∧
      Begins printed (written ++ commaText (decide (0 < i)) texts) := by
  induction texts generalizing i written cells with
  | nil => exact ⟨cells, by simp [printItems, commaText, pure, Except.pure], by simpa [commaText] using begins⟩
  | cons text rest ih =>
    have here : item i = .ok text := made 0 text rfl
    have later (j : Nat) (other : List UInt8) (at_ : rest[j]? = some other) : item (i + 1 + j) = .ok other := by
      rw [Nat.add_assoc, Nat.add_comm 1]
      exact made (j + 1) other at_
    obtain ⟨separated, comma, separation⟩ := printComma_exact size i written cells begins
      (by simp only [List.length_append] at room; omega) inside
    have whole : written ++ commaText (decide (0 < i)) (text :: rest) =
        (written ++ if decide (0 < i) then ascii "," else []) ++ text ++ commaText (decide (0 < i + 1)) rest := by
      simp [commaText]
    generalize (written ++ if decide (0 < i) then ascii "," else []) = front at comma separation whole
    rw [whole] at room ⊢
    obtain ⟨extended, run, shows⟩ := printAt_exact size text front separated separation
      (by simp only [List.length_append] at room ⊢; omega) inside
    obtain ⟨printed, others, all⟩ := ih (i + 1) later (front ++ text) extended shows.left room
    refine ⟨printed, ?_, all⟩
    rw [List.length_cons, printItems, here]
    simp only [bind, Except.bind, comma, run, others]

end CheckedPrints
