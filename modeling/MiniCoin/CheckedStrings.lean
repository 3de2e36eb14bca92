import MiniCoin.ByteStrings

/-!
# Strings and arrays with checked accesses

A pointer is a position in a terminated string. Reading behind the terminator, storing outside an
array and taking an array without a terminator for a string are faults, and a program that runs
into one has no result. The functions of the C library are loops over such positions: each of them
ends without a fault, and what it returns designates the text that the functions on byte lists
return.
-/

namespace CheckedStrings

open ByteStrings

/-- What an access can do wrong: read or write behind the end, or run along
memory that has no terminator. -/
inductive Fault where
  | read | write | unterminated
  deriving DecidableEq

/-- A program whose accesses are checked. -/
abbrev Checked := Except Fault

/-- A string in memory. Its terminator stands behind the bytes and is the last
byte that may be read, so every position behind it is a fault. -/
@[ext] structure CString where
  bytes : List UInt8
  clean : 0 ∉ bytes

namespace CString

/-- `*p`. The terminator is the last byte that can be read. -/
def read (s : CString) (p : Nat) : Checked UInt8 :=
  match (s.bytes ++ [0])[p]? with
  | some c => .ok c
  | none => .error .read

/-- The pointer designates a suffix of the string. With the empty suffix it
stands on the terminator. -/
def At (s : CString) (p : Nat) (text : List UInt8) : Prop :=
  ∃ front, s.bytes = front ++ text ∧ front.length = p

section Positions

variable {s : CString} {p : Nat} {c : UInt8} {text rest : List UInt8}

/-- The address of the string designates its bytes. -/
theorem at_start (s : CString) : s.At 0 s.bytes := ⟨[], rfl, rfl⟩

/-- Position and rest together make up the string. -/
theorem At.length (designates : s.At p text) : p + text.length = s.bytes.length := by
  obtain ⟨front, split, length⟩ := designates
  rw [split, List.length_append, length]

/-- The pointer moves over bytes of the string. -/
theorem At.skip {front : List UInt8} (designates : s.At p (front ++ rest)) :
    s.At (p + front.length) rest := by
  obtain ⟨before, split, length⟩ := designates
  exact ⟨before ++ front, by simp [split], by simp [length]⟩

/-- One byte further on designates the rest without its first byte. -/
theorem At.next (designates : s.At p (c :: rest)) : s.At (p + 1) rest :=
  At.skip (show s.At p ([c] ++ rest) from designates)

/-- The text contains no terminator. -/
theorem At.clean (designates : s.At p text) : 0 ∉ text := by
  obtain ⟨front, split, -⟩ := designates
  intro member
  apply s.clean
  rw [split]
  exact List.mem_append_right front member

/-- A byte of the text is not the terminator. -/
theorem At.nonzero (designates : s.At p (c :: rest)) : c ≠ 0 := by
  rintro rfl
  exact designates.clean (by simp)

/-- What is read is the first byte of the text, or the terminator. -/
theorem At.read (designates : s.At p text) : s.read p = .ok (text.headD 0) := by
  obtain ⟨front, split, rfl⟩ := designates
  have here : (s.bytes ++ [0])[front.length]? = some (text.headD 0) := by
    rw [split, List.append_assoc, List.getElem?_append_right le_rfl, Nat.sub_self]
    cases text <;> rfl
  rw [CString.read, here]

/-- Reading where a text begins gives its first byte, and is inside the
string. -/
theorem At.read_byte (designates : s.At p (c :: rest)) : s.read p = .ok c := designates.read

/-- Reading where the text ends gives the terminator, which is still inside the
string. -/
theorem At.read_end (designates : s.At p []) : s.read p = .ok 0 := designates.read

/-- What can be read stands at or before the terminator. -/
theorem read_inside (inside : s.read p = .ok c) : p ≤ s.bytes.length := by
  by_contra behind
  have none : (s.bytes ++ [0])[p]? = none := by
    rw [List.getElem?_eq_none]
    simp
    omega
  rw [CString.read, none] at inside
  cases inside

end Positions

/-! ## Scans -/

/-- `while (skips(*p)) p++;` -/
def skipWhile (s : CString) (skips : UInt8 → Bool) (p : Nat) : Checked Nat :=
  match inside : s.read p with
  | .error fault => .error fault
  | .ok c => if skips c then s.skipWhile skips (p + 1) else .ok p
termination_by s.bytes.length + 1 - p
decreasing_by
  have := read_inside inside
  omega

/-- `strchr`. -/
def strchr (s : CString) (wanted : UInt8) (p : Nat) : Checked (Option Nat) :=
  match inside : s.read p with
  | .error fault => .error fault
  | .ok c =>
    if c = wanted then .ok (some p)
    else if c = 0 then .ok none
    else s.strchr wanted (p + 1)
termination_by s.bytes.length + 1 - p
decreasing_by
  have := read_inside inside
  omega

/-- The comparison of `strstr` at one position, which ends with the first byte
that differs. -/
def startsWith (s : CString) : (pattern : List UInt8) → (p : Nat) → Checked Bool
  | [], _ => .ok true
  | wanted :: pattern, p => do
    let c ← s.read p
    if c = wanted then s.startsWith pattern (p + 1) else .ok false

/-- `strstr`. -/
def strstr (s : CString) (pattern : List UInt8) (p : Nat) : Checked (Option Nat) :=
  match s.startsWith pattern p with
  | .error fault => .error fault
  | .ok true => .ok (some p)
  | .ok false =>
    match inside : s.read p with
    | .error fault => .error fault
    | .ok c => if c = 0 then .ok none else s.strstr pattern (p + 1)
termination_by s.bytes.length + 1 - p
decreasing_by
  have := read_inside inside
  omega

/-- The digits at the pointer, with the value of those before it. -/
def readDigits (s : CString) (p value : Nat) : Checked Nat :=
  match inside : s.read p with
  | .error fault => .error fault
  | .ok c =>
    if isDigit c then s.readDigits (p + 1) (10 * value + (c.toNat - 48)) else .ok value
termination_by s.bytes.length + 1 - p
decreasing_by
  have := read_inside inside
  omega

/-- Blanks, an optional sign and digits: whether the sign is a minus, and the
magnitude. -/
def readNumber (s : CString) (p : Nat) : Checked (Bool × Nat) := do
  let p ← s.skipWhile isSpace p
  let sign ← s.read p
  let magnitude ← s.readDigits (if sign = 45 ∨ sign = 43 then p + 1 else p) 0
  pure (sign == 45, magnitude)

/-- `strtoull(p, NULL, 10)`. -/
def strtoull (s : CString) (p : Nat) : Checked UInt64 := do
  let (negative, magnitude) ← s.readNumber p
  pure (if 2 ^ 64 ≤ magnitude then UInt64.ofNat (2 ^ 64 - 1)
    else if negative then -UInt64.ofNat magnitude else UInt64.ofNat magnitude)

/-- `strtol(p, NULL, 10)`. -/
def strtol (s : CString) (p : Nat) : Checked Int64 := do
  let (negative, magnitude) ← s.readNumber p
  let value : Int := if negative then -(magnitude : Int) else magnitude
  pure (Int64.ofInt (max (-2 ^ 63) (min (2 ^ 63 - 1) value)))

section Exact

variable {s : CString} {p : Nat} {text : List UInt8}

/-- The loop `while (skips(*p)) p++` stays inside, as it stops at the terminator
at the latest, and ends where the list layer drops to. -/
theorem skipWhile_exact (skips : UInt8 → Bool) (stops : skips 0 = false) (designates : s.At p text) :
    ∃ q, s.skipWhile skips p = .ok q ∧ s.At q (text.dropWhile skips) := by
  induction text generalizing p with
  | nil =>
    refine ⟨p, ?_, designates⟩
    rw [skipWhile, designates.read]
    simp [stops]
  | cons c rest ih =>
    rw [skipWhile, designates.read]
    cases skipped : skips c with
    | true =>
      obtain ⟨q, run, found⟩ := ih designates.next
      exact ⟨q, by simp [skipped, run], by simpa [skipped] using found⟩
    | false => exact ⟨p, by simp [skipped], by simpa [skipped] using designates⟩

/-- `strchr` reads up to the hit or the terminator, and agrees with the list
layer. -/
theorem strchr_exact (wanted : UInt8) (nonzero : wanted ≠ 0) (designates : s.At p text) :
    ∃ hit, s.strchr wanted p = .ok hit ∧ Option.Rel s.At hit (ByteStrings.strchr wanted text) := by
  induction text generalizing p with
  | nil =>
    refine ⟨none, ?_, Option.Rel.none⟩
    rw [CString.strchr, designates.read]
    simp [nonzero.symm]
  | cons c rest ih =>
    rw [CString.strchr, designates.read]
    by_cases same : c = wanted
    · refine ⟨some p, by simp [same], ?_⟩
      rw [ByteStrings.strchr, if_pos same]
      exact Option.Rel.some designates
    · obtain ⟨hit, run, found⟩ := ih designates.next
      refine ⟨hit, by simp [same, designates.nonzero, run], ?_⟩
      rwa [ByteStrings.strchr, if_neg same]

/-- The comparison ends at the terminator at the latest, for no pattern contains
it. -/
theorem startsWith_exact (pattern : List UInt8) (clean : 0 ∉ pattern) (designates : s.At p text) :
    s.startsWith pattern p = .ok (pattern.isPrefixOf text) := by
  induction pattern generalizing p text with
  | nil => simp [startsWith]
  | cons wanted pattern ih =>
    have nonzero : wanted ≠ 0 := fun zero => clean (by simp [zero])
    rw [startsWith, designates.read]
    cases text with
    | nil => simp [bind, Except.bind, nonzero.symm]
    | cons c rest =>
      by_cases same : c = wanted
      · have others := ih (fun member => clean (by simp [member])) designates.next
        simp [bind, Except.bind, same, others, List.isPrefixOf]
      · simp [bind, Except.bind, same, Ne.symm same, List.isPrefixOf]

/-- `strstr` reads no further than the terminator at any of its attempts, and
agrees with the list layer. -/
theorem strstr_exact (pattern : List UInt8) (clean : 0 ∉ pattern) (designates : s.At p text) :
    ∃ hit, s.strstr pattern p = .ok hit ∧ Option.Rel s.At hit (ByteStrings.strstr text pattern) := by
  induction text generalizing p with
  | nil =>
    rw [CString.strstr, startsWith_exact pattern clean designates, ByteStrings.strstr]
    cases pattern with
    | nil => exact ⟨some p, by simp, Option.Rel.some designates⟩
    | cons wanted pattern =>
      refine ⟨none, ?_, Option.Rel.none⟩
      simp only [List.isPrefixOf]
      rw [designates.read]
      simp
  | cons c rest ih =>
    rw [CString.strstr, startsWith_exact pattern clean designates, ByteStrings.strstr]
    cases here : pattern.isPrefixOf (c :: rest) with
    | true => exact ⟨some p, by simp, Option.Rel.some designates⟩
    | false =>
      obtain ⟨hit, run, found⟩ := ih designates.next
      refine ⟨hit, ?_, found⟩
      dsimp only
      rw [designates.read]
      simp [designates.nonzero, run]

/-- Reading decimal digits ends at the first byte that is none, the terminator
at the latest. -/
theorem readDigits_exact (value : Nat) (designates : s.At p text) :
    s.readDigits p value =
      .ok ((text.takeWhile isDigit).foldl (fun value c => 10 * value + (c.toNat - 48)) value) := by
  induction text generalizing p value with
  | nil =>
    rw [CString.readDigits, designates.read]
    simp [isDigit]
  | cons c rest ih =>
    rw [CString.readDigits, designates.read]
    cases digit : isDigit c with
    | true => simp [digit, ih _ designates.next]
    | false => simp [digit]

/-- A number is read from the text between the pointer and the terminator. -/
theorem readNumber_exact (designates : s.At p text) :
    s.readNumber p = .ok ((readSign (text.dropWhile isSpace)).1,
      ByteStrings.readDigits (readSign (text.dropWhile isSpace)).2) := by
  obtain ⟨q, run, inside⟩ := skipWhile_exact isSpace (by decide) designates
  generalize text.dropWhile isSpace = solid at inside ⊢
  rw [readNumber, run]
  simp only [bind, Except.bind, inside.read]
  cases solid with
  | nil =>
    rw [if_neg (by decide), readDigits_exact 0 inside]
    rfl
  | cons sign digits =>
    by_cases signed : sign = 45 ∨ sign = 43
    · rw [List.headD_cons, if_pos signed, readDigits_exact 0 inside.next]
      rcases signed with rfl | rfl <;> rfl
    · rw [List.headD_cons, if_neg signed, readDigits_exact 0 inside]
      obtain ⟨notMinus, notPlus⟩ := not_or.mp signed
      simp [readSign, notMinus, notPlus, pure, Except.pure, ByteStrings.readDigits]

/-- `strtoull` at a place inside the string reads inside it, and gives the list
layer's value. -/
theorem strtoull_exact (designates : s.At p text) : s.strtoull p = .ok (ByteStrings.strtoull text) := by
  rw [CString.strtoull, readNumber_exact designates]
  rfl

/-- `strtol` at a place inside the string reads inside it, and gives the list
layer's value. -/
theorem strtol_exact (designates : s.At p text) : s.strtol p = .ok (ByteStrings.strtol text) := by
  rw [CString.strtol, readNumber_exact designates]
  rfl

end Exact

end CString

/-! ## Arrays -/

/-- `cells[i] = value`. -/
def store {α : Type} {n : Nat} (cells : Vector α n) (i : Nat) (value : α) : Checked (Vector α n) :=
  if inside : i < n then .ok (cells.set i value inside) else .error .write

/-- A store inside the array changes one cell. -/
theorem store_exact {α : Type} {n : Nat} (cells : Vector α n) (i : Nat) (value : α) (inside : i < n) :
    ∃ stored, store cells i value = .ok stored ∧ stored.toList = cells.toList.set i value := by
  refine ⟨cells.set i value inside, ?_, Vector.toList_set inside⟩
  rw [store, dif_pos inside]

/-- Cells that are written one after the other. -/
theorem store_next {α : Type} {n : Nat} (cells : Vector α n) (written : List α) (value : α)
    (kept : cells.toList.take written.length = written) (inside : written.length < n) :
    ∃ stored, store cells written.length value = .ok stored ∧
      stored.toList.take (written ++ [value]).length = written ++ [value] := by
  obtain ⟨stored, run, cell⟩ := store_exact cells written.length value inside
  refine ⟨stored, run, ?_⟩
  have here : written.length < (cells.toList.set written.length value).length := by simpa using inside
  rw [cell, List.length_append, List.length_singleton, List.take_add_one, List.take_set_of_le le_rfl,
    kept, List.getElem?_eq_getElem here, List.getElem_set_self]
  rfl

/-- The array as a string, which it is up to its first terminator. -/
def CString.ofCells {n : Nat} (cells : Vector UInt8 n) : Checked CString :=
  if 0 ∈ cells.toList then .ok ⟨cstr cells.toList, cstr_no_nul _⟩ else .error .unterminated

/-- `memcpy(cells + i, s + start, len)`, byte by byte. -/
def CString.memcpy {n : Nat} (s : CString) (start : Nat) :
    (len i : Nat) → Vector UInt8 n → Checked (Vector UInt8 n)
  | 0, _, cells => .ok cells
  | len + 1, i, cells => do
    let c ← s.read (start + i)
    let cells ← store cells i c
    s.memcpy start len (i + 1) cells

/-- `malloc(len + 1)`, whose bytes are arbitrary, `memcpy` and the terminator:
the copy. -/
def CString.copy (s : CString) (start len : Nat) : Checked CString := do
  let cells ← s.memcpy start len 0 (Vector.replicate (len + 1) 170)
  let cells ← store cells len 0
  CString.ofCells cells


/-- The bytes up to the terminator, which is the last of them. -/
theorem CString.At.read_add {s : CString} {start i : Nat} {text : List UInt8}
    (designates : s.At start text) (inside : i ≤ text.length) :
    ∃ c, s.read (start + i) = .ok c ∧ (text ++ [0]).drop i = c :: (text ++ [0]).drop (i + 1) := by
  have split : s.At start (text.take i ++ text.drop i) := by rwa [List.take_append_drop]
  have here := split.skip.read
  rw [List.length_take, Nat.min_eq_left inside] at here
  refine ⟨(text.drop i).headD 0, here, ?_⟩
  rw [List.drop_append_of_le_length inside]
  cases rest : text.drop i with
  | nil =>
    have length : text.length ≤ i := List.drop_eq_nil_iff.mp rest
    simp [List.drop_eq_nil_of_le (show (text ++ [0]).length ≤ i + 1 by simpa using length)]
  | cons c tail =>
    have later : i + 1 ≤ text.length := by
      by_contra behind
      rw [List.drop_eq_nil_of_le (by omega)] at rest
      cases rest
    rw [List.drop_append_of_le_length later, ← List.drop_drop, rest]
    rfl

/-- `memcpy` of a part of the string, terminator included at most, into a buffer
with room for it: no access is out of range, and the bytes are those of the
text. -/
theorem CString.memcpy_exact {n : Nat} {s : CString} {start : Nat} {text : List UInt8}
    (designates : s.At start text) (len : Nat) (written : List UInt8) (cells : Vector UInt8 n)
    (kept : cells.toList.take written.length = written) (room : written.length + len ≤ n)
    (inside : written.length + len ≤ text.length + 1) :
    ∃ copied, s.memcpy start len written.length cells = .ok copied ∧
      copied.toList.take (written.length + len) =
        written ++ ((text ++ [0]).drop written.length).take len := by
  induction len generalizing written cells with
  | zero => exact ⟨cells, rfl, by simpa using kept⟩
  | succ len ih =>
    obtain ⟨c, read, rest⟩ := designates.read_add (show written.length ≤ text.length by omega)
    obtain ⟨stored, run, grown⟩ := store_next cells written c kept (by omega)
    have length : (written ++ [c]).length = written.length + 1 := by simp
    obtain ⟨copied, others, all⟩ := ih (written ++ [c]) stored grown (by omega) (by omega)
    rw [length] at others all
    refine ⟨copied, ?_, ?_⟩
    · rw [CString.memcpy, read]
      simp only [bind, Except.bind, run, others]
    · rw [rest, List.take_succ_cons, show written.length + (len + 1) = written.length + 1 + len by omega,
        all]
      simp

/-- What stands behind the terminator is not part of the string. -/
theorem cstr_terminated (bytes behind : List UInt8) (clean : 0 ∉ bytes) :
    cstr (bytes ++ 0 :: behind) = bytes := by
  have whole := cstr_eq_self bytes clean
  unfold cstr at whole ⊢
  rw [List.takeWhile_append_of_pos]
  · simp
  · exact List.takeWhile_eq_self_iff.mp whole

/-- A copy of bytes at or before the terminator is a string. -/
theorem CString.copy_exact {s : CString} {start len : Nat} {text : List UInt8}
    (designates : s.At start text) (inside : len ≤ text.length + 1) :
    ∃ copy, s.copy start len = .ok copy ∧ copy.bytes = text.take len := by
  obtain ⟨copied, run, bytes⟩ := CString.memcpy_exact designates len []
    (Vector.replicate (len + 1) 170) rfl (by simp) (by simpa using inside)
  have length : ((text ++ [0]).take len).length = len := by
    rw [List.length_take, List.length_append]
    exact Nat.min_eq_left inside
  simp only [List.length_nil, Nat.zero_add, List.drop_zero, List.nil_append] at run bytes
  obtain ⟨stored, ended, all⟩ := store_next copied ((text ++ [0]).take len) 0
    (by rw [length, bytes]) (by omega)
  rw [length] at ended
  have cells : stored.toList = (text ++ [0]).take len ++ [0] := by
    rw [← all, List.take_of_length_le]
    simp [length]
  have view : cstr stored.toList = text.take len := by
    have clean : 0 ∉ text.take len := fun member => designates.clean (List.mem_of_mem_take member)
    obtain ⟨behind, ends⟩ : ∃ behind, stored.toList = text.take len ++ 0 :: behind := by
      by_cases short : len ≤ text.length
      · exact ⟨[], by rw [cells, List.take_append_of_le_length short]⟩
      · refine ⟨[0], ?_⟩
        rw [cells, List.take_of_length_le (by simp; omega), List.take_of_length_le (by omega)]
        simp
    rw [ends]
    exact cstr_terminated _ _ clean
  refine ⟨⟨cstr stored.toList, cstr_no_nul _⟩, ?_, view⟩
  rw [CString.copy, run]
  simp only [bind, Except.bind, ended]
  rw [CString.ofCells, if_pos (by simp [cells])]

end CheckedStrings
