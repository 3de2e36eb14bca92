import Mathlib.Data.Nat.Digits.Lemmas
import Mathlib.Data.List.TakeWhile

/-!
# C strings as byte lists

A NUL-terminated string is the list of its bytes before the terminator; the end
of the list is the terminator. A pointer into such a string is the suffix that
starts at it, and advancing the pointer drops bytes. Character arrays of a
fixed size are `CText` values, which carry the two facts every C reader relies
on: the terminator is inside the array and no byte before it is NUL.

The functions below follow the C library: substring and character search,
decimal printing, and the prefix-reading number parsers with their sign rules
and saturation. Nothing here knows what the strings are used for.
-/

namespace ByteStrings

/-- What is said of all bytes in a text is decided along the text, not for all
256 bytes. -/
instance (priority := 1100) decidableAllIn {α : Type} (property : α → Prop) [DecidablePred property]
    (text : List α) : Decidable (∀ c ∈ text, property c) := List.decidableBAll property text

instance (priority := 1100) decidableSomeIn {α : Type} (property : α → Prop) [DecidablePred property]
    (text : List α) : Decidable (∃ c ∈ text, property c) := List.decidableBEx property text

/-- The bytes of an ASCII string constant. -/
def ascii (text : String) : List UInt8 := text.toList.map fun c => c.toNat.toUInt8

/-- The six bytes that `isspace` accepts in the C locale. -/
def isSpace (c : UInt8) : Bool := c.toNat == 32 || (9 ≤ c.toNat && c.toNat ≤ 13)

/-- The bytes a C reader sees: everything before the first NUL. What follows it
in the buffer is there but has no effect. -/
def cstr (bytes : List UInt8) : List UInt8 := bytes.takeWhile (· != 0)

/-- What is read of a C string has no terminator in it. -/
theorem cstr_no_nul (bytes : List UInt8) : 0 ∉ cstr bytes := by
  intro member
  simpa using List.mem_takeWhile_imp member

/-- A list without NUL is read completely. -/
theorem cstr_eq_self (bytes : List UInt8) (clean : 0 ∉ bytes) : cstr bytes = bytes := by
  refine List.takeWhile_eq_self_iff.mpr fun c member => ?_
  simp only [bne_iff_ne, ne_eq]
  rintro rfl
  exact clean member

/-- It consists of bytes of the array. -/
theorem mem_cstr (bytes : List UInt8) (c : UInt8) (member : c ∈ cstr bytes) : c ∈ bytes :=
  List.takeWhile_subset _ member

/-! ## Character arrays -/

/-- A `char` array of `size` bytes that holds a terminated string. Bytes after
the terminator are not observable and are left out. -/
@[ext] structure CText (size : Nat) where
  bytes : List UInt8
  bound : bytes.length < size
  clean : 0 ∉ bytes
  deriving DecidableEq

namespace CText

/-- The array after `memset(.., 0, ..)`. -/
def empty {size : Nat} [NeZero size] : CText size := ⟨[], Nat.pos_of_neZero size, by simp⟩

/-- Copy what a C reader sees of `bytes` into a zeroed array, cutting it so that
the terminator stays inside. This is `strncpy(dst, src, size - 1)`. -/
def ofBytes {size : Nat} [NeZero size] (bytes : List UInt8) : CText size where
  bytes := (cstr bytes).take (size - 1)
  bound := by
    have positive : 0 < size := Nat.pos_of_neZero size
    rw [List.length_take]
    omega
  clean := fun member => cstr_no_nul bytes (List.mem_of_mem_take member)

/-- A string that fits is stored unchanged. -/
theorem ofBytes_fits {size : Nat} [NeZero size] (bytes : List UInt8) (clean : 0 ∉ bytes)
    (fits : bytes.length < size) : (ofBytes bytes : CText size).bytes = bytes := by
  have positive : 0 < size := Nat.pos_of_neZero size
  simp only [ofBytes, cstr_eq_self bytes clean]
  exact List.take_of_length_le (by omega)

/-- Copying a stored string into an array of the same size restores it. -/
@[simp] theorem ofBytes_bytes {size : Nat} [NeZero size] (text : CText size) :
    (ofBytes text.bytes : CText size) = text :=
  CText.ext (ofBytes_fits text.bytes text.clean text.bound)

/-- A stored string has no byte that its source lacked. -/
theorem mem_ofBytes {size : Nat} [NeZero size] (bytes : List UInt8) (c : UInt8)
    (member : c ∈ (ofBytes bytes : CText size).bytes) : c ∈ bytes :=
  mem_cstr bytes c (List.mem_of_mem_take member)

end CText

/-! ## Searching -/

/-- `strstr`: the first suffix of the text that starts with the pattern. -/
def strstr : List UInt8 → List UInt8 → Option (List UInt8)
  | [], pattern => if pattern = [] then some [] else none
  | c :: rest, pattern =>
    if pattern.isPrefixOf (c :: rest) then some (c :: rest) else strstr rest pattern

/-- `strchr`: the first suffix of the text that starts with the byte. -/
def strchr (wanted : UInt8) : List UInt8 → Option (List UInt8)
  | [] => none
  | c :: rest => if c = wanted then some (c :: rest) else strchr wanted rest

/-- A match at the head is found at once. -/
theorem strstr_head (pattern rest : List UInt8) (nonempty : pattern ≠ []) :
    strstr (pattern ++ rest) pattern = some (pattern ++ rest) := by
  cases pattern with
  | nil => exact absurd rfl nonempty
  | cons c tail =>
    have here : (c :: tail).isPrefixOf (c :: tail ++ rest) = true := by
      rw [List.isPrefixOf_iff_prefix]
      exact List.prefix_append _ _
    rw [List.cons_append] at here ⊢
    rw [strstr, if_pos here]

/-- Text in which the pattern's first byte does not occur is skipped. -/
theorem strstr_skip (first : UInt8) (pattern skipped rest : List UInt8)
    (absent : first ∉ skipped) :
    strstr (skipped ++ rest) (first :: pattern) = strstr rest (first :: pattern) := by
  induction skipped with
  | nil => rfl
  | cons c tail ih =>
    have other : first ≠ c := fun same => absent (by simp [same])
    rw [List.cons_append, strstr, if_neg (by simp [List.isPrefixOf, other])]
    exact ih fun member => absent (by simp [member])

/-- A position at which the pattern does not match is skipped. -/
theorem strstr_step (c : UInt8) (pattern rest : List UInt8) (missed : ¬ pattern <+: c :: rest) :
    strstr (c :: rest) pattern = strstr rest pattern := by
  rw [strstr, if_neg (by rwa [List.isPrefixOf_iff_prefix])]

/-- Bytes other than the wanted one are passed over. -/
theorem strchr_skip (wanted : UInt8) (skipped rest : List UInt8) (absent : wanted ∉ skipped) :
    strchr wanted (skipped ++ rest) = strchr wanted rest := by
  induction skipped with
  | nil => rfl
  | cons c tail ih =>
    have other : c ≠ wanted := fun same => absent (by simp [same])
    rw [List.cons_append, strchr, if_neg other]
    exact ih fun member => absent (by simp [member])

/-- The first byte is found at once. -/
@[simp] theorem strchr_head (wanted : UInt8) (rest : List UInt8) :
    strchr wanted (wanted :: rest) = some (wanted :: rest) := by simp [strchr]

/-- What `strchr` returns is a suffix that starts with the byte. -/
theorem strchr_some (wanted : UInt8) (text found : List UInt8)
    (hit : strchr wanted text = some found) : ∃ rest, found = wanted :: rest ∧ found <:+ text := by
  induction text with
  | nil => simp [strchr] at hit
  | cons c tail ih =>
    by_cases same : c = wanted
    · rw [strchr, if_pos same] at hit
      obtain rfl := Option.some.inj hit
      exact ⟨tail, by rw [same], List.suffix_refl _⟩
    · rw [strchr, if_neg same] at hit
      obtain ⟨rest, shape, suffix⟩ := ih hit
      exact ⟨rest, shape, suffix.trans (List.suffix_cons c tail)⟩

/-- What `strchr` passes over does not have the byte. -/
theorem strchr_split (wanted : UInt8) (text found : List UInt8) (hit : strchr wanted text = some found) :
    ∃ gap rest, text = gap ++ wanted :: rest ∧ found = wanted :: rest ∧ wanted ∉ gap := by
  induction text with
  | nil => cases hit
  | cons c tail ih =>
    by_cases same : c = wanted
    · rw [strchr, if_pos same] at hit
      obtain rfl := Option.some.inj hit
      exact ⟨[], tail, by rw [same]; rfl, by rw [same], List.not_mem_nil⟩
    · rw [strchr, if_neg same] at hit
      obtain ⟨gap, rest, rfl, shape, absent⟩ := ih hit
      exact ⟨c :: gap, rest, rfl, shape, List.not_mem_cons_of_ne_of_not_mem (Ne.symm same) absent⟩

/-! ## Printing numbers -/

/-- `%u`, `%lu`: the decimal digits without leading zeros. -/
def decimal (n : Nat) : List UInt8 :=
  if n = 0 then [48] else (Nat.digits 10 n).reverse.map fun digit => (48 + digit).toUInt8

/-- `%d`, `%ld`: a minus sign before the digits of a negative number. -/
def signedDecimal (z : Int) : List UInt8 :=
  if z < 0 then 45 :: decimal z.natAbs else decimal z.natAbs

/-- `snprintf` into `size` bytes keeps what fits before the terminator. Its
result in C is the length of the whole text, which `Buffer.print` adds to the
offset. -/
def snprintf (size : Nat) (text : List UInt8) : List UInt8 := text.take (size - 1)

/-- A text that fits is printed whole. -/
theorem snprintf_fits (size : Nat) (text : List UInt8) (fits : text.length < size) :
    snprintf size text = text :=
  List.take_of_length_le (by omega)

/-- A buffer that successive `snprintf` calls extend. The offset advances by the
length each call wanted to print, so it runs past the text if a call is cut. -/
structure Buffer where
  text : List UInt8
  offset : Nat

/-- `offset += snprintf(buf + offset, size - offset, ..)`. The offset counts
what was to be written, so it may leave the buffer. -/
def Buffer.print (size : Nat) (buffer : Buffer) (text : List UInt8) : Buffer :=
  ⟨buffer.text.take buffer.offset ++ snprintf (size - buffer.offset) text,
    buffer.offset + text.length⟩

/-- A print that fits extends the text and keeps the offset at its end. -/
theorem Buffer.print_fits (size : Nat) (text added : List UInt8)
    (fits : text.length + added.length < size) :
    Buffer.print size ⟨text, text.length⟩ added = ⟨text ++ added, (text ++ added).length⟩ := by
  rw [Buffer.print, snprintf_fits _ _ (by dsimp only; omega)]
  simp

/-- The texts with commas between them; the flag tells whether a comma is
due. -/
def commaText : (comma : Bool) → List (List UInt8) → List UInt8
  | _, [] => []
  | comma, text :: rest => (if comma then ascii "," else []) ++ text ++ commaText true rest

/-- With commas, each text takes one byte more at most. -/
theorem commaText_length (comma : Bool) (texts : List (List UInt8)) (bound : Nat)
    (short : ∀ text ∈ texts, text.length ≤ bound) : (commaText comma texts).length ≤ (bound + 1) * texts.length := by
  induction texts generalizing comma with
  | nil => simp [commaText]
  | cons text rest ih =>
    have here := short text (by simp)
    have others := ih true fun other member => short other (by simp [member])
    have one : (if comma then ascii "," else []).length ≤ 1 := by cases comma <;> decide
    simp only [commaText, List.length_append, List.length_cons, Nat.mul_succ]
    omega

theorem commaText_clean (comma : Bool) (texts : List (List UInt8)) (clean : ∀ text ∈ texts, 0 ∉ text) :
    0 ∉ commaText comma texts := by
  induction texts generalizing comma with
  | nil => simp [commaText]
  | cons text rest ih =>
    have others := ih true fun other member => clean other (by simp [member])
    have one : 0 ∉ (if comma then ascii "," else []) := by cases comma <;> decide
    simp only [commaText, List.mem_append, not_or]
    exact ⟨⟨one, clean text (by simp)⟩, others⟩

/-- A loop that prints values with commas between them prints all of them if
there is room. -/
theorem Buffer.loop_fits {α : Type} (size : Nat) (loop : Bool → List α → Buffer → Buffer)
    (item : α → List UInt8) (done : ∀ comma buffer, loop comma [] buffer = buffer)
    (next : ∀ comma value rest buffer, loop comma (value :: rest) buffer =
      loop true rest ((if comma then buffer.print size (ascii ",") else buffer).print size (item value)))
    (comma : Bool) (values : List α) (text : List UInt8)
    (room : (text ++ commaText comma (values.map item)).length < size) :
    loop comma values ⟨text, text.length⟩ =
      ⟨text ++ commaText comma (values.map item), (text ++ commaText comma (values.map item)).length⟩ := by
  induction values generalizing comma text with
  | nil => simp [done, commaText]
  | cons value rest ih =>
    have whole : text ++ commaText comma ((value :: rest).map item) =
        (text ++ if comma then ascii "," else []) ++ item value ++ commaText true (rest.map item) := by
      simp [commaText]
    have separated : (if comma then Buffer.print size ⟨text, text.length⟩ (ascii ",") else ⟨text, text.length⟩) =
        ⟨text ++ if comma then ascii "," else [], (text ++ if comma then ascii "," else []).length⟩ := by
      cases comma with
      | false => simp
      | true =>
        refine Buffer.print_fits size text _ ?_
        simp only [commaText, List.map_cons, if_true, List.length_append] at room
        omega
    rw [whole] at room ⊢
    simp only [List.length_append] at room
    rw [next, separated, Buffer.print_fits _ _ _ (by simp only [List.length_append]; omega),
      ih true _ (by simp only [List.length_append]; omega)]

/-! ## Reading numbers -/

/-- The ten decimal digits. -/
def isDigit (c : UInt8) : Bool := 48 ≤ c.toNat && c.toNat ≤ 57

/-- The value of the longest prefix of digits; zero when there is none. What
follows the digits is not looked at. -/
def readDigits (text : List UInt8) : Nat :=
  (text.takeWhile isDigit).foldl (fun value c => 10 * value + (c.toNat - 48)) 0

/-- The optional sign in front of the digits: whether it is a minus, and the
rest. -/
def readSign : List UInt8 → Bool × List UInt8
  | 45 :: rest => (true, rest)
  | 43 :: rest => (false, rest)
  | text => (false, text)

/-- `strtoull(p, NULL, 10)`: blanks, a sign, digits. A magnitude that does not
fit saturates; otherwise a minus sign negates modulo `2^64`. -/
def strtoull (text : List UInt8) : UInt64 :=
  let (negative, digits) := readSign (text.dropWhile isSpace)
  let magnitude := readDigits digits
  if 2 ^ 64 ≤ magnitude then UInt64.ofNat (2 ^ 64 - 1)
  else if negative then -UInt64.ofNat magnitude else UInt64.ofNat magnitude

/-- `strtol(p, NULL, 10)` on a 64-bit `long`, saturating at both ends. Without
digits the value is zero. -/
def strtol (text : List UInt8) : Int64 :=
  let (negative, digits) := readSign (text.dropWhile isSpace)
  let value : Int := if negative then -(readDigits digits : Int) else readDigits digits
  Int64.ofInt (max (-2 ^ 63) (min (2 ^ 63 - 1) value))

/-! ## What is printed is read back -/

/-- Numbers are printed in digits only. -/
theorem decimal_digits (n : Nat) (c : UInt8) (member : c ∈ decimal n) : isDigit c = true := by
  unfold decimal at member
  split at member
  · obtain rfl := List.mem_singleton.mp member
    decide
  · obtain ⟨digit, inDigits, rfl⟩ := List.mem_map.mp member
    have small : digit < 10 := Nat.digits_lt_base (by decide) (List.mem_reverse.mp inDigits)
    have value : (48 + digit).toUInt8.toNat = 48 + digit := by
      simp [Nat.toUInt8]
      omega
    simp only [isDigit, value, Bool.and_eq_true, decide_eq_true_eq]
    omega

/-- A number has at least one digit, zero as well. -/
theorem decimal_ne_nil (n : Nat) : decimal n ≠ [] := by
  unfold decimal
  split
  · simp
  · next nonzero => simpa using Nat.digits_ne_nil_iff_ne_zero.mpr nonzero

/-- A number below `10 ^ width` prints in at most `width` digits. -/
theorem decimal_length (n width : Nat) (small : n < 10 ^ width) (positive : 0 < width) :
    (decimal n).length ≤ width := by
  unfold decimal
  split
  · simpa using Nat.succ_le_of_lt positive
  · simpa using (Nat.digits_length_le_iff (by decide : 1 < 10) n).mpr small

/-- The digits of a number, in front of text that starts with no digit, are read
back as the number. -/
theorem readDigits_decimal (n : Nat) (rest : List UInt8)
    (stop : ∀ c ∈ rest.head?, isDigit c = false) :
    readDigits (decimal n ++ rest) = n := by
  have taken : (decimal n ++ rest).takeWhile isDigit = decimal n := by
    rw [List.takeWhile_append_of_pos (decimal_digits n)]
    cases rest with
    | nil => simp
    | cons c tail => simp [stop c (by simp)]
  rw [readDigits, taken, decimal]
  split
  · next zero => simp [zero]
  · rw [List.foldl_map, List.foldl_reverse]
    conv_rhs => rw [← Nat.ofDigits_digits 10 n]
    have bounded : ∀ digit ∈ Nat.digits 10 n, digit < 10 := fun _ => Nat.digits_lt_base (by decide)
    generalize Nat.digits 10 n = digits at bounded
    induction digits with
    | nil => rfl
    | cons digit tail ih =>
      have small : digit < 10 := bounded digit (by simp)
      have value : (48 + digit).toUInt8.toNat = 48 + digit := by
        simp [Nat.toUInt8]
        omega
      rw [List.foldr_cons, ih fun d member => bounded d (by simp [member]), Nat.ofDigits_cons, value]
      omega

/-- A digit is neither a blank nor a sign. -/
theorem readSign_digits (text : List UInt8) (starts : ∀ c ∈ text.head?, isDigit c = true) :
    readSign (text.dropWhile isSpace) = (false, text) := by
  cases text with
  | nil => rfl
  | cons c tail =>
    have digit : isDigit c = true := starts c (by simp)
    simp only [isDigit, Bool.and_eq_true, decide_eq_true_eq] at digit
    have solid : isSpace c = false := by
      simp only [isSpace, Bool.or_eq_false_iff, beq_eq_false_iff_ne, Bool.and_eq_false_iff,
        decide_eq_false_iff_not]
      omega
    rw [List.dropWhile_cons_of_neg (by simp [solid])]
    have notMinus : c ≠ 45 := by rintro rfl; simp at digit
    have notPlus : c ≠ 43 := by rintro rfl; simp at digit
    simp [readSign, notMinus, notPlus]

theorem decimal_head (n : Nat) (rest : List UInt8) :
    ∀ c ∈ (decimal n ++ rest).head?, isDigit c = true := by
  intro c first
  cases printed : decimal n with
  | nil => exact absurd printed (decimal_ne_nil n)
  | cons d tail =>
    obtain rfl : d = c := by simpa [printed] using first
    exact decimal_digits n d (by simp [printed])

/-- An unsigned 64-bit value survives printing and `strtoull`. -/
theorem strtoull_decimal (n : UInt64) (rest : List UInt8)
    (stop : ∀ c ∈ rest.head?, isDigit c = false) :
    strtoull (decimal n.toNat ++ rest) = n := by
  have bounded : ¬ 2 ^ 64 ≤ n.toNat := Nat.not_le.mpr n.toNat_lt
  simp only [strtoull, readSign_digits _ (decimal_head n.toNat rest),
    readDigits_decimal n.toNat rest stop, bounded, if_false]
  simp

/-- Printing a negative number and reading it back gives the sign and the
magnitude. -/
theorem readSign_minus (n : Nat) (rest : List UInt8) :
    readSign ((45 :: decimal n ++ rest).dropWhile isSpace) = (true, decimal n ++ rest) := by
  rw [List.cons_append, List.dropWhile_cons_of_neg (by decide)]
  rfl

/-- A signed 64-bit value survives `%ld`, `strtoull` and the cast back: the
minus sign negates modulo `2^64`. -/
theorem strtoull_signedDecimal (x : Int64) (rest : List UInt8)
    (stop : ∀ c ∈ rest.head?, isDigit c = false) :
    (strtoull (signedDecimal x.toInt ++ rest)).toInt64 = x := by
  have lower := x.le_toInt
  have upper := x.toInt_lt
  have bounded : ¬ 2 ^ 64 ≤ x.toInt.natAbs := by omega
  unfold signedDecimal
  split
  · next negative =>
    simp only [strtoull, readSign_minus, readDigits_decimal _ rest stop, bounded, if_false, if_true,
      UInt64.toInt64_neg, UInt64.toInt64_ofNat']
    rw [← Int64.ofInt_eq_ofNat, ← Int64.ofInt_neg]
    have same : -(x.toInt.natAbs : Int) = x.toInt := by omega
    rw [same, Int64.ofInt_toInt]
  · next nonnegative =>
    simp only [strtoull, readSign_digits _ (decimal_head _ rest), readDigits_decimal _ rest stop,
      bounded, if_false, Bool.false_eq_true, UInt64.toInt64_ofNat']
    rw [← Int64.ofInt_eq_ofNat]
    have same : (x.toInt.natAbs : Int) = x.toInt := by omega
    rw [same, Int64.ofInt_toInt]

/-- A signed 32-bit value survives `%d`, `strtol` and the cast to `int`. -/
theorem strtol_signedDecimal (x : Int32) (rest : List UInt8)
    (stop : ∀ c ∈ rest.head?, isDigit c = false) :
    (strtol (signedDecimal x.toInt ++ rest)).toInt32 = x := by
  have lower := x.le_toInt
  have upper := x.toInt_lt
  have inside : max (-2 ^ 63) (min (2 ^ 63 - 1) x.toInt) = x.toInt := by omega
  unfold signedDecimal
  split
  · next negative =>
    have same : -(x.toInt.natAbs : Int) = x.toInt := by omega
    simp only [strtol, readSign_minus, readDigits_decimal _ rest stop, if_true, same, inside,
      Int64.toInt32_ofInt, Int32.ofInt_toInt]
  · next nonnegative =>
    have same : (x.toInt.natAbs : Int) = x.toInt := by omega
    simp only [strtol, readSign_digits _ (decimal_head _ rest), readDigits_decimal _ rest stop,
      Bool.false_eq_true, if_false, same, inside, Int64.toInt32_ofInt, Int32.ofInt_toInt]

/-! ## Hexadecimal text -/

/-- A lower-case hexadecimal digit. -/
def hexDigit (n : Nat) : UInt8 := if n < 10 then (48 + n).toUInt8 else (87 + n).toUInt8

/-- `%02x` of one byte. -/
def hexByte (b : UInt8) : List UInt8 := [hexDigit (b.toNat / 16), hexDigit (b.toNat % 16)]

/-- The bytes printed one after another. -/
def hexText (bytes : List UInt8) : List UInt8 := bytes.flatMap hexByte

@[simp] theorem hexText_length (bytes : List UInt8) : (hexText bytes).length = 2 * bytes.length := by
  induction bytes with
  | nil => rfl
  | cons b rest ih =>
    simp only [hexText, List.flatMap_cons, List.length_append, List.length_cons] at ih ⊢
    rw [ih]
    simp [hexByte]
    omega

/-- The sixteen bytes that occur in hexadecimal text. -/
def isHex (c : UInt8) : Bool := isDigit c || (97 ≤ c.toNat && c.toNat ≤ 102)

theorem hexDigit_isHex (n : Nat) (small : n < 16) : isHex (hexDigit n) = true := by
  interval_cases n <;> decide

/-- Bytes are printed in hexadecimal digits in lower case. -/
theorem hexText_isHex (bytes : List UInt8) (c : UInt8) (member : c ∈ hexText bytes) :
    isHex c = true := by
  obtain ⟨b, -, printed⟩ := List.mem_flatMap.mp member
  have bounded := b.toNat_lt
  simp only [hexByte, List.mem_cons, List.not_mem_nil, or_false] at printed
  rcases printed with rfl | rfl <;> exact hexDigit_isHex _ (by omega)

theorem hexText_no_nul (bytes : List UInt8) : 0 ∉ hexText bytes := fun member =>
  absurd (hexText_isHex bytes 0 member) (by decide)

/-- Thirty-two bytes printed into an array of 65. -/
def hexText32 (bytes : Vector UInt8 32) : CText 65 where
  bytes := hexText bytes.toList
  bound := by simp
  clean := hexText_no_nul _

@[simp] theorem hexText32_length (bytes : Vector UInt8 32) : (hexText32 bytes).bytes.length = 64 := by
  simp [hexText32]

theorem hexText32_isHex (bytes : Vector UInt8 32) :
    ∀ c ∈ (hexText32 bytes).bytes, isHex c = true := hexText_isHex _

/-- The value of a hexadecimal digit of either case. -/
def hexValue (c : UInt8) : Option Nat :=
  if isDigit c then some (c.toNat - 48)
  else if 97 ≤ c.toNat && c.toNat ≤ 102 then some (c.toNat - 87)
  else if 65 ≤ c.toNat && c.toNat ≤ 70 then some (c.toNat - 55)
  else none

/-- `%x` on a window of at most two bytes: an optional sign or `0x` prefix uses
up the window like digits do, and at least one digit must be left. For `0x` and
`0X` alone this is the rule of ISO C, where such an item is a matching failure;
glibc takes the zero and stores it. -/
def scanWindow : List UInt8 → Option UInt8
  | [43, d] => (hexValue d).map Nat.toUInt8
  | [45, d] => (hexValue d).map fun n => -n.toUInt8
  | [48, 120] => none
  | [48, 88] => none
  | [c, d] => (hexValue c).map fun high =>
      match hexValue d with
      | some low => (16 * high + low).toUInt8
      | none => high.toUInt8
  | [c] => (hexValue c).map Nat.toUInt8
  | _ => none

/-- `sscanf(text, "%02x", &byte)` and the cast to `unsigned char`: blanks are
skipped and do not count against the width. -/
def scanHexByte (text : List UInt8) : Option UInt8 :=
  scanWindow ((text.dropWhile isSpace).take 2)

/-- The two digits of a byte are read as that byte. -/
theorem scanWindow_hexByte (b : UInt8) :
    isSpace (hexDigit (b.toNat / 16)) = false ∧ scanWindow (hexByte b) = some b := by
  obtain ⟨n, bounded, rfl⟩ : ∃ n, n < 256 ∧ n.toUInt8 = b := ⟨b.toNat, b.toNat_lt, by simp⟩
  revert n
  decide +kernel

/-- A printed byte is scanned back, whatever follows it. -/
theorem scanHexByte_hexByte (b : UInt8) (rest : List UInt8) :
    scanHexByte (hexByte b ++ rest) = some b := by
  obtain ⟨solid, scanned⟩ := scanWindow_hexByte b
  have kept : (hexByte b ++ rest).dropWhile isSpace = hexByte b ++ rest := by
    simp only [hexByte, List.cons_append]
    rw [List.dropWhile_cons_of_neg (by simp [solid])]
  rw [scanHexByte, kept]
  exact scanned

end ByteStrings
