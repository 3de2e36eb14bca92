import MiniCoin.Protocol

/-!
# Reading fields

What the helpers of `protocol.c` return on text made of fields: the key search finds
the field of the key, whatever the values in front of it are, a string value is
unescaped, and a number is read up to the byte that closes the field.
-/

namespace MiniCoin

open ByteStrings QuotedText

/-! ## Escaping -/

/-- With room for two bytes each, the loop writes the whole escaped text: the
test of the source leaves room for one escape and the terminator, and never
stops it. -/
theorem jsonEscapeLoop_eq (dstSize : Nat) (src dst : List UInt8)
    (room : dst.length + 2 * src.length < dstSize) :
    jsonEscapeLoop dstSize src dst = dst ++ escape src := by
  induction src generalizing dst with
  | nil => simp [jsonEscapeLoop, escape]
  | cons c rest ih =>
    simp only [List.length_cons] at room
    rw [jsonEscapeLoop, if_pos (by omega), ih, escape_cons]
    · split <;> simp
    · split <;> simp <;> omega

/-- With twice the size of the array, no character is dropped. -/
theorem jsonEscape_eq (text : CText addrLen) :
    jsonEscape text.bytes (addrLen * 2) = escape text.bytes := by
  have bound : text.bytes.length < 65 := text.bound
  have room : ([] : List UInt8).length + 2 * text.bytes.length < addrLen * 2 := by
    simp only [List.length_nil, addrLen]
    omega
  simpa [jsonEscape] using jsonEscapeLoop_eq (addrLen * 2) text.bytes [] room

/-- The copy loop inverts escaping, up to the closing quotation mark. -/
theorem copyString_escape (room : Nat) (text rest : List UInt8) (fits : text.length ≤ room) :
    copyString room (escape text ++ 34 :: rest) = text := by
  induction text generalizing room with
  | nil => cases room <;> simp [copyString, escape]
  | cons c tail ih =>
    obtain ⟨room, rfl⟩ : ∃ less, room = less + 1 :=
      ⟨room - 1, by simp only [List.length_cons] at fits; omega⟩
    have fits' : tail.length ≤ room := by simpa using fits
    rw [escape_cons]
    split
    · simp [copyString, ih room fits']
    · next ordinary =>
      have notQuote : c ≠ 34 := fun same => ordinary (Or.inl same)
      have notBackslash : c ≠ 92 := fun same => ordinary (Or.inr same)
      simp [copyString, notQuote, notBackslash, ih room fits']

/-! ## Fields -/

/-- The text of fields with distinct keys in front of other pieces, behind text
without quotation marks. -/
structure ObjectText (json : List UInt8) (fields : List Field) (tail : List Piece) : Prop where
  text : ∃ lead, 34 ∉ lead ∧ json = render (.plain lead :: (fieldPieces fields ++ tail))
  valid : ∀ field ∈ fields, field.Valid
  tailFormed : WellFormed tail
  keys : ∀ key ∈ fields.map Field.key, IsKey key
  distinct : (fields.map Field.key).Nodup

variable {json : List UInt8} {fields : List Field} {tail : List Piece} {field : Field}

/-- The key search finds a field by its position. -/
theorem jsonFindKey_field (object : ObjectText json fields tail) (position : Nat)
    (here : fields[position]? = some field) :
    jsonFindKey json field.key =
      some ((field.value.render ++
        field.close :: render (fieldPieces (fields.drop (position + 1)) ++ tail)).dropWhile
        fun c => c == 32 || c == 9) := by
  obtain ⟨⟨lead, leadPlain, rfl⟩, valid, tailFormed, keys, distinct⟩ := object
  obtain ⟨inside, rfl⟩ := List.getElem?_eq_some_iff.mp here
  have split : fields = fields.take position ++ fields[position] :: fields.drop (position + 1) := by
    rw [← List.drop_eq_getElem_cons inside, List.take_append_drop]
  generalize fields[position] = field at split
  generalize fields.take position = before at split
  generalize fields.drop (position + 1) = after at split ⊢
  subst split
  have isKey : IsKey field.key := keys _ (by simp)
  have fresh : ∀ other ∈ before, field.key ≠ other.key := by
    intro other member same
    rw [List.map_append, List.map_cons] at distinct
    exact List.disjoint_of_nodup_append distinct (List.mem_map_of_mem member) (by simp [same])
  have formed : WellFormed (.plain lead :: (fieldPieces (before ++ field :: after) ++ tail)) :=
    ⟨leadPlain, wellFormed_fields _ _ valid tailFormed⟩
  have located := locate_fields before after field tail
    (fun other member => valid other (by simp [member])) (valid field (by simp)) fresh
  have hit : strstr (render (.plain lead :: (fieldPieces (before ++ field :: after) ++ tail)))
      (34 :: (field.key ++ [34, 58])) =
        some (render (field.pieces ++ (fieldPieces after ++ tail))) := by
    have found := strstr_render field.key _ isKey formed
    rw [locate, located] at found
    exact found
  have noColon : 58 ∉ 34 :: (field.key ++ [34]) := by
    simp only [List.mem_cons, List.mem_append, List.not_mem_nil, or_false, not_or]
    refine ⟨by decide, fun member => ?_, by decide⟩
    exact absurd (isKey.2 58 member) (by decide)
  have shape : render (field.pieces ++ (fieldPieces after ++ tail)) =
      34 :: (field.key ++ [34]) ++
        58 :: (field.value.render ++ field.close :: render (fieldPieces after ++ tail)) := by
    rw [render_field]
    simp
  simp only [jsonFindKey, hit, shape]
  rw [strchr_skip 58 _ _ noColon, strchr_head]
  rfl

/-- The string value of a field is unescaped. -/
theorem jsonGetString_field (size : Nat) [NeZero size] (text : CText size)
    (object : ObjectText json fields tail) (position : Nat)
    (here : fields[position]? = some field) (value : field.value = .quoted (escape text.bytes)) :
    jsonGetString size json field.key = some text := by
  have bound := text.bound
  rw [jsonGetString, jsonFindKey_field object position here, value]
  simp only [Piece.render, List.cons_append, List.append_assoc, List.nil_append]
  rw [List.dropWhile_cons_of_neg (by decide)]
  simp only
  rw [copyString_escape _ _ _ (by omega), CText.ofBytes_bytes]

/-- Digits and signs are not blanks, so a number is where the key search
stops. -/
theorem jsonFindKey_number (number : List UInt8) (object : ObjectText json fields tail) (position : Nat)
    (here : fields[position]? = some field)
    (value : field.value = .plain number) (starts : ∀ c ∈ number.head?, isSpace c = false)
    (nonempty : number ≠ []) :
    jsonFindKey json field.key =
      some (number ++ field.close :: render (fieldPieces (fields.drop (position + 1)) ++ tail)) := by
  rw [jsonFindKey_field object position here, value]
  simp only [Piece.render]
  cases number with
  | nil => exact absurd rfl nonempty
  | cons c digits =>
    have solid : isSpace c = false := starts c rfl
    have notBlank : (c == 32 || c == 9) = false := by
      simp only [isSpace, Bool.or_eq_false_iff, beq_eq_false_iff_ne, Bool.and_eq_false_iff,
        decide_eq_false_iff_not] at solid
      simp only [Bool.or_eq_false_iff, beq_eq_false_iff_ne, ne_eq]
      refine ⟨?_, ?_⟩ <;> rintro rfl <;> simp at solid
    rw [List.cons_append, List.dropWhile_cons_of_neg (by simp [notBlank])]

/-- A digit is not skipped as a blank. -/
theorem isSpace_of_isDigit (c : UInt8) (digit : isDigit c = true) : isSpace c = false := by
  simp only [isDigit, Bool.and_eq_true, decide_eq_true_eq] at digit
  simp only [isSpace, Bool.or_eq_false_iff, beq_eq_false_iff_ne, Bool.and_eq_false_iff,
    decide_eq_false_iff_not]
  omega

/-- So the first byte of a number is where its reader starts. -/
theorem decimal_starts (n : Nat) : ∀ c ∈ (decimal n).head?, isSpace c = false := by
  intro c first
  exact isSpace_of_isDigit c (decimal_digits n c (List.mem_of_mem_head? first))

/-- A number is never empty. -/
theorem signedDecimal_ne_nil (z : Int) : signedDecimal z ≠ [] := by
  unfold signedDecimal
  split
  · simp
  · exact decimal_ne_nil _

/-- Neither a digit nor the minus sign is a blank. -/
theorem signedDecimal_starts (z : Int) : ∀ c ∈ (signedDecimal z).head?, isSpace c = false := by
  unfold signedDecimal
  split
  · simp only [List.head?_cons, Option.mem_def, Option.some.injEq]
    rintro c rfl
    decide
  · exact decimal_starts _

/-- A number ends where a byte that is no digit closes its field. -/
theorem stop_at_close (close : UInt8) (rest : List UInt8) (stop : isDigit close = false) :
    ∀ c ∈ (close :: rest).head?, isDigit c = false := by
  simp only [List.head?_cons, Option.mem_def, Option.some.injEq]
  rintro c rfl
  exact stop

/-- An unsigned field is read back as it was written, at full width. -/
theorem jsonGetUint64_field (n : UInt64) (object : ObjectText json fields tail) (position : Nat)
    (here : fields[position]? = some field)
    (value : field.value = .plain (decimal n.toNat)) (stop : isDigit field.close = false) :
    jsonGetUint64 json field.key = some n := by
  rw [jsonGetUint64, jsonFindKey_number _ object position here value (decimal_starts _) (decimal_ne_nil _),
    Option.map_some, strtoull_decimal n _ (stop_at_close _ _ stop)]

/-- Timestamps are printed signed and read unsigned. -/
theorem jsonGetUint64_signed_field (x : Int64) (object : ObjectText json fields tail) (position : Nat)
    (here : fields[position]? = some field)
    (value : field.value = .plain (signedDecimal x.toInt)) (stop : isDigit field.close = false) :
    (jsonGetUint64 json field.key).map UInt64.toInt64 = some x := by
  rw [jsonGetUint64,
    jsonFindKey_number _ object position here value (signedDecimal_starts _) (signedDecimal_ne_nil _),
    Option.map_some, Option.map_some, strtoull_signedDecimal x _ (stop_at_close _ _ stop)]

/-- So is a signed one. -/
theorem jsonGetInt_field (x : Int32) (object : ObjectText json fields tail) (position : Nat)
    (here : fields[position]? = some field)
    (value : field.value = .plain (signedDecimal x.toInt)) (stop : isDigit field.close = false) :
    jsonGetInt json field.key = some x := by
  rw [jsonGetInt,
    jsonFindKey_number _ object position here value (signedDecimal_starts _) (signedDecimal_ne_nil _),
    Option.map_some, strtol_signedDecimal x _ (stop_at_close _ _ stop)]

end MiniCoin
