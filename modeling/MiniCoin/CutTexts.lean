import MiniCoin.ParsedNumbers
import MiniCoin.ReadTexts

/-!
# Texts that are cut off

What the helpers of the parsers do with a text whose end is missing. A search that succeeds
in front of the cut finds the same field, and the loops that match braces run to the end of
the text.
-/

namespace MiniCoin

open ByteStrings QuotedText Nesting

/-! ## Searching -/

/-- A hit starts with the pattern. -/
theorem strstr_starts (text pattern found : List UInt8) (hit : strstr text pattern = some found) :
    pattern <+: found := by
  induction text with
  | nil =>
    rw [strstr] at hit
    split at hit
    · next empty => exact empty ▸ List.nil_prefix
    · cases hit
  | cons c rest ih =>
    rw [strstr] at hit
    split at hit
    · next here => exact Option.some.inj hit ▸ List.isPrefixOf_iff_prefix.mp here
    · exact ih hit

/-- A match in front of the cut is the first match of the whole text, and
conversely. -/
theorem strstr_cut (cut lost pattern found : List UInt8) (starts : pattern <+: found) :
    strstr cut pattern = some found ↔ strstr (cut ++ lost) pattern = some (found ++ lost) := by
  induction cut with
  | nil =>
    constructor
    · intro hit
      rw [strstr] at hit
      split at hit
      · next empty =>
        obtain rfl := Option.some.inj hit
        subst empty
        cases lost <;> rfl
      · cases hit
    · intro hit
      have length := (strstr_suffix _ _ _ hit).length_le
      have none : found = [] := by
        simp only [List.nil_append, List.length_append] at length
        exact List.eq_nil_of_length_eq_zero (by omega)
      subst none
      rw [List.prefix_nil.mp starts]
      rfl
  | cons c rest ih =>
    rw [List.cons_append, strstr, strstr]
    by_cases here : pattern <+: c :: rest
    · have whole : pattern <+: c :: (rest ++ lost) := here.trans (List.prefix_append (c :: rest) lost)
      rw [if_pos (List.isPrefixOf_iff_prefix.mpr here), if_pos (List.isPrefixOf_iff_prefix.mpr whole)]
      constructor
      · intro same
        rw [← Option.some.inj same]
        rfl
      · intro same
        rw [List.append_cancel_right (Option.some.inj same : (c :: rest) ++ lost = found ++ lost)]
    · rw [if_neg (by rwa [List.isPrefixOf_iff_prefix])]
      by_cases straddles : pattern <+: c :: (rest ++ lost)
      · -- A match across the cut is neither in the cut text nor behind the other matches.
        rw [if_pos (List.isPrefixOf_iff_prefix.mpr straddles)]
        have long : (c :: rest).length < pattern.length := by
          by_contra short
          exact here (List.prefix_of_prefix_length_le straddles (List.prefix_append (c :: rest) lost)
            (by simpa using short))
        have size := starts.length_le
        constructor
        · intro hit
          have length := (strstr_suffix _ _ _ hit).length_le
          simp only [List.length_cons] at long
          omega
        · intro same
          have length := congrArg List.length (Option.some.inj same)
          simp only [List.length_cons, List.length_append] at length long
          omega
      · rw [if_neg (by rwa [List.isPrefixOf_iff_prefix])]
        exact ih

/-- No blank that a key search would skip. -/
def BlankFree (text : List UInt8) : Prop := ∀ c ∈ text, c ≠ 32 ∧ c ≠ 9

/-- Without blanks nothing is skipped in front of a value. -/
theorem BlankFree.dropWhile {text : List UInt8} (blankFree : BlankFree text) :
    text.dropWhile (fun c => c == 32 || c == 9) = text := by
  cases text with
  | nil => rfl
  | cons c rest =>
    have here := blankFree c List.mem_cons_self
    rw [List.dropWhile_cons_of_neg (by simp [here])]

/-- Without blanks the key search finds what stands behind the key, its
quotation marks and its colon. -/
theorem jsonFindKey_blankFree (json key found : List UInt8) (isKey : IsKey key)
    (blankFree : BlankFree json) :
    jsonFindKey json key = some found ↔
      strstr json (34 :: (key ++ [34, 58])) = some (34 :: (key ++ [34, 58]) ++ found) := by
  have noSpaced : strstr json (34 :: (key ++ [34, 32, 58])) = none := by
    cases hit : strstr json (34 :: (key ++ [34, 32, 58])) with
    | none => rfl
    | some p =>
      have space : 32 ∈ json := (strstr_suffix _ _ _ hit).subset
        ((strstr_starts _ _ _ hit).subset (by simp))
      exact absurd rfl (blankFree 32 space).1
  cases hit : strstr json (34 :: (key ++ [34, 58])) with
  | none => simp [jsonFindKey, hit, noSpaced]
  | some p =>
    obtain ⟨value, rfl⟩ := strstr_starts _ _ _ hit
    have noColon : 58 ∉ 34 :: (key ++ [34]) := by
      simp only [List.mem_cons, List.mem_append, List.not_mem_nil, or_false, not_or]
      refine ⟨by decide, fun member => ?_, by decide⟩
      exact absurd (isKey.2 58 member) (by decide)
    have shape : 34 :: (key ++ [34, 58]) ++ value = 34 :: (key ++ [34]) ++ 58 :: value := by simp
    have solid : BlankFree value := fun c member =>
      blankFree c ((strstr_suffix _ _ _ hit).subset (List.mem_append_right _ member))
    have read : jsonFindKey json key = some value := by
      simp only [jsonFindKey, hit]
      rw [shape, strchr_skip 58 _ _ noColon, strchr_head]
      simp only [List.drop_succ_cons, List.drop_zero, solid.dropWhile]
    rw [read]
    simp

/-- A field is found in the cut text exactly if it is found in the whole text
and begins in front of the cut. -/
theorem jsonFindKey_cut (cut lost key found : List UInt8) (isKey : IsKey key)
    (blankFree : BlankFree (cut ++ lost)) :
    jsonFindKey cut key = some found ↔ jsonFindKey (cut ++ lost) key = some (found ++ lost) := by
  rw [jsonFindKey_blankFree _ _ _ isKey fun c member => blankFree c (List.mem_append_left lost member),
    jsonFindKey_blankFree _ _ _ isKey blankFree, ← List.append_assoc]
  exact strstr_cut _ _ _ _ (List.prefix_append _ _)

/-! ## Matching brackets -/

/-- The loop that matches braces does not look behind the object it finds. -/
theorem matchBraces_cut (depth : Int) (cut lost : List UInt8)
    (inside : cut.length ≤ (matchBraces depth (cut ++ lost)).1.length) :
    matchBraces depth cut = (cut, []) := by
  induction cut generalizing depth with
  | nil => rfl
  | cons c rest ih =>
    rw [List.cons_append, matchBraces_cons] at inside
    rw [matchBraces_cons]
    cases rest with
    | nil => simp
    | cons next others =>
      by_cases positive : 0 < depth + braceWeight c
      · rw [if_pos ⟨positive, by simp⟩] at inside
        rw [if_pos ⟨positive, by simp⟩, ih _ (by simpa using inside)]
      · simp [positive] at inside

/-- Nor does the loop that finds the end of a payload. -/
theorem scanPayload_cut (prev : Option UInt8) (depth : Int) (inString : Bool) (cut lost : List UInt8)
    (inside : cut.length ≤ (scanPayload prev depth inString (cut ++ lost)).length) :
    scanPayload prev depth inString cut = cut := by
  induction cut generalizing prev depth inString with
  | nil => rfl
  | cons c rest ih =>
    cases rest with
    | nil => simp [scanPayload]
    | cons next others =>
      have step (deeper : Int) (phase : Bool)
          (inside : (c :: next :: others).length ≤
            (if 0 < deeper ∧ next :: (others ++ lost) ≠ [] then
              c :: scanPayload (some c) deeper phase (next :: (others ++ lost)) else [c]).length) :
          (if 0 < deeper ∧ next :: others ≠ [] then
            c :: scanPayload (some c) deeper phase (next :: others) else [c]) = c :: next :: others := by
        by_cases positive : 0 < deeper
        · rw [if_pos ⟨positive, by simp⟩] at inside
          rw [if_pos ⟨positive, by simp⟩, ih _ _ _ (by simpa using inside)]
        · simp [positive] at inside
      exact step _ _ inside

/-! ## Fields in front of the cut -/

section

variable {cut lost : List UInt8} {fields : List Field} {tail : List Piece} {field : Field}

/-- A field that ends in front of the cut is found, with the rest of the cut
text behind it. -/
theorem jsonFindKey_inside (object : ObjectText (cut ++ lost) fields tail)
    (blankFree : BlankFree (cut ++ lost)) (position : Nat) (here : fields[position]? = some field)
    (inside : lost.length ≤ (render (fieldPieces (fields.drop (position + 1)) ++ tail)).length) :
    ∃ behind, render (fieldPieces (fields.drop (position + 1)) ++ tail) = behind ++ lost ∧
      jsonFindKey cut field.key = some (field.value.render ++ field.close :: behind) := by
  have isKey : IsKey field.key := object.keys _ (List.mem_map_of_mem (List.mem_of_getElem? here))
  have found := jsonFindKey_field object position here
  obtain ⟨lead, -, text⟩ := object.text
  obtain ⟨within, same⟩ := List.getElem?_eq_some_iff.mp here
  have split : fields = fields.take position ++ field :: fields.drop (position + 1) := by
    rw [← same, ← List.drop_eq_getElem_cons within, List.take_append_drop]
  have whole : field.value.render ++
      field.close :: render (fieldPieces (fields.drop (position + 1)) ++ tail) <:+ cut ++ lost := by
    rw [text, split]
    refine ⟨lead ++ (render (fieldPieces (fields.take position)) ++ (34 :: (field.key ++ [34, 58]))), ?_⟩
    have drop : (fields.take position ++ field :: fields.drop (position + 1)).drop (position + 1) =
        fields.drop (position + 1) := by rw [← split]
    rw [drop]
    simp [Field.pieces, render, Piece.render]
  have solid : BlankFree (field.value.render ++
      field.close :: render (fieldPieces (fields.drop (position + 1)) ++ tail)) :=
    fun c member => blankFree c (whole.subset member)
  have behindSuffix : render (fieldPieces (fields.drop (position + 1)) ++ tail) <:+ cut ++ lost :=
    ((List.suffix_cons _ _).trans (List.suffix_append _ _)).trans whole
  obtain ⟨behind, shape⟩ := List.suffix_of_suffix_length_le (List.suffix_append cut lost) behindSuffix
    inside
  refine ⟨behind, shape.symm, ?_⟩
  rw [jsonFindKey_cut cut lost _ _ isKey blankFree, found, solid.dropWhile, ← shape]
  simp

/-- A string that ends before the cut is read whole. -/
theorem jsonGetString_inside (size : Nat) [NeZero size] (text : CText size)
    (object : ObjectText (cut ++ lost) fields tail) (blankFree : BlankFree (cut ++ lost))
    (position : Nat) (here : fields[position]? = some field)
    (value : field.value = .quoted (escape text.bytes))
    (inside : lost.length ≤ (render (fieldPieces (fields.drop (position + 1)) ++ tail)).length) :
    jsonGetString size cut field.key = some text := by
  obtain ⟨behind, -, found⟩ := jsonFindKey_inside object blankFree position here inside
  have bound := text.bound
  rw [jsonGetString, found, value]
  simp only [Piece.render, List.cons_append, List.append_assoc, List.nil_append]
  rw [copyString_escape _ _ _ (by omega), CText.ofBytes_bytes]

/-- So is an unsigned number. The byte that closes it is not a digit, so the cut
adds none. -/
theorem jsonGetUint64_inside (n : UInt64) (object : ObjectText (cut ++ lost) fields tail)
    (blankFree : BlankFree (cut ++ lost)) (position : Nat) (here : fields[position]? = some field)
    (value : field.value = .plain (decimal n.toNat)) (stop : isDigit field.close = false)
    (inside : lost.length ≤ (render (fieldPieces (fields.drop (position + 1)) ++ tail)).length) :
    jsonGetUint64 cut field.key = some n := by
  obtain ⟨behind, -, found⟩ := jsonFindKey_inside object blankFree position here inside
  rw [jsonGetUint64, found, value, Option.map_some]
  exact congrArg some (strtoull_decimal n _ (stop_at_close _ _ stop))

/-- So is a timestamp, which is written signed and read unsigned. -/
theorem jsonGetUint64_signed_inside (x : Int64) (object : ObjectText (cut ++ lost) fields tail)
    (blankFree : BlankFree (cut ++ lost)) (position : Nat) (here : fields[position]? = some field)
    (value : field.value = .plain (signedDecimal x.toInt)) (stop : isDigit field.close = false)
    (inside : lost.length ≤ (render (fieldPieces (fields.drop (position + 1)) ++ tail)).length) :
    (jsonGetUint64 cut field.key).map UInt64.toInt64 = some x := by
  obtain ⟨behind, -, found⟩ := jsonFindKey_inside object blankFree position here inside
  rw [jsonGetUint64, found, value, Option.map_some, Option.map_some]
  exact congrArg some (strtoull_signedDecimal x _ (stop_at_close _ _ stop))

/-- So is a signed number. -/
theorem jsonGetInt_inside (x : Int32) (object : ObjectText (cut ++ lost) fields tail)
    (blankFree : BlankFree (cut ++ lost)) (position : Nat) (here : fields[position]? = some field)
    (value : field.value = .plain (signedDecimal x.toInt)) (stop : isDigit field.close = false)
    (inside : lost.length ≤ (render (fieldPieces (fields.drop (position + 1)) ++ tail)).length) :
    jsonGetInt cut field.key = some x := by
  obtain ⟨behind, -, found⟩ := jsonFindKey_inside object blankFree position here inside
  rw [jsonGetInt, found, value, Option.map_some]
  exact congrArg some (strtol_signedDecimal x _ (stop_at_close _ _ stop))

end

/-! ## Strings -/

/-- A copied string is no longer than what it was copied from. -/
theorem copyString_short (room : Nat) (text : List UInt8) :
    (copyString room text).length ≤ text.length := by
  fun_induction copyString room text with
  | case1 | case2 | case3 | case4 => simp
  | case5 room d tail noQuote ih =>
    simp only [List.length_cons]
    omega
  | case6 room c rest noQuote noBackslash ih => simpa using ih

/-- A string without special bytes is copied, with or without its closing
mark. -/
theorem copyString_plain (room : Nat) (text rest : List UInt8) (noQuote : 34 ∉ text)
    (noBackslash : 92 ∉ text) (fits : text.length ≤ room) (ends : ∀ c ∈ rest.head?, c = 34) :
    copyString room (text ++ rest) = text := by
  cases rest with
  | cons c tail =>
    obtain rfl := ends c rfl
    have copied := copyString_escape room text tail fits
    rwa [escape_eq_self text noQuote noBackslash] at copied
  | nil =>
    induction text generalizing room with
    | nil => cases room <;> rfl
    | cons c tail ih =>
      obtain ⟨less, rfl⟩ : ∃ less, room = less + 1 :=
        ⟨room - 1, by simp only [List.length_cons] at fits; omega⟩
      simp only [List.mem_cons, not_or] at noQuote noBackslash
      have copied := ih less noQuote.2 noBackslash.2 (by simpa using fits)
      rw [List.append_nil] at copied ⊢
      simp [copyString, Ne.symm noQuote.1, Ne.symm noBackslash.1, copied]

/-! ## Arrays that are cut off -/

/-- The last text is part of the joined text. -/
theorem commaText_last (comma : Bool) (objects : List (List UInt8)) (last : List UInt8) :
    last.length ≤ (commaText comma (objects ++ [last])).length := by
  induction objects generalizing comma with
  | nil => simp [commaText]
  | cons object rest ih =>
    have later := ih true
    simp only [List.cons_append, commaText, List.length_append]
    omega

/-- There are no objects in an empty text. -/
theorem objectTexts_nil (slots : Nat) : objectTexts slots [] = [] := by
  cases slots <;> rfl

/-- The first object of a text that is cut off. -/
theorem matchBraces_object_cut {object : List UInt8} (isObject : IsObject object)
    (text lost more : List UInt8) (split : text ++ lost = object ++ more) :
    matchBraces 0 text = (text.take object.length, text.drop object.length) := by
  obtain ⟨inner, rfl, balanced⟩ := isObject
  have whole := matchBraces_object inner more balanced.1 balanced.2
  have shape (rest : List UInt8) : 123 :: (inner ++ [125]) ++ rest = 123 :: (inner ++ 125 :: rest) := by
    simp
  rw [← shape, ← split] at whole
  rcases Nat.le_total text.length (123 :: (inner ++ [125])).length with short | long
  · rw [matchBraces_cut 0 text lost (by rwa [whole]), List.take_of_length_le short,
      List.drop_eq_nil_of_le short]
  · obtain ⟨rest, rfl⟩ : ∃ rest, text = 123 :: (inner ++ [125]) ++ rest := by
      have starts := (List.prefix_append text lost)
      rw [split] at starts
      obtain ⟨rest, same⟩ := List.prefix_of_prefix_length_le (List.prefix_append _ more) starts long
      exact ⟨rest, same.symm⟩
    rw [List.take_left, List.drop_left, shape]
    exact matchBraces_object inner rest balanced.1 balanced.2

/-- The search for an object in a text that is cut off. -/
theorem strchr_object_cut {object : List UInt8} (isObject : IsObject object) (comma : Bool)
    (text lost more : List UInt8)
    (split : text ++ lost = (if comma then ascii "," else []) ++ (object ++ more)) :
    (strchr 123 text = none ∧ object.length + more.length ≤ lost.length) ∨
      ∃ found, strchr 123 text = some found ∧ found ++ lost = object ++ more := by
  have noBrace : 123 ∉ (if comma then ascii "," else []) := by
    cases comma <;> decide
  have absent (none : 123 ∉ text) : strchr 123 text = Option.none := by
    have skipped := strchr_skip 123 text [] none
    rwa [List.append_nil] at skipped
  rcases List.append_eq_append_iff.mp split with ⟨left, separator, rest⟩ | ⟨found, shape, rest⟩
  · refine .inl ⟨absent fun member => noBrace (separator ▸ List.mem_append_left _ member), ?_⟩
    rw [rest]
    simp only [List.length_append]
    omega
  · obtain ⟨inner, rfl, -⟩ := isObject
    cases found with
    | nil =>
      rw [List.append_nil] at shape
      refine .inl ⟨absent (shape ▸ noBrace), ?_⟩
      rw [← List.length_append, rest]
      rfl
    | cons c others =>
      obtain ⟨rfl, -⟩ := List.cons.inj rest
      refine .inr ⟨123 :: others, ?_, rest.symm⟩
      rw [shape, strchr_skip 123 _ _ noBrace, strchr_head]

/-- Of an array that is cut off, the parsers find the objects in front of the
cut and what is left of the object that is cut; so they find all objects only if
the cut is in the last one, or behind it. -/
theorem objectTexts_cut (comma : Bool) (objects : List (List UInt8)) (last text lost tail : List UInt8)
    (isObjects : ∀ object ∈ objects, IsObject object) (isLast : IsObject last)
    (split : text ++ lost = commaText comma (objects ++ [last]) ++ tail) :
    (∃ start gone, start ++ gone = last ∧ gone.length = lost.length - tail.length ∧
        objectTexts (objects.length + 1) text = objects ++ [start]) ∨
      ((objectTexts (objects.length + 1) text).length ≤ objects.length ∧
        last.length + tail.length ≤ lost.length) := by
  induction objects generalizing comma text with
  | nil =>
    have first : text ++ lost = (if comma then ascii "," else []) ++ (last ++ tail) := by
      rw [split]
      simp [commaText]
    rcases strchr_object_cut isLast comma text lost tail first with ⟨none, gone⟩ | ⟨found, hit, rest⟩
    · exact .inr ⟨by simp [objectTexts, none], gone⟩
    · refine .inl ⟨found.take last.length, last.drop found.length, ?_, ?_, ?_⟩
      · have starts := List.prefix_append found lost
        rw [rest] at starts
        rcases Nat.le_total found.length last.length with short | long
        · have inside := List.prefix_of_prefix_length_le starts (List.prefix_append last tail) short
          rw [List.take_of_length_le short, List.prefix_iff_eq_append.mp inside]
        · have whole := List.prefix_of_prefix_length_le (List.prefix_append last tail) starts long
          rw [← List.prefix_iff_eq_take.mp whole, List.drop_eq_nil_of_le long, List.append_nil]
      · have lengths := congrArg List.length rest
        simp only [List.length_append] at lengths
        rw [List.length_drop]
        omega
      · have cut := matchBraces_object_cut isLast found lost tail rest
        simp [objectTexts, hit, cut]
  | cons object others ih =>
    have here := isObjects object List.mem_cons_self
    have longest := commaText_last true others last
    have first : text ++ lost = (if comma then ascii "," else []) ++
        (object ++ (commaText true (others ++ [last]) ++ tail)) := by
      rw [split]
      simp [commaText]
    rcases strchr_object_cut here comma text lost _ first with ⟨none, gone⟩ | ⟨found, hit, rest⟩
    · refine .inr ⟨by simp [objectTexts, none], ?_⟩
      rw [List.length_append] at gone
      omega
    · have cut := matchBraces_object_cut here found lost _ rest
      have texts : objectTexts ((object :: others).length + 1) text =
          found.take object.length :: objectTexts (others.length + 1) (found.drop object.length) := by
        simp [objectTexts, hit, cut]
      rw [texts]
      rcases Nat.lt_or_ge found.length object.length with short | long
      · refine .inr ⟨?_, ?_⟩
        · rw [List.drop_eq_nil_of_le (by omega), objectTexts_nil]
          simp
        · have lengths := congrArg List.length rest
          simp only [List.length_append] at lengths
          omega
      · obtain ⟨later, rfl⟩ : ∃ later, found = object ++ later := by
          have starts := List.prefix_append found lost
          rw [rest] at starts
          obtain ⟨later, same⟩ := List.prefix_of_prefix_length_le (List.prefix_append _ _) starts long
          exact ⟨later, same.symm⟩
        rw [List.take_left, List.drop_left]
        have behind : later ++ lost = commaText true (others ++ [last]) ++ tail := by
          simpa using rest
        rcases ih true later (fun other member => isObjects other (List.mem_cons_of_mem _ member))
          behind with ⟨start, gone, whole, length, found⟩ | ⟨fewer, gone⟩
        · exact .inl ⟨start, gone, whole, length, by rw [found]; rfl⟩
        · exact .inr ⟨by simpa using fewer, gone⟩

end MiniCoin
