import MiniCoin.ByteStrings

/-!
# Searching text made of plain and quoted pieces

Text of the JSON kind alternates between punctuation, which contains no quotation
mark, and quoted strings. Inside a quoted string every quotation mark follows a
backslash. A substring search for a quoted key followed by a separator then finds
exactly the first quoted piece with that body and that separator: it cannot start
inside a string, and it cannot straddle two pieces.

`strstr_render` states this for a whole list of pieces, so that the effect of a
search is computed on pieces instead of bytes. The key alphabet excludes the
punctuation that may follow a closing quotation mark.
-/

namespace QuotedText

open ByteStrings

/-- Either punctuation between strings, or the body of a quoted string. A search
on pieces can only hit where a string begins. -/
inductive Piece where
  | plain (text : List UInt8)
  | quoted (body : List UInt8)
  deriving DecidableEq

namespace Piece

/-- The text of one piece. The body of a string stands between its quotation
marks. -/
def render : Piece → List UInt8
  | plain text => text
  | quoted body => 34 :: (body ++ [34])

end Piece

/-- The text that a list of pieces stands for. -/
def render (pieces : List Piece) : List UInt8 := pieces.flatMap Piece.render

@[simp] theorem render_nil : render [] = [] := rfl

@[simp] theorem render_plain (text : List UInt8) (pieces : List Piece) :
    render (.plain text :: pieces) = text ++ render pieces := rfl

@[simp] theorem render_quoted (body : List UInt8) (pieces : List Piece) :
    render (.quoted body :: pieces) = 34 :: (body ++ 34 :: render pieces) := by
  simp [render, Piece.render]

@[simp] theorem render_append (left right : List Piece) :
    render (left ++ right) = render left ++ render right := List.flatMap_append

/-! ## Escaping -/

/-- A backslash in front of every quotation mark and every backslash. -/
def escape (text : List UInt8) : List UInt8 :=
  text.flatMap fun c => if c = 34 ∨ c = 92 then [92, c] else [c]

/-- Escaping works byte by byte. -/
theorem escape_cons (c : UInt8) (text : List UInt8) :
    escape (c :: text) = (if c = 34 ∨ c = 92 then [92, c] else [c]) ++ escape text := rfl

/-- Text without the two special bytes is not changed. -/
theorem escape_eq_self (text : List UInt8) (noQuote : 34 ∉ text) (noBackslash : 92 ∉ text) :
    escape text = text := by
  induction text with
  | nil => rfl
  | cons c tail ih =>
    have ordinary : ¬ (c = 34 ∨ c = 92) := by
      rintro (rfl | rfl)
      · exact noQuote (by simp)
      · exact noBackslash (by simp)
    rw [escape_cons, if_neg ordinary, ih (fun member => noQuote (by simp [member]))
      fun member => noBackslash (by simp [member])]
    rfl

/-- Escaping at most doubles the length. -/
theorem escape_length (text : List UInt8) : (escape text).length ≤ 2 * text.length := by
  induction text with
  | nil => simp [escape]
  | cons c tail ih =>
    rw [escape_cons, List.length_append, List.length_cons]
    split <;> simp <;> omega

/-- Escaping introduces no byte except backslashes. -/
theorem mem_escape (text : List UInt8) (c : UInt8) (member : c ∈ escape text) :
    c ∈ text ∨ c = 92 := by
  simp only [escape, List.mem_flatMap] at member
  obtain ⟨d, inText, printed⟩ := member
  split at printed
  · rcases List.mem_cons.mp printed with rfl | rest
    · exact Or.inr rfl
    · exact Or.inl (List.mem_singleton.mp rest ▸ inText)
  · exact Or.inl (List.mem_singleton.mp printed ▸ inText)

/-! ## Guarded bodies -/

/-- Every quotation mark follows a backslash; the flag tells whether the byte
before the list is one. -/
def guarded : Bool → List UInt8 → Prop
  | _, [] => True
  | after, c :: rest => (c = 34 → after = true) ∧ guarded (c == 92) rest

/-- A body that needs no backslash before it may follow one. -/
theorem guarded_weaken (text : List UInt8) (strong : guarded false text) (after : Bool) :
    guarded after text := by
  cases text with
  | nil => trivial
  | cons c rest => exact ⟨fun quote => absurd (strong.1 quote) (by simp), strong.2⟩

/-- A text without quotation marks is guarded in any context. -/
theorem guarded_of_absent (text : List UInt8) (absent : 34 ∉ text) (after : Bool) :
    guarded after text := by
  induction text generalizing after with
  | nil => trivial
  | cons c rest ih =>
    exact ⟨fun quote => absurd (by simp [quote]) absent, ih (fun member => absent (by simp [member])) _⟩

/-- Escaped text is guarded in any context. -/
theorem guarded_escape (text : List UInt8) : guarded false (escape text) := by
  induction text with
  | nil => trivial
  | cons c rest ih =>
    rw [escape_cons]
    split
    · exact ⟨by simp, by simp, guarded_weaken _ ih _⟩
    · next ordinary => exact ⟨fun quote => absurd (Or.inl quote) ordinary, guarded_weaken _ ih _⟩

/-! ## Keys -/

/-- Lower-case letters and underscores, and at least one of them. None of these
can follow a string, which is why a key cannot straddle two pieces. -/
def IsKey (key : List UInt8) : Prop :=
  key ≠ [] ∧ ∀ c ∈ key, (97 ≤ c.toNat ∧ c.toNat ≤ 122) ∨ c = 95

/-- Whether a word is a key can be tested. -/
instance (key : List UInt8) : Decidable (IsKey key) := inferInstanceAs (Decidable (_ ∧ _))

/-- A key in quotation marks followed by a separator. -/
def keyPattern (key separator : List UInt8) : List UInt8 := 34 :: (key ++ 34 :: separator)

/-- What may follow a quoted string: a comma or a closing bracket, or a colon
after a string that contains no quotation mark. -/
def Follows (body : List UInt8) : List UInt8 → Prop
  | [] => False
  | c :: _ => c = 44 ∨ c = 93 ∨ c = 125 ∨ (c = 58 ∧ 34 ∉ body)

/-- In front of a guarded body and its closing mark, a key with its closing mark
matches only if the key is the whole body. -/
theorem key_matches_body (key separator body rest : List UInt8)
    (word : ∀ c ∈ key, (97 ≤ c.toNat ∧ c.toNat ≤ 122) ∨ c = 95) (strong : guarded false body)
    (hit : key ++ 34 :: separator <+: body ++ 34 :: rest) : key = body ∧ separator <+: rest := by
  induction key generalizing body with
  | nil =>
    cases body with
    | nil => exact ⟨rfl, by simpa using hit⟩
    | cons b tail =>
      obtain ⟨rfl, -⟩ := List.cons_prefix_cons.mp hit
      exact absurd (strong.1 rfl) (by simp)
  | cons k ks ih =>
    have letter := word k (by simp)
    cases body with
    | nil =>
      obtain ⟨rfl, -⟩ := List.cons_prefix_cons.mp hit
      exact absurd letter (by decide)
    | cons b tail =>
      obtain ⟨rfl, below⟩ := List.cons_prefix_cons.mp hit
      have ordinary : (k == 92) = false := by
        simp only [beq_eq_false_iff_ne, ne_eq]
        rintro rfl
        exact absurd letter (by decide)
      have guardedTail : guarded false tail := ordinary ▸ strong.2
      obtain ⟨same, after⟩ := ih tail (fun c member => word c (by simp [member])) guardedTail below
      exact ⟨by rw [same], after⟩

/-- A quoted piece matches the pattern at its opening mark, or is skipped as a
whole: neither a mark inside the body nor the closing mark starts a match. -/
theorem strstr_quoted (key body rest : List UInt8) (isKey : IsKey key)
    (strong : guarded false body) (follows : Follows body rest) :
    strstr (34 :: (body ++ 34 :: rest)) (keyPattern key [58]) =
      if key = body ∧ rest.head? = some 58 then some (34 :: (body ++ 34 :: rest))
      else strstr rest (keyPattern key [58]) := by
  obtain ⟨nonempty, word⟩ := isKey
  have separator : [58] <+: rest ↔ rest.head? = some 58 := by
    cases rest <;> simp [eq_comm]
  by_cases here : key = body ∧ rest.head? = some 58
  · obtain ⟨rfl, colon⟩ := here
    cases rest with
    | nil => simp at colon
    | cons c tail =>
      obtain rfl : c = 58 := by simpa using colon
      simpa [keyPattern] using strstr_head (keyPattern key [58]) tail (by simp [keyPattern])
  · rw [if_neg here]
    -- The closing mark: what follows it is not a letter.
    have closing : strstr (34 :: rest) (keyPattern key [58]) = strstr rest (keyPattern key [58]) := by
      refine strstr_step 34 _ rest fun hit => ?_
      have below := (List.cons_prefix_cons.mp hit).2
      cases key with
      | nil => exact nonempty rfl
      | cons k ks =>
        cases rest with
        | nil => exact follows
        | cons c tail =>
          obtain ⟨rfl, -⟩ := List.cons_prefix_cons.mp below
          have letter := word k (by simp)
          rcases follows with rfl | rfl | rfl | ⟨rfl, -⟩ <;> exact absurd letter (by decide)
    -- A mark inside the body: the rest of the body would be the key before a colon.
    have inside : ∀ (tail : List UInt8) (after : Bool), guarded after tail → (34 ∈ tail → 34 ∈ body) →
        strstr (tail ++ 34 :: rest) (keyPattern key [58]) = strstr rest (keyPattern key [58]) := by
      intro tail
      induction tail with
      | nil => exact fun _ _ _ => closing
      | cons c tail ih =>
        intro after strong' contained
        rw [List.cons_append]
        rw [strstr_step c _ _ ?_]
        · exact ih _ strong'.2 fun member => contained (by simp [member])
        · intro hit
          obtain ⟨quote, below⟩ := List.cons_prefix_cons.mp hit
          subst quote
          have colon := separator.mp (key_matches_body key [58] tail rest word strong'.2 below).2
          cases rest with
          | nil => simp at colon
          | cons d _ =>
            obtain rfl : d = 58 := by simpa using colon
            rcases follows with wrong | wrong | wrong | ⟨-, absent⟩
            · exact absurd wrong (by decide)
            · exact absurd wrong (by decide)
            · exact absurd wrong (by decide)
            · exact absent (contained (by simp))
    rw [strstr_step 34 _ _ ?_]
    · exact inside body false strong id
    · intro hit
      obtain ⟨same, colon⟩ := key_matches_body key [58] body rest word strong
        (List.cons_prefix_cons.mp hit).2
      exact here ⟨same, separator.mp colon⟩

/-- Pieces whose rendering can be searched by keys: quotation marks only around
strings, and behind a string nothing that would make it a key. -/
def WellFormed : List Piece → Prop
  | [] => True
  | .plain text :: pieces => 34 ∉ text ∧ WellFormed pieces
  | .quoted body :: pieces =>
      guarded false body ∧ Follows body (render pieces) ∧ WellFormed pieces

/-- The pieces from the first one that is this key followed by a colon. -/
def locate (key : List UInt8) : List Piece → Option (List Piece)
  | [] => none
  | .plain _ :: pieces => locate key pieces
  | .quoted body :: pieces =>
      if key = body ∧ (render pieces).head? = some 58 then some (.quoted body :: pieces)
      else locate key pieces

/-- Searching the text is locating the key among the pieces. -/
theorem strstr_render (key : List UInt8) (pieces : List Piece) (isKey : IsKey key)
    (wellFormed : WellFormed pieces) :
    strstr (render pieces) (keyPattern key [58]) = (locate key pieces).map render := by
  induction pieces with
  | nil => simp [strstr, keyPattern, locate]
  | cons piece pieces ih =>
    cases piece with
    | plain text =>
      rw [render_plain, keyPattern, strstr_skip 34 _ text _ wellFormed.1]
      exact ih wellFormed.2
    | quoted body =>
      obtain ⟨strong, follows, rest⟩ := wellFormed
      rw [render_quoted, strstr_quoted key body _ isKey strong follows, locate]
      split
      · simp
      · exact ih rest

/-! ## Fields -/

/-- A key, a colon, a value and the byte behind it. The byte belongs to the
field because it decides whether a string can be taken for a key. -/
structure Field where
  key : List UInt8
  value : Piece
  close : UInt8

/-- A field as it is written: the key as a string, the colon, the value and its
closing byte. -/
def Field.pieces (field : Field) : List Piece :=
  [.quoted field.key, .plain [58], field.value, .plain [field.close]]

/-- The pieces of fields written one after another. -/
def fieldPieces (fields : List Field) : List Piece := fields.flatMap Field.pieces

@[simp] theorem fieldPieces_nil : fieldPieces [] = [] := rfl

@[simp] theorem fieldPieces_cons (field : Field) (fields : List Field) :
    fieldPieces (field :: fields) = field.pieces ++ fieldPieces fields := rfl

@[simp] theorem fieldPieces_append (left right : List Field) :
    fieldPieces (left ++ right) = fieldPieces left ++ fieldPieces right := List.flatMap_append

/-- The value is a guarded string closed by a comma or a closing bracket, or it
is text without quotation marks. -/
def Field.Valid (field : Field) : Prop :=
  34 ∉ field.key ∧ field.close ≠ 34 ∧
    match field.value with
    | .plain text => 34 ∉ text
    | .quoted body =>
      guarded false body ∧ (field.close = 44 ∨ field.close = 93 ∨ field.close = 125)

/-- A string that does not end too early makes a valid field. -/
theorem valid_quoted (key body : List UInt8) (close : UInt8) (plainKey : 34 ∉ key)
    (strong : guarded false body) (closing : close = 44 ∨ close = 93 ∨ close = 125) :
    Field.Valid ⟨key, .quoted body, close⟩ := by
  have closeOrdinary : close ≠ 34 := by
    rcases closing with rfl | rfl | rfl <;> decide
  exact ⟨plainKey, closeOrdinary, strong, closing⟩

/-- So does a number, or nothing at all in front of an array. -/
theorem valid_plain (key text : List UInt8) (close : UInt8) (plainKey : 34 ∉ key)
    (plainText : 34 ∉ text) (closing : close ≠ 34) : Field.Valid ⟨key, .plain text, close⟩ :=
  ⟨plainKey, closing, plainText⟩

/-- The text of a field. The closing byte belongs to it, as the search has to
know what follows a string. -/
theorem render_field (field : Field) (pieces : List Piece) :
    render (field.pieces ++ pieces) =
      34 :: (field.key ++ 34 :: 58 :: (field.value.render ++ field.close :: render pieces)) := by
  simp [Field.pieces, render, Piece.render]

/-- Fields in front of searchable text are searchable. -/
theorem wellFormed_field (field : Field) (pieces : List Piece) (valid : field.Valid)
    (rest : WellFormed pieces) : WellFormed (field.pieces ++ pieces) := by
  obtain ⟨key, close, value⟩ := valid
  have closing : WellFormed (.plain [field.close] :: pieces) := by
    refine ⟨?_, rest⟩
    simpa using close.symm
  cases text : field.value with
  | plain text' =>
    rw [text] at value
    simp only [Field.pieces, text, List.cons_append, List.nil_append]
    exact ⟨guarded_of_absent _ key _, Or.inr (Or.inr (Or.inr ⟨rfl, key⟩)), by simp, value, closing⟩
  | quoted body =>
    rw [text] at value
    simp only [Field.pieces, text, List.cons_append, List.nil_append]
    refine ⟨guarded_of_absent _ key _, Or.inr (Or.inr (Or.inr ⟨rfl, key⟩)), by simp, value.1, ?_,
      closing⟩
    rcases value.2 with comma | bracket | brace
    · exact Or.inl comma
    · exact Or.inr (Or.inl bracket)
    · exact Or.inr (Or.inr (Or.inl brace))

/-- Valid fields may stand in front of well-formed pieces, by induction on the
fields. -/
theorem wellFormed_fields (fields : List Field) (pieces : List Piece)
    (valid : ∀ field ∈ fields, field.Valid) (rest : WellFormed pieces) :
    WellFormed (fieldPieces fields ++ pieces) := by
  induction fields with
  | nil => exact rest
  | cons field fields ih =>
    rw [fieldPieces_cons, List.append_assoc]
    exact wellFormed_field field _ (valid field (by simp))
      (ih fun other member => valid other (by simp [member]))

/-- A search stops at the field of its key and passes the other ones, whatever
their values are. -/
theorem locate_field (key : List UInt8) (field : Field) (pieces : List Piece)
    (valid : field.Valid) :
    locate key (field.pieces ++ pieces) =
      if key = field.key then some (field.pieces ++ pieces) else locate key pieces := by
  obtain ⟨-, -, value⟩ := valid
  have colon : (render (.plain [58] :: field.value :: .plain [field.close] :: pieces)).head? =
      some 58 := rfl
  simp only [Field.pieces, List.cons_append, List.nil_append]
  rw [locate, colon]
  simp only [and_true]
  split
  · rfl
  · cases text : field.value with
    | plain text' => rfl
    | quoted body =>
      rw [text] at value
      have close : (render (.plain [field.close] :: pieces)).head? ≠ some 58 := by
        simp only [render_plain, List.cons_append, List.head?_cons, ne_eq, Option.some.injEq]
        rcases value.2 with same | same | same <;> rw [same] <;> decide
      rw [locate, locate, if_neg fun both => close both.2, locate]

/-- The search by a key finds its field and passes over those before it, if
their keys differ. -/
theorem locate_fields (before after : List Field) (field : Field) (pieces : List Piece)
    (valid : ∀ other ∈ before, other.Valid) (here : field.Valid)
    (fresh : ∀ other ∈ before, field.key ≠ other.key) :
    locate field.key (fieldPieces (before ++ field :: after) ++ pieces) =
      some (field.pieces ++ (fieldPieces after ++ pieces)) := by
  induction before with
  | nil => rw [List.nil_append, fieldPieces_cons, List.append_assoc, locate_field _ _ _ here, if_pos rfl]
  | cons other before ih =>
    rw [List.cons_append, fieldPieces_cons, List.append_assoc,
      locate_field _ _ _ (valid other (by simp)), if_neg (fresh other (by simp))]
    exact ih (fun next member => valid next (by simp [member]))
      fun next member => fresh next (by simp [member])

end QuotedText
