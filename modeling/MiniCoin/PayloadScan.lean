import MiniCoin.BlockCodec

/-!
# The end of a payload

`protocol_parse_msg` skips string contents while it counts brackets, but takes every
quotation mark behind a backslash for an escaped one. A string that ends in an escaped
backslash is therefore not seen to end: from there on strings count and the text between
them does not, until another such string turns the roles around again.

`scanPayload_pieces` describes the scan in general: it reads on as long as the counted
text keeps the depth positive, where the counted text depends on the phase.
-/

namespace MiniCoin

open ByteStrings QuotedText Nesting

/-- How `protocol_parse_msg` counts a byte outside strings. Braces and square
brackets count alike. -/
def bracketWeight (c : UInt8) : Int :=
  if c = 123 ∨ c = 91 then 1 else if c = 125 ∨ c = 93 then -1 else 0

/-- The byte in front of a text decides whether a quotation mark at its start
counts. -/
def endsInBackslash (text : List UInt8) : Bool := text.getLast? == some 92

/-! ## Single bytes -/

/-- A byte that does not change the string state. -/
theorem scanPayload_byte (prev : Option UInt8) (depth : Int) (inString : Bool) (c : UInt8)
    (rest : List UInt8) (steady : c = 34 → prev = some 92)
    (positive : 0 < depth + (if inString then 0 else bracketWeight c)) (nonempty : rest ≠ []) :
    scanPayload prev depth inString (c :: rest) =
      c :: scanPayload (some c) (depth + (if inString then 0 else bracketWeight c)) inString rest := by
  have noToggle : ¬ (c = 34 ∧ prev ≠ some 92) := fun both => both.2 (steady both.1)
  have step : (if inString then depth
      else if c = 123 ∨ c = 91 then depth + 1
      else if c = 125 ∨ c = 93 then depth - 1 else depth) =
        depth + (if inString then 0 else bracketWeight c) := by
    unfold bracketWeight
    cases inString <;> split_ifs <;> simp_all
    all_goals omega
  rw [scanPayload]
  simp only [noToggle, if_false, step, positive, nonempty, ne_eq, not_false_eq_true, and_self, if_true]

/-- A quotation mark that changes the string state. -/
theorem scanPayload_quote (prev : Option UInt8) (depth : Int) (inString : Bool) (rest : List UInt8)
    (counts : prev ≠ some 92) (positive : 0 < depth) (nonempty : rest ≠ []) :
    scanPayload prev depth inString (34 :: rest) =
      34 :: scanPayload (some 34) depth (!inString) rest := by
  rw [scanPayload]
  simp only [counts, ne_eq, not_false_eq_true, and_self, if_true, positive, nonempty]

/-! ## Pieces -/

/-- The text that counts while a piece is scanned: the text between strings, or
in the inverted phase the contents of the strings. -/
def counted : Bool → Piece → List UInt8
  | inverted, .plain text => if inverted then [] else text
  | inverted, .quoted body => if inverted then body else []

/-- Whether a piece turns the phase around. -/
def flips : Piece → Bool
  | .plain _ => false
  | .quoted body => endsInBackslash body

/-- All text that counts, and the phase at the end. -/
def countedText : Bool → List Piece → List UInt8
  | _, [] => []
  | inverted, piece :: rest => counted inverted piece ++ countedText (inverted != flips piece) rest

/-- Each string that ends in a backslash turns the phase around, because its
closing quotation mark is taken for an escaped one. -/
def phaseAfter : Bool → List Piece → Bool
  | inverted, [] => inverted
  | inverted, piece :: rest => phaseAfter (inverted != flips piece) rest

/-- The right part is scanned in the phase in which the left one ends. -/
@[simp] theorem countedText_append (inverted : Bool) (left right : List Piece) :
    countedText inverted (left ++ right) =
      countedText inverted left ++ countedText (phaseAfter inverted left) right := by
  induction left generalizing inverted with
  | nil => rfl
  | cons piece rest ih => simp [countedText, phaseAfter, ih]

/-- Phases follow each other. -/
@[simp] theorem phaseAfter_append (inverted : Bool) (left right : List Piece) :
    phaseAfter inverted (left ++ right) = phaseAfter (phaseAfter inverted left) right := by
  induction left generalizing inverted with
  | nil => rfl
  | cons piece rest ih => exact ih _

/-- Pieces whose quotation marks are the ones of `QuotedText`, with no backslash
outside of strings. -/
def Clean : Piece → Prop
  | .plain text => 34 ∉ text ∧ 92 ∉ text
  | .quoted body => guarded false body

/-- Text in which every quotation mark follows a backslash leaves the string
state. -/
theorem scanPayload_text (prev : Option UInt8) (depth : Int) (inString : Bool)
    (text rest : List UInt8) (strong : guarded (prev == some 92) text) (positive : 0 < depth)
    (enclosed : inString = false → Enclosed bracketWeight depth text) (nonempty : rest ≠ []) :
    scanPayload prev depth inString (text ++ rest) =
      text ++ scanPayload (text.getLast?.or prev)
        (depth + if inString then 0 else rise bracketWeight text) inString rest := by
  induction text generalizing prev depth with
  | nil => cases inString <;> simp
  | cons c tail ih =>
    have steady : c = 34 → prev = some 92 := fun quote => by simpa using strong.1 quote
    have still : 0 < depth + (if inString then 0 else bracketWeight c) := by
      cases inString with
      | true => simpa using positive
      | false => simpa using (enclosed rfl).1
    have later : guarded (some c == some 92) tail := by simpa using strong.2
    rw [List.cons_append, scanPayload_byte prev depth inString c _ steady still (by simp [nonempty]),
      ih (some c) _ later still ?_]
    · have last : ((c :: tail).getLast?).or prev = tail.getLast?.or (some c) := by
        cases tail with
        | nil => rfl
        | cons d others => simp [List.getLast?_cons]
      rw [last]
      cases inString <;> simp [add_assoc]
    · intro outside
      subst outside
      simpa using (enclosed rfl).2

/-- One piece is passed if its counted text keeps the depth positive. -/
theorem scanPayload_piece (piece : Piece) (prev : Option UInt8) (depth : Int) (inverted : Bool)
    (rest : List UInt8) (counts : prev ≠ some 92) (clean : Clean piece) (positive : 0 < depth)
    (enclosed : Enclosed bracketWeight depth (counted inverted piece)) (nonempty : rest ≠ []) :
    ∃ last, last ≠ some 92 ∧ scanPayload prev depth inverted (piece.render ++ rest) =
      piece.render ++ scanPayload last (depth + rise bracketWeight (counted inverted piece))
        (inverted != flips piece) rest := by
  cases piece with
  | plain text =>
    have scanned := scanPayload_text prev depth inverted text rest
      (guarded_of_absent text clean.1 _) positive
      (fun outside => by simpa [counted, outside] using enclosed) nonempty
    refine ⟨text.getLast?.or prev, ?_, ?_⟩
    · cases last : text.getLast? with
      | none => simpa using counts
      | some c =>
        rintro same
        obtain rfl : c = 92 := by simpa using same
        exact clean.2 (List.mem_of_getLast? last)
    · rw [show (Piece.plain text).render = text from rfl, scanned]
      cases inverted <;> simp [counted, flips]
  | quoted body =>
    have shape : (Piece.quoted body).render ++ rest = 34 :: (body ++ 34 :: rest) := by
      simp [Piece.render]
    have opened := scanPayload_quote prev depth inverted (body ++ 34 :: rest) counts positive (by simp)
    have inside := scanPayload_text (some 34) depth (!inverted) body (34 :: rest) clean positive
      (fun outside => by
        obtain rfl : inverted = true := by simpa using outside
        simpa [counted] using enclosed) (by simp)
    have depthAfter : depth + (if !inverted then 0 else rise bracketWeight body) =
        depth + rise bracketWeight (counted inverted (.quoted body)) := by
      cases inverted <;> simp [counted]
    have still : 0 < depth + rise bracketWeight (counted inverted (.quoted body)) :=
      enclosed_rise bracketWeight depth positive _ enclosed
    rw [depthAfter] at inside
    refine ⟨some 34, by decide, ?_⟩
    rw [shape, opened, inside]
    by_cases backslash : body.getLast? = some 92
    · have flipped : flips (.quoted body) = true := by simp [flips, endsInBackslash, backslash]
      rw [backslash, Option.some_or,
        scanPayload_byte _ _ _ 34 rest (fun _ => rfl) (by
          cases inverted <;> simpa [bracketWeight] using still) nonempty, flipped]
      cases inverted <;> simp [Piece.render, bracketWeight]
    · have kept : flips (.quoted body) = false := by simp [flips, endsInBackslash, backslash]
      have counts' : body.getLast?.or (some 34) ≠ some 92 := by
        cases last : body.getLast? with
        | none => simp
        | some c => simpa [last] using backslash
      rw [scanPayload_quote _ _ _ rest counts' still nonempty, kept]
      cases inverted <;> simp [Piece.render]

/-- Any number of pieces is passed if their counted text keeps the depth
positive. -/
theorem scanPayload_pieces (pieces : List Piece) (prev : Option UInt8) (depth : Int)
    (inverted : Bool) (rest : List UInt8) (counts : prev ≠ some 92)
    (clean : ∀ piece ∈ pieces, Clean piece) (positive : 0 < depth)
    (enclosed : Enclosed bracketWeight depth (countedText inverted pieces)) (nonempty : rest ≠ []) :
    ∃ last, last ≠ some 92 ∧ scanPayload prev depth inverted (render pieces ++ rest) =
      render pieces ++ scanPayload last (depth + rise bracketWeight (countedText inverted pieces))
        (phaseAfter inverted pieces) rest := by
  induction pieces generalizing prev depth inverted with
  | nil => exact ⟨prev, counts, by simp [countedText, phaseAfter]⟩
  | cons piece others ih =>
    rw [countedText, enclosed_append] at enclosed
    obtain ⟨here, later⟩ := enclosed
    have still := enclosed_rise bracketWeight depth positive _ here
    obtain ⟨middle, counts', first⟩ := scanPayload_piece piece prev depth inverted
      (render others ++ rest) counts (clean piece (by simp)) positive here (by simp [nonempty])
    obtain ⟨last, counts'', second⟩ := ih middle _ _ counts'
      (fun other member => clean other (by simp [member])) still later
    refine ⟨last, counts'', ?_⟩
    have shape : render (piece :: others) = piece.render ++ render others := rfl
    rw [shape, List.append_assoc, first, second, countedText, rise_append, phaseAfter, add_assoc,
      List.append_assoc]

/-- The opening bracket of the payload. -/
theorem scanPayload_open (rest : List UInt8) (nonempty : rest ≠ []) :
    scanPayload none 0 false (123 :: rest) = 123 :: scanPayload (some 123) 1 false rest :=
  scanPayload_byte none 0 false 123 rest (by decide) (by decide) nonempty

/-! ## What counts in a list of pieces -/

/-- Two lists of pieces with the same counted brackets and the same effect on
the phase. -/
def SameCount (left right : List Piece) : Prop :=
  ∀ inverted, brackets bracketWeight (countedText inverted left) =
      brackets bracketWeight (countedText inverted right) ∧
    phaseAfter inverted left = phaseAfter inverted right

/-- Whatever is the same counts the same. -/
theorem SameCount.refl (pieces : List Piece) : SameCount pieces pieces := fun _ => ⟨rfl, rfl⟩

/-- Parts that count the same may be put together. -/
theorem SameCount.append {left left' right right' : List Piece} (first : SameCount left left')
    (second : SameCount right right') : SameCount (left ++ right) (left' ++ right') := by
  intro inverted
  obtain ⟨text, phase⟩ := first inverted
  obtain ⟨text', phase'⟩ := second (phaseAfter inverted left')
  constructor
  · rw [countedText_append, countedText_append, brackets_append, brackets_append, text, phase, text']
  · rw [phaseAfter_append, phaseAfter_append, phase, phase']

/-- Counts can be compared in several steps. -/
theorem SameCount.trans {first second third : List Piece} (left : SameCount first second)
    (right : SameCount second third) : SameCount first third := fun inverted =>
  ⟨(left inverted).1.trans (right inverted).1, (left inverted).2.trans (right inverted).2⟩

/-- And in either direction. -/
theorem SameCount.symm {left right : List Piece} (same : SameCount left right) :
    SameCount right left := fun inverted => ⟨(same inverted).1.symm, (same inverted).2.symm⟩

/-- Text without brackets between strings does not count. -/
theorem sameCount_plain (text : List UInt8) (flat : Flat bracketWeight text) :
    SameCount [.plain text] [] := by
  have none := brackets_flat bracketWeight text flat
  intro inverted
  cases inverted
  · exact ⟨by simpa [countedText, counted] using none, rfl⟩
  · exact ⟨rfl, rfl⟩

/-- Without backslashes a text does not end in one. -/
theorem endsInBackslash_of_absent (text : List UInt8) (absent : 92 ∉ text) :
    endsInBackslash text = false := by
  simp only [endsInBackslash, beq_eq_false_iff_ne, ne_eq]
  exact fun last => absent (List.mem_of_getLast? last)

/-- Nor does a string without brackets that does not end in a backslash. -/
theorem sameCount_quoted (text : List UInt8) (flat : Flat bracketWeight text)
    (absent : 92 ∉ text) : SameCount [.quoted text] [] := by
  have none := brackets_flat bracketWeight text flat
  have ends := endsInBackslash_of_absent text absent
  intro inverted
  cases inverted
  · exact ⟨rfl, by simp [phaseAfter, flips, ends]⟩
  · exact ⟨by simpa [countedText, counted] using none, by simp [phaseAfter, flips, ends]⟩

/-- Escaping adds no bracket. -/
theorem brackets_bracketWeight_escape (text : List UInt8) :
    brackets bracketWeight (escape text) = brackets bracketWeight text := by
  induction text with
  | nil => rfl
  | cons c rest ih =>
    have head : brackets bracketWeight (if c = 34 ∨ c = 92 then [92, c] else [c]) =
        brackets bracketWeight [c] := by
      split
      · next special => rcases special with rfl | rfl <;> rfl
      · rfl
    rw [escape_cons, brackets_append, head, ih, ← brackets_append]
    rfl

/-- An escaped text ends in a backslash exactly if the text does, as the last
byte stays last. -/
theorem endsInBackslash_escape (text : List UInt8) :
    endsInBackslash (escape text) = endsInBackslash text := by
  rcases List.eq_nil_or_concat text with rfl | ⟨front, c, rfl⟩
  · rfl
  · have last : escape (front ++ [c]) = escape front ++ (if c = 34 ∨ c = 92 then [92, c] else [c]) := by
      simp [escape]
    simp only [endsInBackslash, List.concat_eq_append, last]
    split <;> simp [List.getLast?_append]

/-- An escaped string counts like the string itself. -/
theorem sameCount_escape (text : List UInt8) :
    SameCount [.quoted (escape text)] [.quoted text] := by
  have ends := endsInBackslash_escape text
  intro inverted
  cases inverted
  · exact ⟨rfl, by simp [phaseAfter, flips, ends]⟩
  · refine ⟨?_, by simp [phaseAfter, flips, ends]⟩
    simpa [countedText, counted] using brackets_bracketWeight_escape text

/-- A number has no brackets. -/
theorem flat_bracketWeight_decimal (n : Nat) : Flat bracketWeight (decimal n) := by
  intro c member
  have digit := decimal_digits n c member
  simp only [isDigit, Bool.and_eq_true, decide_eq_true_eq] at digit
  unfold bracketWeight
  rw [if_neg, if_neg]
  · rintro (rfl | rfl) <;> simp at digit
  · rintro (rfl | rfl) <;> simp at digit

/-- Nor has a signed one. -/
theorem flat_bracketWeight_signed (z : Int) : Flat bracketWeight (signedDecimal z) := by
  unfold signedDecimal
  split
  · intro c member
    rcases List.mem_cons.mp member with rfl | digit
    · decide
    · exact flat_bracketWeight_decimal _ c digit
  · exact flat_bracketWeight_decimal _

/-- Of a field only the value counts. -/
theorem sameCount_field (field : Field) (key : Flat bracketWeight field.key)
    (absent : 92 ∉ field.key) (close : bracketWeight field.close = 0) :
    SameCount field.pieces [field.value] := by
  have keyText := sameCount_quoted field.key key absent
  have colon := sameCount_plain [58] (by simp [Flat]; decide)
  have closeText := sameCount_plain [field.close] (by simpa [Flat] using close)
  exact keyText.append (colon.append ((SameCount.refl [field.value]).append closeText))

/-- A key without brackets is flat, which is decided for each key. -/
theorem flatKey (key : List UInt8) (flat : brackets bracketWeight key = []) :
    Flat bracketWeight key := by
  simpa [brackets, Flat, List.filter_eq_nil_iff] using flat

/-- A single byte of punctuation is clean. -/
theorem clean_byte (c : UInt8) (noQuote : c ≠ 34) (noBackslash : c ≠ 92) : Clean (.plain [c]) :=
  ⟨by simpa using noQuote.symm, by simpa using noBackslash.symm⟩

/-- The pieces of fields are clean if no backslash stands outside of strings. -/
theorem clean_fieldPieces (fields : List Field) (valid : ∀ field ∈ fields, field.Valid)
    (values : ∀ field ∈ fields, ∀ text, field.value = .plain text → 92 ∉ text)
    (closes : ∀ field ∈ fields, field.close ≠ 92) :
    ∀ piece ∈ fieldPieces fields, Clean piece := by
  intro piece member
  obtain ⟨field, inFields, inField⟩ := List.mem_flatMap.mp member
  obtain ⟨key, close, value⟩ := valid field inFields
  simp only [Field.pieces, List.mem_cons, List.not_mem_nil, or_false] at inField
  rcases inField with rfl | rfl | same | rfl
  · exact guarded_of_absent _ key _
  · exact clean_byte 58 (by decide) (by decide)
  · rw [same]
    cases text : field.value with
    | plain plainText =>
      rw [text] at value
      exact ⟨value, values field inFields plainText text⟩
    | quoted body =>
      rw [text] at value
      exact value.1
  · exact clean_byte _ close (closes field inFields)

/-! ## Transactions -/

/-- A number has no backslash. -/
theorem decimal_no_backslash (n : Nat) : 92 ∉ decimal n := fun member =>
  absurd (decimal_digits n 92 member) (by decide)

/-- Nor has a signed one. -/
theorem signedDecimal_no_backslash (z : Int) : 92 ∉ signedDecimal z := by
  unfold signedDecimal
  split
  · simp [decimal_no_backslash]
  · exact decimal_no_backslash _

/-- The pieces of a transaction are clean: their strings are escaped. -/
theorem clean_txPieces (tx : Tx) : ∀ piece ∈ txPieces tx, Clean piece := by
  have values : ∀ field ∈ txFields tx, ∀ text, field.value = .plain text → 92 ∉ text := by
    simp only [txFields, List.mem_cons, List.not_mem_nil, or_false]
    rintro field (rfl | rfl | rfl | rfl | rfl | rfl) text same <;> cases same
    · exact decimal_no_backslash _
    · exact decimal_no_backslash _
  have closes : ∀ field ∈ txFields tx, field.close ≠ 92 := by
    simp [txFields]
  intro piece member
  rcases List.mem_cons.mp member with rfl | inFields
  · exact clean_byte 123 (by decide) (by decide)
  · exact clean_fieldPieces _ (txFields_valid tx) values closes piece inFields

/-- So are those of several transactions. -/
theorem clean_txsPieces (comma : Bool) (txs : List Tx) :
    ∀ piece ∈ txsPieces comma txs, Clean piece := by
  induction txs generalizing comma with
  | nil => simp [txsPieces]
  | cons tx rest ih =>
    intro piece member
    simp only [txsPieces, List.mem_append] at member
    rcases member with (separator | object) | others
    · cases comma with
      | false => simp at separator
      | true =>
        obtain rfl := List.mem_singleton.mp (by simpa using separator)
        exact clean_byte 44 (by decide) (by decide)
    · exact clean_txPieces tx piece object
    · exact ih true piece others

/-- The text fields of a transaction as strings. -/
def textPieces (tx : Tx) : List Piece :=
  [.quoted tx.sender.bytes, .quoted tx.receiver.bytes, .quoted tx.signature.bytes,
    .quoted tx.txHash.bytes]

/-- Between the braces of a transaction object its text fields count. -/
theorem sameCount_innerPieces (tx : Tx) : SameCount (innerPieces tx) (textPieces tx) := by
  have sender := (sameCount_field ⟨ascii "sender", .quoted (escape tx.sender.bytes), 44⟩
    (flatKey (ascii "sender") (by decide)) (by decide : 92 ∉ ascii "sender") rfl).trans
      (sameCount_escape tx.sender.bytes)
  have receiver := (sameCount_field ⟨ascii "receiver", .quoted (escape tx.receiver.bytes), 44⟩
    (flatKey (ascii "receiver") (by decide)) (by decide : 92 ∉ ascii "receiver") rfl).trans
      (sameCount_escape tx.receiver.bytes)
  have amount := (sameCount_field ⟨ascii "amount", .plain (decimal tx.amount.toNat), 44⟩
    (flatKey (ascii "amount") (by decide)) (by decide : 92 ∉ ascii "amount") rfl).trans
      (sameCount_plain _ (flat_bracketWeight_decimal _))
  have fee := (sameCount_field ⟨ascii "fee", .plain (decimal tx.fee.toNat), 44⟩
    (flatKey (ascii "fee") (by decide)) (by decide : 92 ∉ ascii "fee") rfl).trans
      (sameCount_plain _ (flat_bracketWeight_decimal _))
  have signature := (sameCount_field ⟨ascii "signature", .quoted (escape tx.signature.bytes), 44⟩
    (flatKey (ascii "signature") (by decide)) (by decide : 92 ∉ ascii "signature") rfl).trans
      (sameCount_escape tx.signature.bytes)
  have hashKey := sameCount_quoted (ascii "tx_hash") (flatKey _ (by decide)) (by decide)
  have colon := sameCount_plain [58] (flatKey _ (by decide))
  have txHash := hashKey.append (colon.append (sameCount_escape tx.txHash.bytes))
  exact sender.append (receiver.append (amount.append (fee.append (signature.append txHash))))

/-- Only the braces and the text fields of a transaction count. -/
theorem sameCount_txPieces (tx : Tx) :
    SameCount (txPieces tx) ([.plain [123]] ++ (textPieces tx ++ [.plain [125]])) := by
  rw [txPieces_eq]
  exact (SameCount.refl _).append ((sameCount_innerPieces tx).append (SameCount.refl _))

/-- The text fields of several transactions. -/
def allTextPieces (txs : List Tx) : List Piece := txs.flatMap textPieces

/-- The text that the scan of a block takes for text between strings. It is
empty unless a field ends in a backslash. -/
def exposed (txs : List Tx) : List UInt8 := countedText false (allTextPieces txs)

/-- The depth outside the objects of a list: one less than inside, unless the
braces around the objects are not counted. -/
def outerDepth (base : Int) (inverted : Bool) : Int := if inverted then base + 1 else base

/-- In the inverted phase the braces around an object count no more, but the
contents of its strings do. -/
theorem countedText_braces (inverted : Bool) (pieces : List Piece) :
    countedText inverted ([.plain [123]] ++ (pieces ++ [.plain [125]])) =
        (if inverted then [] else [123]) ++ (countedText inverted pieces ++
          if phaseAfter inverted pieces then [] else [125]) ∧
      phaseAfter inverted ([.plain [123]] ++ (pieces ++ [.plain [125]])) =
        phaseAfter inverted pieces := by
  have first : phaseAfter inverted [.plain [123]] = inverted := by simp [phaseAfter, flips]
  have last (phase : Bool) : phaseAfter phase [.plain [125]] = phase := by simp [phaseAfter, flips]
  simp only [countedText_append, phaseAfter_append, first, last, and_true]
  simp [countedText, counted]

/-- If the exposed text never closes more than it has opened, the scan gets
through an object: inside it, the exposed text only adds to the depth. -/
theorem enclosed_braces (base extra : Int) (inverted : Bool) (pieces : List Piece)
    (positive : 0 < base) (atLeast : 0 ≤ extra)
    (enclosed : Enclosed bracketWeight (1 + extra) (countedText inverted pieces)) :
    Enclosed bracketWeight (outerDepth base inverted + extra)
        (countedText inverted ([.plain [123]] ++ (pieces ++ [.plain [125]]))) ∧
      outerDepth base inverted + extra +
          rise bracketWeight (countedText inverted ([.plain [123]] ++ (pieces ++ [.plain [125]]))) =
        outerDepth base (phaseAfter inverted pieces) +
          (extra + rise bracketWeight (countedText inverted pieces)) := by
  have still := enclosed_rise bracketWeight (1 + extra) (by omega) _ enclosed
  have inside : Enclosed bracketWeight (base + 1 + extra) (countedText inverted pieces) :=
    enclosed_mono bracketWeight (by omega) _ enclosed
  have openWeight : bracketWeight 123 = 1 := by decide
  have closeWeight : bracketWeight 125 = -1 := by decide
  rw [(countedText_braces inverted pieces).1]
  constructor
  · rw [enclosed_append, enclosed_append]
    cases inverted <;> cases phaseAfter _ pieces <;>
      simp only [outerDepth, Bool.false_eq_true, if_false, if_true, enclosed_cons, enclosed_nil,
        rise_cons, rise_nil, openWeight, closeWeight, and_true, true_and, add_zero]
    · refine ⟨by omega, ?_, by omega⟩
      rwa [show base + extra + 1 = base + 1 + extra by omega]
    · refine ⟨by omega, ?_⟩
      rwa [show base + extra + 1 = base + 1 + extra by omega]
    · exact ⟨inside, by omega⟩
    · exact inside
  · rw [rise_append, rise_append]
    cases inverted <;> cases phaseAfter _ pieces <;>
      simp only [outerDepth, Bool.false_eq_true, if_false, if_true, rise_cons, rise_nil, openWeight,
        closeWeight] <;> omega

/-- The comma between two objects does not count. -/
theorem sameCount_txsPieces_cons (comma : Bool) (tx : Tx) (rest : List Tx) :
    SameCount (txsPieces comma (tx :: rest))
      (([.plain [123]] ++ (textPieces tx ++ [.plain [125]])) ++ txsPieces true rest) := by
  have object := (sameCount_txPieces tx).append (SameCount.refl (txsPieces true rest))
  cases comma with
  | false => simpa [txsPieces] using object
  | true =>
    have comma := sameCount_plain [44] (by simp [Flat]; decide)
    simpa [txsPieces] using comma.append object

/-- The same for all objects of a list. -/
theorem enclosed_txsPieces (base extra : Int) (inverted comma : Bool) (txs : List Tx)
    (positive : 0 < base) (atLeast : 0 ≤ extra)
    (enclosed : Enclosed bracketWeight (1 + extra) (countedText inverted (allTextPieces txs))) :
    Enclosed bracketWeight (outerDepth base inverted + extra)
        (countedText inverted (txsPieces comma txs)) ∧
      phaseAfter inverted (txsPieces comma txs) = phaseAfter inverted (allTextPieces txs) ∧
      outerDepth base inverted + extra +
          rise bracketWeight (countedText inverted (txsPieces comma txs)) =
        outerDepth base (phaseAfter inverted (allTextPieces txs)) +
          (extra + rise bracketWeight (countedText inverted (allTextPieces txs))) := by
  induction txs generalizing extra inverted comma with
  | nil => simp [txsPieces, allTextPieces, countedText, phaseAfter]
  | cons tx rest ih =>
    have split : allTextPieces (tx :: rest) = textPieces tx ++ allTextPieces rest := rfl
    rw [split, countedText_append, enclosed_append] at enclosed
    obtain ⟨first, later⟩ := enclosed
    have still := enclosed_rise bracketWeight (1 + extra) (by omega) _ first
    obtain ⟨object, objectRise⟩ := enclosed_braces base extra inverted (textPieces tx) positive atLeast
      first
    obtain ⟨others, othersPhase, othersRise⟩ :=
      ih (extra + rise bracketWeight (countedText inverted (textPieces tx)))
        (phaseAfter inverted (textPieces tx)) true (by omega) (by rwa [← add_assoc])
    obtain ⟨sameText, samePhase⟩ := sameCount_txsPieces_cons comma tx rest inverted
    have phase := (countedText_braces inverted (textPieces tx)).2
    have outerPositive : 0 < outerDepth base inverted + extra := by
      unfold outerDepth
      split <;> omega
    rw [countedText_append, phase] at sameText
    rw [phaseAfter_append, phase] at samePhase
    rw [split, phaseAfter_append, countedText_append, samePhase, othersPhase, rise_append,
      ← enclosed_brackets bracketWeight _ outerPositive, sameText,
      enclosed_brackets bracketWeight _ outerPositive, enclosed_append,
      ← rise_brackets bracketWeight (countedText inverted (txsPieces comma (tx :: rest))), sameText,
      rise_brackets, rise_append, objectRise]
    refine ⟨⟨object, others⟩, rfl, ?_⟩
    rw [← add_assoc, objectRise, othersRise, add_assoc]

/-! ## Blocks -/

/-- What of a block object stands in front of its closing brackets, without the
first brace. -/
def blockMiddle (block : Block) : List Piece :=
  fieldPieces (blockFields block) ++ txsPieces false block.listed

/-- The object of a block is its middle between braces, with the end of the
array. -/
theorem blockPieces_eq (block : Block) (extra : List UInt8) :
    blockPieces block extra = [.plain [123]] ++ (blockMiddle block ++ [.plain ([93, 125] ++ extra)]) := by
  simp [blockPieces, blockMiddle]

/-- The hashes in the header contain no backslash. -/
def Block.HashesPlain (block : Block) : Prop := 92 ∉ block.prevHash.bytes ∧ 92 ∉ block.hash.bytes

/-- Fields that need no escapes have plain hashes. -/
theorem Block.Unquoted.hashesPlain {block : Block} (unquoted : block.Unquoted) : block.HashesPlain :=
  ⟨unquoted.prevHash.2, unquoted.hash.2⟩

/-- Of the fields of a block the hashes count, and the bracket that opens the
list of transactions. -/
theorem sameCount_blockFields (block : Block) : SameCount (fieldPieces (blockFields block))
    [.quoted block.prevHash.bytes, .quoted block.hash.bytes, .plain [91]] := by
  have index := (sameCount_field ⟨ascii "index", .plain (decimal block.index.toNat), 44⟩
    (flatKey (ascii "index") (by decide)) (by decide : 92 ∉ ascii "index") rfl).trans
      (sameCount_plain _ (flat_bracketWeight_decimal _))
  have timestamp := (sameCount_field
    ⟨ascii "timestamp", .plain (signedDecimal block.timestamp.toInt), 44⟩
    (flatKey (ascii "timestamp") (by decide)) (by decide : 92 ∉ ascii "timestamp") rfl).trans
      (sameCount_plain _ (flat_bracketWeight_signed _))
  have prevHash := (sameCount_field ⟨ascii "prev_hash", .quoted (escape block.prevHash.bytes), 44⟩
    (flatKey (ascii "prev_hash") (by decide)) (by decide : 92 ∉ ascii "prev_hash") rfl).trans
      (sameCount_escape _)
  have nonce := (sameCount_field ⟨ascii "nonce", .plain (decimal block.nonce.toNat), 44⟩
    (flatKey (ascii "nonce") (by decide)) (by decide : 92 ∉ ascii "nonce") rfl).trans
      (sameCount_plain _ (flat_bracketWeight_decimal _))
  have hash := (sameCount_field ⟨ascii "hash", .quoted (escape block.hash.bytes), 44⟩
    (flatKey (ascii "hash") (by decide)) (by decide : 92 ∉ ascii "hash") rfl).trans
      (sameCount_escape _)
  have txCount := (sameCount_field ⟨ascii "tx_count", .plain (signedDecimal block.txCount.toInt), 44⟩
    (flatKey (ascii "tx_count") (by decide)) (by decide : 92 ∉ ascii "tx_count") rfl).trans
      (sameCount_plain _ (flat_bracketWeight_signed _))
  have listKey := sameCount_quoted (ascii "transactions") (flatKey _ (by decide)) (by decide)
  have colon := sameCount_plain [58] (flatKey _ (by decide))
  have nothing := sameCount_plain [] (flatKey _ rfl)
  have list := listKey.append (colon.append (nothing.append (SameCount.refl [.plain [91]])))
  exact index.append (timestamp.append (prevHash.append (nonce.append (hash.append
    (txCount.append (list.append (SameCount.refl [])))))))

/-- Without backslashes in the hashes only the bracket counts. -/
theorem countedText_blockFields (block : Block) (hashes : block.HashesPlain) :
    brackets bracketWeight (countedText false (fieldPieces (blockFields block))) = [91] ∧
      phaseAfter false (fieldPieces (blockFields block)) = false := by
  have noPrev := endsInBackslash_of_absent _ hashes.1
  have noHash := endsInBackslash_of_absent _ hashes.2
  obtain ⟨text, phase⟩ := sameCount_blockFields block false
  constructor
  · refine Eq.trans text ?_
    simp [countedText, counted, flips, noPrev, noHash]
    decide
  · refine Eq.trans phase ?_
    simp [phaseAfter, flips, noPrev, noHash]

/-- Up to its closing brackets a block keeps the depth positive, if its exposed
text does. -/
theorem enclosed_blockMiddle (block : Block) (base : Int) (positive : 0 < base)
    (hashes : block.HashesPlain) (enclosed : Enclosed bracketWeight 1 (exposed block.listed)) :
    Enclosed bracketWeight base (countedText false (blockMiddle block)) ∧
      phaseAfter false (blockMiddle block) = phaseAfter false (allTextPieces block.listed) ∧
      base + rise bracketWeight (countedText false (blockMiddle block)) =
        outerDepth (base + 1) (phaseAfter false (allTextPieces block.listed)) +
          rise bracketWeight (exposed block.listed) := by
  obtain ⟨header, phase⟩ := countedText_blockFields block hashes
  obtain ⟨inside, phaseTxs, riseTxs⟩ := enclosed_txsPieces (base + 1) 0 false false block.listed
    (by omega) le_rfl (by simpa [exposed] using enclosed)
  have listWeight : bracketWeight 91 = 1 := by decide
  have headerRise : rise bracketWeight (countedText false (fieldPieces (blockFields block))) = 1 := by
    rw [← rise_brackets, header, rise_cons, rise_nil, listWeight]
    rfl
  have outer : outerDepth (base + 1) false = base + 1 := rfl
  rw [outer] at inside riseTxs
  rw [blockMiddle, countedText_append, phaseAfter_append, phase, enclosed_append, rise_append,
    headerRise, ← enclosed_brackets bracketWeight base positive, header]
  refine ⟨⟨⟨by omega, trivial⟩, by simpa using inside⟩, phaseTxs, ?_⟩
  rw [exposed]
  omega

/-- The middle of a block is clean. -/
theorem clean_blockMiddle (block : Block) : ∀ piece ∈ blockMiddle block, Clean piece := by
  have values : ∀ field ∈ blockFields block, ∀ text, field.value = .plain text → 92 ∉ text := by
    simp only [blockFields, List.mem_cons, List.not_mem_nil, or_false]
    rintro field (rfl | rfl | rfl | rfl | rfl | rfl | rfl) text same <;> cases same
    · exact decimal_no_backslash _
    · exact signedDecimal_no_backslash _
    · exact decimal_no_backslash _
    · exact signedDecimal_no_backslash _
    · decide
  have closes : ∀ field ∈ blockFields block, field.close ≠ 92 := by
    simp [blockFields]
  intro piece member
  rcases List.mem_append.mp member with field | object
  · exact clean_fieldPieces _ (blockFields_valid block) values closes piece field
  · exact clean_txsPieces false block.listed piece object

/-- The payload of a block message is found, possibly with the last brace of the
message behind it. -/
theorem scanPayload_block (block : Block) (hashes : block.HashesPlain)
    (enclosed : Enclosed bracketWeight 1 (exposed block.listed)) :
    ∃ extra, (extra = [] ∨ extra = [125]) ∧
      scanPayload none 0 false (render (blockPieces block []) ++ [125]) =
        render (blockPieces block extra) := by
  obtain ⟨inside, phase, after⟩ := enclosed_blockMiddle block 1 one_pos hashes enclosed
  have still := enclosed_rise bracketWeight 1 one_pos _ enclosed
  obtain ⟨last, counts, scanned⟩ := scanPayload_pieces (blockMiddle block) (some 123) 1 false
    ([93, 125] ++ [125]) (by decide) (clean_blockMiddle block) one_pos inside (by simp)
  have start : render (blockPieces block []) ++ [125] =
      123 :: (render (blockMiddle block) ++ ([93, 125] ++ [125])) := by
    simp [blockPieces_eq]
  have finish (extra : List UInt8) : render (blockPieces block extra) =
      123 :: (render (blockMiddle block) ++ ([93, 125] ++ extra)) := by
    simp [blockPieces_eq]
  have closing (phase : Bool) (depth : Int) (deep : phase = false → 2 ≤ depth) (positive : 0 < depth) :
      ∃ extra, (extra = [] ∨ extra = [125]) ∧
        scanPayload last depth phase ([93, 125] ++ [125]) = [93, 125] ++ extra := by
    cases phase with
    | true => exact ⟨[125], Or.inr rfl, by simp [scanPayload, positive]⟩
    | false =>
      have two := deep rfl
      have first : 1 < depth := by omega
      rcases Int.lt_or_le 1 (depth - 1) with second | second
      · exact ⟨[125], Or.inr rfl, by simp [scanPayload, first, second]⟩
      · exact ⟨[], Or.inl rfl, by simp [scanPayload, first, not_lt.mpr second]⟩
  rw [start, scanPayload_open _ (by simp), scanned, after, phase]
  obtain ⟨extra, either, found⟩ := closing (phaseAfter false (allTextPieces block.listed))
    (outerDepth (1 + 1) (phaseAfter false (allTextPieces block.listed)) +
      rise bracketWeight (exposed block.listed))
    (fun outside => by rw [outside, outerDepth, if_neg (by decide)]; omega)
    (by unfold outerDepth; split <;> omega)
  exact ⟨extra, either, by rw [found, finish]⟩

end MiniCoin
