import Mathlib.Data.List.Basic

/-!
# The fields and arrays of a text

What a text of the JSON kind says, read without any shortcut: a bracket in a string is no bracket,
a backslash in a string takes the byte behind it with it, every closing bracket closes the innermost
one that is open, and a name counts where it stands between the outermost braces. A parser that
looks for names and brackets anywhere in the text is compared with this reading.
-/

namespace JsonText

/-- Where a reader stands. The open brackets are kept by the bytes that close
them, the innermost first; in a string, the byte behind a backslash has no
meaning of its own. -/
structure Scan where
  closers : List UInt8
  quoted : Bool
  escaped : Bool
  deriving DecidableEq

/-- Between the brackets that are open, and in no string. -/
def Scan.within (closers : List UInt8) : Scan := ⟨closers, false, false⟩

/-- The reader passes a byte. It gives up at a bracket that closes another one
than the innermost. -/
def Scan.next (scan : Scan) (c : UInt8) : Option Scan :=
  if scan.escaped then some { scan with escaped := false }
  else if scan.quoted then
    if c = 92 then some { scan with escaped := true }
    else if c = 34 then some { scan with quoted := false }
    else some scan
  else if c = 34 then some { scan with quoted := true }
  else if c = 123 then some { scan with closers := 125 :: scan.closers }
  else if c = 91 then some { scan with closers := 93 :: scan.closers }
  else if c = 125 ∨ c = 93 then
    if scan.closers.head? = some c then some { scan with closers := scan.closers.tail } else none
  else some scan

/-- The blanks that may stand around names and values. -/
def isBlank (c : UInt8) : Bool := c == 32 || c == 9 || c == 10 || c == 13

/-- From the reader's place to where no bracket is open any more, and what
follows there. -/
def upToClose : Scan → List UInt8 → Option (List UInt8 × List UInt8)
  | _, [] => none
  | scan, c :: rest =>
    match scan.next c with
    | none => none
    | some after =>
      if after.closers = [] then some ([c], rest)
      else (upToClose after rest).map fun (whole, behind) => (c :: whole, behind)

/-! ## Fields -/

/-- The value of the field that begins here, with what follows it, if it has the
name. -/
def named (name text : List UInt8) : Option (List UInt8) :=
  if (34 :: (name ++ [34])).isPrefixOf text then
    match (text.drop (name.length + 2)).dropWhile isBlank with
    | 58 :: value => some (value.dropWhile isBlank)
    | _ => none
  else none

/-- The first field of the name between the outermost braces, from the reader's
place on. -/
def fieldFrom (name : List UInt8) : Scan → List UInt8 → Option (List UInt8)
  | _, [] => none
  | scan, c :: rest =>
    match if scan = .within [125] then named name (c :: rest) else none with
    | some value => some value
    | none =>
      match scan.next c with
      | none => none
      | some after => if after.closers = [] then none else fieldFrom name after rest

/-- The value of the field of a text that is an object, with what follows it. -/
def field (name text : List UInt8) : Option (List UInt8) :=
  match text.dropWhile isBlank with
  | 123 :: rest => fieldFrom name (.within [125]) rest
  | _ => none

/-! ## Arrays of objects -/

/-- The objects that stand directly in an array, from the reader's place on,
each with what follows it. Something does: at least the bracket that closes the
array. -/
def objectsFrom : Scan → List UInt8 → List (List UInt8 × List UInt8)
  | _, [] => []
  | scan, c :: rest =>
    match scan.next c with
    | none => []
    | some after =>
      let later := if after.closers = [] then [] else objectsFrom after rest
      if scan = .within [93] ∧ c = 123 then
        match upToClose (.within []) (c :: rest) with
        | some (object, d :: behind) => (object, d :: behind) :: later
        | _ => []
      else later

/-- The objects of the array that is the field's value. -/
def objects (name text : List UInt8) : List (List UInt8 × List UInt8) :=
  match field name text with
  | some (91 :: rest) => objectsFrom (.within [93]) rest
  | _ => []

/-- Something follows each object of an array. -/
theorem objectsFrom_behind (text : List UInt8) (scan : Scan) :
    ∀ object ∈ objectsFrom scan text, object.2 ≠ [] := by
  induction text generalizing scan with
  | nil => intro object member; cases member
  | cons c rest ih =>
    intro object member
    rw [objectsFrom] at member
    cases stepped : scan.next c with
    | none => simp [stepped] at member
    | some after =>
      have later : ∀ one ∈ (if after.closers = [] then [] else objectsFrom after rest), one.2 ≠ [] := by
        intro one inLater
        split_ifs at inLater
        · cases inLater
        · exact ih after one inLater
      simp only [stepped] at member
      split at member
      · split at member
        · rcases List.mem_cons.mp member with rfl | inLater
          · simp
          · exact later object inLater
        · cases member
      · exact later object member

theorem objects_behind (name text : List UInt8) : ∀ object ∈ objects name text, object.2 ≠ [] := by
  unfold objects
  split
  · exact objectsFrom_behind _ _
  · intro object member
    cases member

end JsonText
