import MiniCoin.Nodes
import MiniCoin.Words

/-!
# The commands of a user

What the main loop of `main.c` reads from standard input. It reads with `scanf`, which looks for
words and may leave a part of a word to the next call: a word that is too long or is no number is
taken up again as the next choice. Blanks make no difference, and commands that are typed word by
word are the commands that are carried out.
-/

namespace MiniCoin

open ByteStrings Words

/-! ## Reading -/

/-- A list is cut at the same element, whatever stands behind a first element
that is not kept. -/
theorem takeWhile_append_stop {α : Type} (keep : α → Bool) (front rest : List α)
    (stop : ∀ c ∈ rest.head?, keep c = false) : (front ++ rest).takeWhile keep = front.takeWhile keep := by
  induction front with
  | nil =>
    cases rest with
    | nil => rfl
    | cons c others => simp [stop c (by simp)]
  | cons c others ih =>
    cases kept : keep c with
    | true => rw [List.cons_append, List.takeWhile_cons_of_pos kept, List.takeWhile_cons_of_pos kept, ih]
    | false => simp [kept]

/-- A digit is not a blank, so a number is part of one word. -/
theorem isDigit_solid (c : UInt8) (digit : isDigit c = true) : isSpace c = false := by
  simp only [isDigit, Bool.and_eq_true, decide_eq_true_eq] at digit
  simp only [isSpace, Bool.or_eq_false_iff, beq_eq_false_iff_ne, Bool.and_eq_false_iff, decide_eq_false_iff_not]
  omega

/-- The item of `%s` with a width. -/
def stringItem (width : Nat) : Reader isSpace where
  count text := min width (text.takeWhile (!isSpace ·)).length
  within word tail front := by
    have same : (word ++ tail).takeWhile (!isSpace ·) = word.takeWhile (!isSpace ·) :=
      takeWhile_append_stop _ word tail fun c first => by simp [front.ends c first]
    rw [same]
    exact ⟨rfl, (Nat.min_le_right _ _).trans (List.takeWhile_sublist _).length_le⟩

/-- The sign that `%lu` and `%d` read before the digits. -/
def signLength : List UInt8 → Nat
  | 45 :: _ | 43 :: _ => 1
  | _ => 0

/-- The sign is looked for in the first byte of a word only. -/
theorem signLength_append {word : List UInt8} (nonempty : word ≠ []) (tail : List UInt8) :
    signLength (word ++ tail) = signLength word ∧ signLength word ≤ word.length := by
  cases word with
  | nil => exact absurd rfl nonempty
  | cons c rest =>
    rw [List.cons_append]
    unfold signLength
    split <;> simp_all

/-- The item of `%lu` and `%d`: a sign and digits. A sign is consumed also if no
digit follows. -/
def numberItem : Reader isSpace where
  count text := signLength text + ((text.drop (signLength text)).takeWhile isDigit).length
  within word tail front := by
    obtain ⟨same, within⟩ := signLength_append front.nonempty tail
    have digits : ((word ++ tail).drop (signLength word)).takeWhile isDigit =
        (word.drop (signLength word)).takeWhile isDigit := by
      rw [List.drop_append_of_le_length within]
      refine takeWhile_append_stop _ _ _ fun c first => ?_
      cases digit : isDigit c with
      | false => rfl
      | true =>
        have blank := front.ends c first
        rw [isDigit_solid c digit] at blank
        cases blank
    have few : ((word.drop (signLength word)).takeWhile isDigit).length ≤ (word.drop (signLength word)).length :=
      (List.takeWhile_sublist _).length_le
    rw [List.length_drop] at few
    rw [same, digits]
    exact ⟨rfl, by omega⟩

/-- What `scanf` stores for `%s` with a width: at least one byte, at most as
many as the width, and no blank. It carries these facts, so they need no proof
where the item is used. -/
@[ext] structure Scanned (width : Nat) where
  bytes : List UInt8
  nonempty : bytes ≠ []
  bound : bytes.length ≤ width
  solid : ∀ c ∈ bytes, isSpace c = false

/-- The item of `%s` has no blank and respects its width. -/
theorem stringItem_take (width : Nat) (input : List UInt8) :
    ((stringItem width).take input).1.length ≤ width ∧ ∀ c ∈ ((stringItem width).take input).1, isSpace c = false := by
  simp only [Reader.take, stringItem]
  generalize input.dropWhile isSpace = text
  refine ⟨by simp only [List.length_take]; omega, fun c member => ?_⟩
  have inside : c ∈ text.take (text.takeWhile (!isSpace ·)).length :=
    List.take_subset_take_left _ (Nat.min_le_right _ _) member
  rw [← List.prefix_iff_eq_take.mp (List.takeWhile_prefix _)] at inside
  simpa using List.mem_takeWhile_imp inside

/-- An empty item means the end of the input, where `scanf` stores nothing. -/
def Scanned.ofItem {width : Nat} (item : List UInt8) (bound : item.length ≤ width)
    (solid : ∀ c ∈ item, isSpace c = false) : Option (Scanned width) :=
  if nonempty : item ≠ [] then some ⟨item, nonempty, bound, solid⟩ else none

/-- `scanf` with `%s` and a width: `none` at the end of the input. What exceeds
the width stays in the input as a word of its own. -/
def scanString (width : Nat) (input : List UInt8) : Option (Scanned width) × List UInt8 :=
  (Scanned.ofItem ((stringItem width).take input).1 (stringItem_take width input).1 (stringItem_take width input).2,
    ((stringItem width).take input).2)

/-- The digits that `%lu` and `%d` need: `none` when there are none. Then the
sign has been consumed all the same. -/
def scanNumber (input : List UInt8) : Option (List UInt8) × List UInt8 :=
  let (item, rest) := numberItem.take input
  (if item.drop (signLength item) = [] then none else some item, rest)

/-- `scanf` with `%lu`, converted as by `strtoul`, which is `strtoull` where
`long` has 64 bits. -/
def scanUnsigned (input : List UInt8) : Option UInt64 × List UInt8 :=
  let (item, rest) := scanNumber input
  (item.map strtoull, rest)

/-- `scanf` with `%d`, converted as by `strtol` and a cast, as glibc does. -/
def scanInt (input : List UInt8) : Option Int32 × List UInt8 :=
  let (item, rest) := scanNumber input
  (item.map fun item => (strtol item).toInt32, rest)

/-! ## Commands -/

/-- What the menu is told to do. `abandoned` stands for the returns where
`scanf` fails. -/
inductive Command where
  | mine
  | send (receiver : Token) (amount fee : UInt64)
  | chainPrint
  | walletInfo
  | connect (host : Scanned 255) (port : UInt16)
  | networkStatus
  | mempool
  | unknown
  | abandoned

/-- `if (scanf(...) != 1) return;` in front of what follows. -/
def orReturn {Item : Type} (scan : List UInt8 → Option Item × List UInt8)
    (next : Item → List UInt8 → Command × List UInt8) (input : List UInt8) : Command × List UInt8 :=
  match scan input with
  | (none, rest) => (.abandoned, rest)
  | (some item, rest) => next item rest

/-- The input of `do_send`: receiver, amount and fee. Where one is missing the
function returns. -/
def readSend : List UInt8 → Command × List UInt8 :=
  orReturn (scanString 64) fun receiver => orReturn scanUnsigned fun amount => orReturn scanUnsigned fun fee rest =>
    (.send ⟨receiver.bytes, receiver.nonempty, receiver.bound, receiver.solid⟩ amount fee, rest)

/-- The input of `do_connect_peer`: host and port. The port is cut to 16
bits. -/
def readConnect : List UInt8 → Command × List UInt8 :=
  orReturn (scanString 255) fun host => orReturn scanInt fun port rest =>
    (.connect host port.toUInt32.toUInt16, rest)

/-- One pass of the main loop up to the effect of the command: `none` where the
loop is left. -/
def readCommand (input : List UInt8) : Option (Command × List UInt8) :=
  match scanString 15 input with
  | (none, _) => none
  | (some choice, rest) =>
    let choice := cstr choice.bytes
    if choice = ascii "1" then some (.mine, rest)
    else if choice = ascii "2" then some (readSend rest)
    else if choice = ascii "3" then some (.chainPrint, rest)
    else if choice = ascii "4" then some (.walletInfo, rest)
    else if choice = ascii "5" then some (readConnect rest)
    else if choice = ascii "6" then some (.networkStatus, rest)
    else if choice = ascii "7" then some (.mempool, rest)
    else if choice = ascii "q" ∨ choice = ascii "Q" then none
    else some (.unknown, rest)

/-! ## What is typed -/

/-- Texts that differ in their blanks only. No reader of `scanf` items can tell
them apart. -/
def SameWords (one other : List UInt8) : Prop := wordsOf isSpace one = wordsOf isSpace other

/-- Two results of a reader that sees the words only. -/
def Alike {Item : Type} (one other : Item × List UInt8) : Prop := one.1 = other.1 ∧ SameWords one.2 other.2

/-- A reader of items sees the words of its input and not the blanks between
them. -/
theorem Reader.alike (reader : Reader isSpace) {one other : List UInt8} (same : SameWords one other) :
    Alike (reader.take one) (reader.take other) := by
  obtain ⟨oneItem, oneRest⟩ := reader.take_words one
  obtain ⟨otherItem, otherRest⟩ := reader.take_words other
  rw [SameWords] at same
  rw [same] at oneItem oneRest
  exact ⟨oneItem.trans otherItem.symm, oneRest.trans otherRest.symm⟩

/-- So does `%s`. -/
theorem scanString_alike (width : Nat) {one other : List UInt8} (same : SameWords one other) :
    Alike (scanString width one) (scanString width other) := by
  obtain ⟨item, rest⟩ := Reader.alike (stringItem width) same
  refine ⟨?_, rest⟩
  simp only [scanString, item]

/-- So do the digits of a number. -/
theorem scanNumber_alike {one other : List UInt8} (same : SameWords one other) :
    Alike (scanNumber one) (scanNumber other) := by
  obtain ⟨item, rest⟩ := Reader.alike numberItem same
  refine ⟨?_, rest⟩
  simp only [scanNumber, item]

/-- So does `%lu`. -/
theorem scanUnsigned_alike {one other : List UInt8} (same : SameWords one other) :
    Alike (scanUnsigned one) (scanUnsigned other) := by
  obtain ⟨item, rest⟩ := scanNumber_alike same
  exact ⟨congrArg (Option.map strtoull) item, rest⟩

/-- So does `%d`. -/
theorem scanInt_alike {one other : List UInt8} (same : SameWords one other) :
    Alike (scanInt one) (scanInt other) := by
  obtain ⟨item, rest⟩ := scanNumber_alike same
  exact ⟨congrArg (Option.map fun item => (strtol item).toInt32) item, rest⟩

/-- And so does a sequence of reads, whether it is abandoned or not. -/
theorem orReturn_alike {Item : Type} {scan : List UInt8 → Option Item × List UInt8}
    {next : Item → List UInt8 → Command × List UInt8}
    (scans : ∀ {one other}, SameWords one other → Alike (scan one) (scan other))
    (follows : ∀ item {one other}, SameWords one other → Alike (next item one) (next item other))
    {one other : List UInt8} (same : SameWords one other) :
    Alike (orReturn scan next one) (orReturn scan next other) := by
  have items := scans same
  unfold orReturn
  generalize scan one = first at items ⊢
  generalize scan other = second at items ⊢
  obtain ⟨item, oneRest⟩ := first
  obtain ⟨otherItem, otherRest⟩ := second
  obtain ⟨rfl, same⟩ := items
  cases item with
  | none => exact ⟨rfl, same⟩
  | some item => exact follows item same

/-- The input of a payment: three items. -/
theorem readSend_alike {one other : List UInt8} (same : SameWords one other) :
    Alike (readSend one) (readSend other) := by
  unfold readSend
  refine orReturn_alike (scanString_alike 64) (fun receiver _ _ same => ?_) same
  refine orReturn_alike scanUnsigned_alike (fun amount _ _ same => ?_) same
  exact orReturn_alike scanUnsigned_alike (fun fee _ _ same => ⟨rfl, same⟩) same

/-- The input of a connection: two items. -/
theorem readConnect_alike {one other : List UInt8} (same : SameWords one other) :
    Alike (readConnect one) (readConnect other) := by
  unfold readConnect
  refine orReturn_alike (scanString_alike 255) (fun host _ _ same => ?_) same
  exact orReturn_alike scanInt_alike (fun port _ _ same => ⟨rfl, same⟩) same

/-- Two passes of the main loop that read the same command or none. -/
def BothAlike (one other : Option (Command × List UInt8)) : Prop :=
  (one = none ∧ other = none) ∨ ∃ first second, one = some first ∧ other = some second ∧ Alike first second

/-- A comparison of the choice takes both passes into the same branch. -/
theorem BothAlike.ite {one two other another : Option (Command × List UInt8)} (condition : Prop) [Decidable condition]
    (yes : BothAlike one other) (no : BothAlike two another) :
    BothAlike (if condition then one else two) (if condition then other else another) := by
  split
  · exact yes
  · exact no

/-- Two passes over texts that differ in their blanks only. -/
theorem readCommand_alike {one other : List UInt8} (same : SameWords one other) :
    BothAlike (readCommand one) (readCommand other) := by
  have choices := scanString_alike 15 same
  unfold readCommand
  generalize scanString 15 one = first at choices ⊢
  generalize scanString 15 other = second at choices ⊢
  obtain ⟨choice, oneRest⟩ := first
  obtain ⟨otherChoice, otherRest⟩ := second
  obtain ⟨rfl, same⟩ := choices
  cases choice with
  | none => exact Or.inl ⟨rfl, rfl⟩
  | some choice =>
    have plain (command : Command) : BothAlike (some (command, oneRest)) (some (command, otherRest)) :=
      Or.inr ⟨_, _, rfl, rfl, rfl, same⟩
    have sends : BothAlike (some (readSend oneRest)) (some (readSend otherRest)) :=
      Or.inr ⟨_, _, rfl, rfl, readSend_alike same⟩
    have connects : BothAlike (some (readConnect oneRest)) (some (readConnect otherRest)) :=
      Or.inr ⟨_, _, rfl, rfl, readConnect_alike same⟩
    refine .ite _ (plain _) (.ite _ sends (.ite _ (plain _) (.ite _ (plain _) (.ite _ connects ?_))))
    exact .ite _ (plain _) (.ite _ (plain _) (.ite _ (Or.inl ⟨rfl, rfl⟩) (plain _)))

/-! ## The commands of a session -/

/-- No read gives back more than it was given. -/
theorem orReturn_length {Item : Type} {scan : List UInt8 → Option Item × List UInt8}
    {next : Item → List UInt8 → Command × List UInt8}
    (scans : ∀ input, (scan input).2.length ≤ input.length)
    (follows : ∀ item input, (next item input).2.length ≤ input.length) (input : List UInt8) :
    (orReturn scan next input).2.length ≤ input.length := by
  have first := scans input
  unfold orReturn
  generalize scan input = result at first ⊢
  obtain ⟨item, rest⟩ := result
  cases item with
  | none => exact first
  | some item => exact (follows item rest).trans first

/-- `%s` only takes from the front. -/
theorem scanString_length (width : Nat) (input : List UInt8) : (scanString width input).2.length ≤ input.length :=
  Nat.le_of_add_right_le ((stringItem width).take_length input)

/-- So does `%lu`. -/
theorem scanUnsigned_length (input : List UInt8) : (scanUnsigned input).2.length ≤ input.length :=
  Nat.le_of_add_right_le (numberItem.take_length input)

/-- So does `%d`. -/
theorem scanInt_length (input : List UInt8) : (scanInt input).2.length ≤ input.length :=
  Nat.le_of_add_right_le (numberItem.take_length input)

/-- A pass of the main loop leaves less than that. -/
def LeavesBelow (limit : Nat) (result : Option (Command × List UInt8)) : Prop :=
  ∀ command rest, result = some (command, rest) → rest.length < limit

/-- A branch leaves less if both sides do. The main loop ends because of
this. -/
theorem LeavesBelow.ite {limit : Nat} {one other : Option (Command × List UInt8)} (condition : Prop)
    [Decidable condition] (yes : LeavesBelow limit one) (no : LeavesBelow limit other) :
    LeavesBelow limit (if condition then one else other) := by
  split
  · exact yes
  · exact no

/-- Every pass of the main loop reads something. -/
theorem readCommand_length (input : List UInt8) : LeavesBelow input.length (readCommand input) := by
  have taken := (stringItem 15).take_length input
  have shorter (choice : Scanned 15) (first : (scanString 15 input).1 = some choice) :
      (scanString 15 input).2.length < input.length := by
    have visible : ((stringItem 15).take input).1 ≠ [] := by
      intro empty
      simp [scanString, Scanned.ofItem, empty] at first
    have positive := List.length_pos_iff.mpr visible
    change ((stringItem 15).take input).2.length < _
    omega
  unfold readCommand
  generalize scanString 15 input = result at shorter ⊢
  obtain ⟨choice, behind⟩ := result
  cases choice with
  | none => rintro command rest ⟨⟩
  | some choice =>
    have left := shorter choice rfl
    have leaves (result : Command × List UInt8) (fewer : result.2.length ≤ behind.length) :
        LeavesBelow input.length (some result) := by
      rintro command rest same
      obtain rfl := Option.some.inj same
      exact Nat.lt_of_le_of_lt fewer left
    have plain (command : Command) : LeavesBelow input.length (some (command, behind)) :=
      leaves (command, behind) (Nat.le_refl _)
    have sends : LeavesBelow input.length (some (readSend behind)) := by
      refine leaves _ (orReturn_length (scanString_length 64) (fun _ => ?_) behind)
      exact orReturn_length scanUnsigned_length fun _ => orReturn_length scanUnsigned_length fun _ _ => Nat.le_refl _
    have connects : LeavesBelow input.length (some (readConnect behind)) := by
      refine leaves _ (orReturn_length (scanString_length 255) (fun _ => ?_) behind)
      exact orReturn_length scanInt_length fun _ _ => Nat.le_refl _
    have ends : LeavesBelow input.length none := by rintro command rest ⟨⟩
    refine .ite _ (plain _) (.ite _ sends (.ite _ (plain _) (.ite _ (plain _) (.ite _ connects ?_))))
    exact .ite _ (plain _) (.ite _ (plain _) (.ite _ ends (plain _)))

/-- The commands in an input, in order. The recursion ends because each command
takes something from the input. -/
def script (input : List UInt8) : List Command :=
  match reads : readCommand input with
  | none => []
  | some (command, rest) =>
    have _shorter := readCommand_length input command rest reads
    command :: script rest
termination_by input.length

/-- The script ends where the loop is left. -/
theorem script_none (input : List UInt8) (reads : readCommand input = none) : script input = [] := by
  rw [script]
  split
  · rfl
  · next found => simp [reads] at found

/-- Otherwise it is the command that was read and the script of the rest. -/
theorem script_some (input rest : List UInt8) (command : Command) (reads : readCommand input = some (command, rest)) :
    script input = command :: script rest := by
  rw [script]
  split
  · next found => simp [reads] at found
  · next found =>
    obtain ⟨rfl, rfl⟩ := Prod.mk.inj (Option.some.inj (reads.symm.trans found))
    rfl

/-- Blanks make no difference. -/
theorem script_alike (one other : List UInt8) (same : SameWords one other) : script one = script other := by
  induction size : one.length using Nat.strong_induction_on generalizing one other with
  | _ count ih =>
    rcases readCommand_alike same with ⟨first, second⟩ | ⟨⟨command, oneRest⟩, ⟨_, otherRest⟩, first, second, rfl, rests⟩
    · rw [script_none one first, script_none other second]
    · rw [script_some one oneRest _ first, script_some other otherRest _ second]
      exact congrArg _ (ih oneRest.length (size ▸ readCommand_length _ _ _ first) oneRest otherRest rests rfl)

/-! ## Commands as they are typed -/

/-- The words of a command: the choice and what is asked for then. -/
def Command.words : Command → List (List UInt8)
  | .mine => [ascii "1"]
  | .send receiver amount fee => [ascii "2", receiver.bytes, decimal amount.toNat, decimal fee.toNat]
  | .chainPrint => [ascii "3"]
  | .walletInfo => [ascii "4"]
  | .connect host port => [ascii "5", host.bytes, decimal port.toNat]
  | .networkStatus => [ascii "6"]
  | .mempool => [ascii "7"]
  | .unknown | .abandoned => []

/-- A word of the input that fits the width is read whole. -/
theorem scanString_typed {width : Nat} (word : Scanned width) (rest : List (List UInt8)) (input : List UInt8)
    (typed : wordsOf isSpace input = word.bytes :: rest) :
    (scanString width input).1 = some word ∧ wordsOf isSpace (scanString width input).2 = rest := by
  obtain ⟨item, left⟩ := (stringItem width).take_words input
  have whole : (stringItem width).count word.bytes = word.bytes.length := by
    have kept : word.bytes.takeWhile (!isSpace ·) = word.bytes :=
      List.takeWhile_eq_self_iff.mpr fun c member => by simp [word.solid c member]
    simp only [stringItem, kept]
    exact Nat.min_eq_right word.bound
  rw [typed, Reader.takeWord, whole] at item left
  constructor
  · simp only [scanString, item, List.take_length, Scanned.ofItem, ne_eq, word.nonempty, not_false_eq_true, dite_true]
  · rw [cut, if_pos (Nat.le_refl _)] at left
    exact left

/-- A decimal number is one word of digits, and is read whole. -/
theorem scanNumber_typed (n : Nat) (rest : List (List UInt8)) (input : List UInt8)
    (typed : wordsOf isSpace input = decimal n :: rest) :
    (scanNumber input).1 = some (decimal n) ∧ wordsOf isSpace (scanNumber input).2 = rest := by
  obtain ⟨item, left⟩ := numberItem.take_words input
  have unsigned : signLength (decimal n) = 0 := by
    have digit := decimal_head n []
    rw [List.append_nil] at digit
    cases printed : decimal n with
    | nil => rfl
    | cons c others =>
      have isDigit : isDigit c = true := digit c (by simp [printed])
      unfold signLength
      split
      · next same =>
        obtain ⟨rfl, -⟩ := List.cons.inj same
        cases isDigit
      · next same =>
        obtain ⟨rfl, -⟩ := List.cons.inj same
        cases isDigit
      · rfl
  have whole : numberItem.count (decimal n) = (decimal n).length := by
    have kept : (decimal n).takeWhile isDigit = decimal n := List.takeWhile_eq_self_iff.mpr (decimal_digits n)
    simp only [numberItem, unsigned, List.drop_zero, kept, Nat.zero_add]
  rw [typed, Reader.takeWord, whole] at item left
  constructor
  · simp only [scanNumber, item, List.take_length, unsigned, List.drop_zero, decimal_ne_nil, if_false]
  · rw [cut, if_pos (Nat.le_refl _)] at left
    exact left

/-- And it stands for itself, as `strtoul` inverts the printing of 64 bits. -/
theorem scanUnsigned_typed (n : UInt64) (rest : List (List UInt8)) (input : List UInt8)
    (typed : wordsOf isSpace input = decimal n.toNat :: rest) :
    (scanUnsigned input).1 = some n ∧ wordsOf isSpace (scanUnsigned input).2 = rest := by
  obtain ⟨item, left⟩ := scanNumber_typed n.toNat rest input typed
  have value := strtoull_decimal n [] (by simp)
  rw [List.append_nil] at value
  exact ⟨by simp only [scanUnsigned, item, Option.map_some, value], left⟩

/-- A port is read as it was printed. -/
theorem scanInt_typed (port : UInt16) (rest : List (List UInt8)) (input : List UInt8)
    (typed : wordsOf isSpace input = decimal port.toNat :: rest) :
    (scanInt input).1.map (fun port => port.toUInt32.toUInt16) = some port ∧
      wordsOf isSpace (scanInt input).2 = rest := by
  obtain ⟨item, left⟩ := scanNumber_typed port.toNat rest input typed
  refine ⟨?_, left⟩
  have small := port.toNat_lt
  have signed : signedDecimal (Int32.ofNat port.toNat).toInt = decimal port.toNat := by
    rw [Int32.toInt_ofNat_of_lt (by omega), signedDecimal, if_neg (by omega), Int.natAbs_natCast]
  have value := strtol_signedDecimal (Int32.ofNat port.toNat) [] (by simp)
  rw [List.append_nil, signed] at value
  simp only [scanInt, item, Option.map_some, value]
  congr 1
  refine UInt16.toNat_inj.mp ?_
  simp

/-- A read that succeeds goes on to what follows. -/
theorem orReturn_typed {Item : Type} {scan : List UInt8 → Option Item × List UInt8}
    {next : Item → List UInt8 → Command × List UInt8} {item : Item} {input : List UInt8}
    (scans : (scan input).1 = some item) : orReturn scan next input = next item (scan input).2 := by
  unfold orReturn
  rw [show scan input = (some item, (scan input).2) from Prod.ext scans rfl]

/-- The words of a command are read back as that command, and the rest is left
as it is. -/
theorem readCommand_typed (command : Command) (known : command.words ≠ []) (rest : List (List UInt8))
    (input : List UInt8) (typed : wordsOf isSpace input = command.words ++ rest) :
    ∃ left, readCommand input = some (command, left) ∧ wordsOf isSpace left = rest := by
  have chosen (choice : Scanned 15) (behind : List (List UInt8))
      (typed : wordsOf isSpace input = choice.bytes :: behind) :
      scanString 15 input = (some choice, (scanString 15 input).2) ∧
        wordsOf isSpace (scanString 15 input).2 = behind := by
    obtain ⟨first, left⟩ := scanString_typed choice behind input typed
    exact ⟨Prod.ext first rfl, left⟩
  cases command with
  | mine =>
    obtain ⟨first, left⟩ := chosen ⟨ascii "1", by decide, by decide, by decide⟩ rest typed
    refine ⟨_, ?_, left⟩
    rw [readCommand, first]
    rfl
  | send receiver amount fee =>
    obtain ⟨first, left⟩ := chosen ⟨ascii "2", by decide, by decide, by decide⟩ _ typed
    obtain ⟨receivers, left⟩ := scanString_typed
      ⟨receiver.bytes, receiver.nonempty, receiver.bound, receiver.solid⟩ _ _ left
    obtain ⟨amounts, left⟩ := scanUnsigned_typed amount _ _ left
    obtain ⟨fees, left⟩ := scanUnsigned_typed fee _ _ left
    refine ⟨_, ?_, left⟩
    rw [readCommand, first]
    change some (readSend (scanString 15 input).2) = _
    rw [readSend, orReturn_typed receivers, orReturn_typed amounts, orReturn_typed fees]
  | chainPrint =>
    obtain ⟨first, left⟩ := chosen ⟨ascii "3", by decide, by decide, by decide⟩ rest typed
    refine ⟨_, ?_, left⟩
    rw [readCommand, first]
    rfl
  | walletInfo =>
    obtain ⟨first, left⟩ := chosen ⟨ascii "4", by decide, by decide, by decide⟩ rest typed
    refine ⟨_, ?_, left⟩
    rw [readCommand, first]
    rfl
  | connect host port =>
    obtain ⟨first, left⟩ := chosen ⟨ascii "5", by decide, by decide, by decide⟩ _ typed
    obtain ⟨hosts, left⟩ := scanString_typed host _ _ left
    obtain ⟨ports, left⟩ := scanInt_typed port _ _ left
    obtain ⟨read, ports, same⟩ := Option.map_eq_some_iff.mp ports
    refine ⟨_, ?_, left⟩
    rw [readCommand, first]
    change some (readConnect (scanString 15 input).2) = _
    rw [readConnect, orReturn_typed hosts, orReturn_typed ports, same]
  | networkStatus =>
    obtain ⟨first, left⟩ := chosen ⟨ascii "6", by decide, by decide, by decide⟩ rest typed
    refine ⟨_, ?_, left⟩
    rw [readCommand, first]
    rfl
  | mempool =>
    obtain ⟨first, left⟩ := chosen ⟨ascii "7", by decide, by decide, by decide⟩ rest typed
    refine ⟨_, ?_, left⟩
    rw [readCommand, first]
    rfl
  | unknown | abandoned => exact absurd rfl known

/-- Commands that are typed word by word, with any blanks, are the commands that
are carried out, and what follows them is read as if they were not there.
Numbers may be any of 64 bits. -/
theorem script_typed (commands : List Command) (known : ∀ command ∈ commands, command.words ≠ [])
    (input more : List UInt8)
    (typed : wordsOf isSpace input = commands.flatMap Command.words ++ wordsOf isSpace more) :
    script input = commands ++ script more := by
  induction commands generalizing input with
  | nil => exact script_alike input more typed
  | cons command rest ih =>
    rw [List.flatMap_cons, List.append_assoc] at typed
    obtain ⟨left, reads, words⟩ := readCommand_typed command (known command (by simp)) _ input typed
    rw [script_some input left command reads, List.cons_append,
      ih (fun other member => known other (by simp [member])) left words]

/-- Two commands in one line, and the end. The menu reads words, not lines, so
the second command need not wait for a newline. -/
theorem script_typed_here : ∃ (input : List UInt8) (commands : List Command),
    input = ascii " 1\t2 x\n7 1  q" ∧ commands.length = 2 ∧ script input = commands ++ script (ascii "q") := by
  let commands : List Command := [.mine, .send ⟨ascii "x", by decide, by decide, by decide⟩ 7 1]
  refine ⟨ascii " 1\t2 x\n7 1  q", commands, rfl, rfl, script_typed commands ?_ _ _ ?_⟩
  · simp [commands, Command.words]
  · decide +kernel

end MiniCoin
