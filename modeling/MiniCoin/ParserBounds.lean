import MiniCoin.BlockCodec
import MiniCoin.Pointers
import MiniCoin.ReadTexts

/-!
# The parsers stay inside their input

On pointers the parsers of `protocol.c` have a result for every terminated string, so no scan
reads behind the terminator and nothing is stored outside an array. What they leave in memory
shows what the parsers on byte lists return.
-/

namespace MiniCoin

open ByteStrings CheckedStrings

/-! ## Text fields -/

/-- The array holds the text and its terminator. What stands behind the
terminator is not compared. -/
def Shows {size : Nat} (cells : Vector UInt8 size) (text : CText size) : Prop :=
  cstr cells.toList = text.bytes

/-- A text is shorter than its array, so the terminator is inside. -/
theorem Shows.terminated {size : Nat} {cells : Vector UInt8 size} {text : CText size}
    (shows : Shows cells text) : 0 ∈ cells.toList := by
  by_contra missing
  have whole := cstr_eq_self _ missing
  have bound := text.bound
  rw [← show cstr cells.toList = text.bytes from shows, whole] at bound
  simp at bound

/-- An array of zeros shows the empty text, as the records are cleared before
they are filled. -/
theorem shows_empty {size : Nat} [NeZero size] : Shows (Vector.replicate size 0) (CText.empty : CText size) := by
  have positive : 0 < size := Nat.pos_of_neZero size
  obtain ⟨others, rfl⟩ := Nat.exists_eq_succ_of_ne_zero positive.ne'
  simp [Shows, CText.empty, cstr, List.replicate_succ]

/-- An array with a text and a terminator at its start. -/
theorem shows_copied {size : Nat} [NeZero size] {cells : Vector UInt8 size} {bytes : List UInt8}
    (written : cells.toList.take (bytes ++ [0]).length = bytes ++ [0]) (clean : 0 ∉ bytes)
    (fits : bytes.length ≤ size - 1) : Shows cells (CText.ofBytes bytes) := by
  have positive : 0 < size := Nat.pos_of_neZero size
  have content : cells.toList = bytes ++ 0 :: cells.toList.drop (bytes ++ [0]).length := by
    conv_lhs => rw [← List.take_append_drop (bytes ++ [0]).length cells.toList, written]
    simp
  rw [Shows, CText.ofBytes_fits bytes clean (by omega), content, cstr_terminated _ _ clean]

/-- The copy loop stops one byte before the end of its array. -/
theorem copyString_length (room : Nat) (text : List UInt8) : (copyString room text).length ≤ room := by
  fun_induction copyString room text with
  | case1 text => simp
  | case2 room => simp
  | case3 room rest => simp
  | case4 room => simp
  | case5 room d tail noQuote ih => simpa using ih
  | case6 room c rest noQuote noBackslash ih => simpa using ih

section CopyLoop

variable {size : Nat} {json : CString} {p i : Nat} {out stored : Vector UInt8 size} {c d : UInt8}
  {text rest : List UInt8}

/-- The loop ends at the terminator, at a quotation mark and when the array is
full. -/
theorem copyLoop_end (designates : json.At p text)
    (ends : text.headD 0 = 0 ∨ text.headD 0 = 34 ∨ size - 1 ≤ i) :
    Pointers.copyLoop json p i out = .ok (i, out) := by
  have stop : ¬ (text.headD 0 ≠ 0 ∧ text.headD 0 ≠ 34 ∧ i < size - 1) := by
    rintro ⟨inside, noQuote, room⟩
    rcases ends with terminator | quote | full
    · exact inside terminator
    · exact noQuote quote
    · omega
  rw [Pointers.copyLoop, designates.read]
  exact if_neg stop

/-- One byte is copied. A backslash is one if nothing stands behind it. -/
theorem copyLoop_byte (designates : json.At p (c :: rest)) (noQuote : c ≠ 34) (room : i < size - 1)
    (plain : c = 92 → rest = []) (written : store out i c = .ok stored) :
    Pointers.copyLoop json p i out = Pointers.copyLoop json (p + 1) (i + 1) stored := by
  rw [Pointers.copyLoop, designates.read]
  by_cases backslash : c = 92
  · subst backslash
    obtain rfl := plain rfl
    have terminator := designates.next.read
    simp [room, terminator, bind, Except.bind, written]
  · simp [backslash, designates.nonzero, noQuote, room, bind, Except.bind, pure, Except.pure, written]

/-- Behind a backslash the next byte is copied. -/
theorem copyLoop_escape (designates : json.At p (92 :: d :: rest)) (room : i < size - 1)
    (written : store out i d = .ok stored) :
    Pointers.copyLoop json p i out = Pointers.copyLoop json (p + 2) (i + 1) stored := by
  have next := designates.next.read
  have nonzero : d ≠ 0 := designates.next.nonzero
  rw [Pointers.copyLoop, designates.read]
  simp [room, next, nonzero, bind, Except.bind, written]

end CopyLoop

/-- The copy loop writes the bytes of the string value one after the other. -/
theorem copyLoop_exact {size : Nat} {json : CString} (room : Nat) (text : List UInt8) (p : Nat)
    (written : List UInt8) (out : Vector UInt8 size) (designates : json.At p text)
    (kept : out.toList.take written.length = written) (fits : written.length + room = size - 1) :
    ∃ copied, Pointers.copyLoop json p written.length out =
        .ok ((written ++ copyString room text).length, copied) ∧
      copied.toList.take (written ++ copyString room text).length = written ++ copyString room text := by
  fun_induction copyString room text generalizing p written out with
  | case1 text =>
    refine ⟨out, ?_, by simpa using kept⟩
    rw [List.append_nil]
    exact copyLoop_end designates (.inr (.inr (by omega)))
  | case2 room =>
    refine ⟨out, ?_, by simpa using kept⟩
    rw [List.append_nil]
    exact copyLoop_end designates (.inl rfl)
  | case3 room rest =>
    refine ⟨out, ?_, by simpa using kept⟩
    rw [List.append_nil]
    exact copyLoop_end designates (.inr (.inl rfl))
  | case4 room =>
    obtain ⟨stored, run, grown⟩ := store_next out written 92 kept (by omega)
    refine ⟨stored, ?_, grown⟩
    rw [copyLoop_byte designates (by decide) (by omega) (fun _ => rfl) run,
      copyLoop_end designates.next (.inl rfl), List.length_append, List.length_singleton]
  | case5 room d tail noQuote ih =>
    obtain ⟨stored, run, grown⟩ := store_next out written d kept (by omega)
    obtain ⟨copied, others, all⟩ := ih (p + 2) (written ++ [d]) stored designates.next.next grown
      (by simp; omega)
    rw [List.append_assoc] at others all
    refine ⟨copied, ?_, all⟩
    rw [copyLoop_escape designates (by omega) run]
    simpa using others
  | case6 room c rest noQuote noBackslash ih =>
    obtain ⟨stored, run, grown⟩ := store_next out written c kept (by omega)
    obtain ⟨copied, others, all⟩ := ih (p + 1) (written ++ [c]) stored designates.next grown
      (by simp; omega)
    rw [List.append_assoc] at others all
    refine ⟨copied, ?_, all⟩
    rw [copyLoop_byte designates noQuote (by omega) (fun same => absurd same noBackslash) run]
    simpa using others

/-! ## Fields -/

/-- Keys fit into the search array. -/
def IsKey (key : List UInt8) : Prop := key.length ≤ 100 ∧ 0 ∉ key

instance (key : List UInt8) : Decidable (IsKey key) := inferInstanceAs (Decidable (_ ∧ _))

section Fields

variable (json : CString) (key : List UInt8)

/-- The quoted key with what stands behind it is searched in full. -/
theorem strstr_key (isKey : IsKey key) (colon : List UInt8) (short : colon.length ≤ 3)
    (clean : 0 ∉ colon) :
    ∃ hit, json.strstr (snprintf 128 (34 :: (key ++ colon))) 0 = .ok hit ∧
      Option.Rel json.At hit (strstr json.bytes (34 :: (key ++ colon))) := by
  have whole : snprintf 128 (34 :: (key ++ colon)) = 34 :: (key ++ colon) := by
    apply List.take_of_length_le
    have length := isKey.1
    simp only [List.length_cons, List.length_append]
    omega
  rw [whole]
  apply CString.strstr_exact _ _ (CString.at_start json)
  simp [isKey.2, clean]

/-- The value behind the colon that follows a key. -/
def valueText (text : List UInt8) : Option (List UInt8) :=
  (strchr 58 text).map fun colon => (colon.drop 1).dropWhile fun c => c == 32 || c == 9

/-- The search in one expression: the first pattern, else the second, and the
value behind the hit. -/
theorem jsonFindKey_eq (json key : List UInt8) : jsonFindKey json key =
    ((strstr json (34 :: (key ++ [34, 58]))).or (strstr json (34 :: (key ++ [34, 32, 58])))).bind
      valueText := by
  unfold jsonFindKey
  cases strstr json (34 :: (key ++ [34, 58])) with
  | some p =>
    rw [Option.some_or, Option.bind_some, valueText]
    cases colon : strchr 58 p <;> simp [colon]
  | none =>
    rw [Option.none_or]
    cases strstr json (34 :: (key ++ [34, 32, 58])) with
    | none => rfl
    | some p =>
      rw [Option.bind_some, valueText]
      cases colon : strchr 58 p <;> simp [colon]

/-- With a hit, the pointers go to the colon and over blanks, and never over the
terminator. -/
theorem valueBehind_exact {json : CString} {p : Nat} {text : List UInt8} (designates : json.At p text) :
    ∃ value, Pointers.valueBehind json p = .ok value ∧
      Option.Rel json.At value (valueText text) := by
  obtain ⟨hit, run, found⟩ := CString.strchr_exact 58 (by decide) designates
  rw [Pointers.valueBehind, valueText, run]
  cases here : strchr 58 text with
  | none =>
    rw [here] at found
    cases found
    exact ⟨none, rfl, Option.Rel.none⟩
  | some colon =>
    obtain ⟨rest, rfl, -⟩ := strchr_some 58 text colon here
    rw [here] at found
    cases found with
    | some stands =>
      obtain ⟨value, blanks, end_⟩ := CString.skipWhile_exact (fun c => c == 32 || c == 9) (by decide)
        stands.next
      refine ⟨some value, ?_, Option.Rel.some end_⟩
      simp only [bind, Except.bind, blanks]
      rfl

/-- So the search with pointers stays inside the string and finds what the
search on lists finds. -/
theorem jsonFindKey_exact (isKey : IsKey key) : ∃ p, Pointers.jsonFindKey json key = .ok p ∧
    Option.Rel json.At p (jsonFindKey json.bytes key) := by
  obtain ⟨first, firstRun, firstHit⟩ := strstr_key json key isKey [34, 58] (by decide) (by decide)
  obtain ⟨second, secondRun, secondHit⟩ := strstr_key json key isKey [34, 32, 58] (by decide) (by decide)
  rw [Pointers.jsonFindKey, jsonFindKey_eq, firstRun]
  generalize strstr json.bytes (34 :: (key ++ [34, 58])) = firstText at firstHit ⊢
  cases firstHit with
  | some stands => exact valueBehind_exact stands
  | none =>
    simp only [bind, Except.bind, secondRun]
    generalize strstr json.bytes (34 :: (key ++ [34, 32, 58])) = secondText at secondHit ⊢
    cases secondHit with
    | some stands => exact valueBehind_exact stands
    | none => exact ⟨none, rfl, Option.Rel.none⟩

/-- A field is copied into its array, with a terminator. -/
theorem jsonGetString_exact {size : Nat} [NeZero size] (isKey : IsKey key) (out : Vector UInt8 size) :
    ∃ cells, Pointers.jsonGetString json key out = .ok cells ∧
      Option.Rel Shows cells (jsonGetString size json.bytes key) := by
  have positive : 0 < size := Nat.pos_of_neZero size
  obtain ⟨p, run, found⟩ := jsonFindKey_exact json key isKey
  rw [Pointers.jsonGetString, jsonGetString, run]
  generalize jsonFindKey json.bytes key = value at found ⊢
  cases found with
  | none => exact ⟨none, rfl, Option.Rel.none⟩
  | @some p text stands =>
    cases text with
    | nil => exact ⟨none, by simp [bind, Except.bind, stands.read, pure, Except.pure], Option.Rel.none⟩
    | cons c rest =>
      by_cases quote : c = 34
      · subst quote
        obtain ⟨copied, copyRun, kept⟩ := copyLoop_exact (size - 1) rest (p + 1) [] out stands.next rfl
          (by simp)
        rw [List.nil_append] at copyRun kept
        have length := copyString_length (size - 1) rest
        obtain ⟨cells, storeRun, all⟩ := store_next copied (copyString (size - 1) rest) 0 kept (by omega)
        refine ⟨some cells, ?_, Option.Rel.some (shows_copied all ?_ length)⟩
        · rw [List.length_nil] at copyRun
          simp [bind, Except.bind, stands.read, copyRun, storeRun, pure, Except.pure]
        · exact fun member => stands.next.clean (copyString_subset _ _ member)
      · refine ⟨none, by simp [bind, Except.bind, stands.read, quote, pure, Except.pure], ?_⟩
        have noString : ∀ tail, c :: rest ≠ 34 :: tail := fun tail same => quote (List.cons.inj same).1
        simp [noString]

/-- An unsigned number is read inside the string, up to its terminator at
most. -/
theorem jsonGetUint64_exact (isKey : IsKey key) :
    Pointers.jsonGetUint64 json key = .ok (jsonGetUint64 json.bytes key) := by
  obtain ⟨p, run, found⟩ := jsonFindKey_exact json key isKey
  rw [Pointers.jsonGetUint64, jsonGetUint64, run]
  generalize jsonFindKey json.bytes key = value at found ⊢
  cases found with
  | none => rfl
  | some stands =>
    simp only [bind, Except.bind, CString.strtoull_exact stands]
    rfl

/-- So is a signed one. -/
theorem jsonGetInt_exact (isKey : IsKey key) :
    Pointers.jsonGetInt json key = .ok (jsonGetInt json.bytes key) := by
  obtain ⟨p, run, found⟩ := jsonFindKey_exact json key isKey
  rw [Pointers.jsonGetInt, jsonGetInt, run]
  generalize jsonFindKey json.bytes key = value at found ⊢
  cases found with
  | none => rfl
  | some stands =>
    simp only [bind, Except.bind, CString.strtol_exact stands]
    rfl

end Fields

/-! ## Transactions -/

/-- The record in memory shows the transaction. Behind the terminators the
arrays may hold anything. -/
structure TxShows (cells : Pointers.TxCells) (tx : Tx) : Prop where
  sender : Shows cells.sender tx.sender
  receiver : Shows cells.receiver tx.receiver
  amount : cells.amount = tx.amount
  fee : cells.fee = tx.fee
  signature : Shows cells.signature tx.signature
  txHash : Shows cells.txHash tx.txHash

/-- A cleared record shows the zero transaction. -/
theorem txShows_zero : TxShows Pointers.TxCells.zero Tx.zero :=
  ⟨shows_empty, shows_empty, rfl, rfl, shows_empty, shows_empty⟩

/-- Every array of a record that shows a transaction has its terminator. -/
theorem TxShows.terminated {cells : Pointers.TxCells} {tx : Tx} (shows : TxShows cells tx) :
    cells.Terminated :=
  ⟨shows.sender.terminated, shows.receiver.terminated, shows.signature.terminated,
    shows.txHash.terminated⟩

/-- An optional field that is missing leaves its array as it is. -/
theorem shows_getD {size : Nat} {found : Option (Vector UInt8 size)} {value : Option (CText size)}
    {cells : Vector UInt8 size} {text : CText size} (read : Option.Rel Shows found value)
    (before : Shows cells text) : Shows (found.getD cells) (value.getD text) := by
  cases read with
  | some shows => exact shows
  | none => exact before

/-- The parser of transactions stays inside its string and its record, and what
it leaves in the record is what the parser on lists returns, also where it fails
half-way. -/
theorem protocolDeserializeTx_exact (json : CString) :
    ∃ cells, Pointers.protocolDeserializeTx json = .ok ((protocolDeserializeTx json.bytes).1, cells) ∧
      TxShows cells (protocolDeserializeTx json.bytes).2 := by
  have zero := txShows_zero
  obtain ⟨sender, senderRun, senderShows⟩ :=
    jsonGetString_exact json (ascii "sender") (by decide) Pointers.TxCells.zero.sender
  obtain ⟨receiver, receiverRun, receiverShows⟩ :=
    jsonGetString_exact json (ascii "receiver") (by decide) Pointers.TxCells.zero.receiver
  obtain ⟨signature, signatureRun, signatureShows⟩ :=
    jsonGetString_exact json (ascii "signature") (by decide) Pointers.TxCells.zero.signature
  obtain ⟨txHash, txHashRun, txHashShows⟩ :=
    jsonGetString_exact json (ascii "tx_hash") (by decide) Pointers.TxCells.zero.txHash
  have amountRun := jsonGetUint64_exact json (ascii "amount") (by decide)
  have feeRun := jsonGetUint64_exact json (ascii "fee") (by decide)
  rw [Pointers.protocolDeserializeTx, protocolDeserializeTx]
  simp only [senderRun, bind, Except.bind]
  generalize jsonGetString addrLen json.bytes (ascii "sender") = senderText at senderShows ⊢
  cases senderShows with
  | none => exact ⟨_, rfl, zero⟩
  | some senderShows =>
  simp only [receiverRun]
  generalize jsonGetString addrLen json.bytes (ascii "receiver") = receiverText at receiverShows ⊢
  cases receiverShows with
  | none => exact ⟨_, rfl, { zero with sender := senderShows }⟩
  | some receiverShows =>
  simp only [amountRun]
  cases jsonGetUint64 json.bytes (ascii "amount") with
  | none => exact ⟨_, rfl, { zero with sender := senderShows, receiver := receiverShows }⟩
  | some amount =>
  simp only [feeRun, signatureRun, txHashRun]
  exact ⟨_, rfl, {
    sender := senderShows
    receiver := receiverShows
    amount := rfl
    fee := rfl
    signature := shows_getD signatureShows zero.signature
    txHash := shows_getD txHashShows zero.txHash }⟩

/-! ## Objects -/

/-- The do-while ends behind the object, at the terminator at the latest. -/
theorem matchBraces_exact {json : CString} {p : Nat} {text : List UInt8} (depth : Int)
    (designates : json.At p text) (nonempty : text ≠ []) :
    Pointers.matchBraces json p depth = .ok (p + (matchBraces depth text).1.length) := by
  induction text generalizing p depth with
  | nil => exact absurd rfl nonempty
  | cons c rest ih =>
    have step : (if c = 123 then depth + 1 else if c = 125 then depth - 1 else depth) =
        depth + braceWeight c := by
      unfold braceWeight
      split_ifs <;> omega
    rw [Pointers.matchBraces, designates.read_byte, matchBraces_cons]
    simp only [step]
    by_cases positive : 0 < depth + braceWeight c
    · cases rest with
      | nil => simp [positive, bind, Except.bind, designates.next.read_end]
      | cons d tail =>
        have inside : d ≠ 0 := designates.next.nonzero
        have later := ih (depth + braceWeight c) designates.next (by simp)
        simp only [positive, if_true, bind, Except.bind, designates.next.read_byte, ne_eq, inside,
          not_false_eq_true, later, reduceCtorEq, and_self, List.length_cons]
        congr 1
        omega
    · simp [positive]

/-- An object is copied into an allocation of its own, and the scan goes on
behind it. -/
theorem object_exact {json : CString} {p : Nat} {text : List UInt8} (designates : json.At p text)
    (nonempty : text ≠ []) :
    ∃ q object, Pointers.matchBraces json p 0 = .ok q ∧ json.copy p (q - p) = .ok object ∧
      object.bytes = (matchBraces 0 text).1 ∧ json.At q (matchBraces 0 text).2 := by
  have split := matchBraces_split 0 text
  have ends : json.At (p + (matchBraces 0 text).1.length) (matchBraces 0 text).2 := by
    apply CString.At.skip
    rwa [split]
  have inside : (matchBraces 0 text).1.length ≤ text.length + 1 := by
    have lengths := congrArg List.length split
    rw [List.length_append] at lengths
    omega
  obtain ⟨object, run, bytes⟩ := CString.copy_exact designates inside
  refine ⟨_, object, matchBraces_exact 0 designates nonempty, ?_, ?_, ends⟩
  · rwa [Nat.add_sub_cancel_left]
  · rw [bytes]
    exact (List.prefix_iff_eq_take.mp ⟨_, split⟩).symm

/-- The search for the next object ends without one, or the object is copied and
the scan goes on behind it. -/
theorem nextObject_exact {json : CString} {p : Nat} {text : List UInt8} (designates : json.At p text) :
    (strchr 123 text = none ∧ json.strchr 123 p = .ok none) ∨
      ∃ objStart start q object, strchr 123 text = some objStart ∧ json.strchr 123 p = .ok (some start) ∧
        Pointers.matchBraces json start 0 = .ok q ∧ json.copy start (q - start) = .ok object ∧
        object.bytes = (matchBraces 0 objStart).1 ∧ json.At q (matchBraces 0 objStart).2 := by
  obtain ⟨hit, run, found⟩ := CString.strchr_exact 123 (by decide) designates
  cases here : strchr 123 text with
  | none =>
    rw [here] at found
    cases found
    exact .inl ⟨rfl, run⟩
  | some objStart =>
    obtain ⟨rest, shape, -⟩ := strchr_some 123 text objStart here
    rw [here] at found
    cases found with
    | some stands =>
      obtain ⟨q, object, scanned, copied, bytes, behind⟩ := object_exact stands (by simp [shape])
      exact .inr ⟨objStart, _, q, object, rfl, run, scanned, copied, bytes, behind⟩

/-- The cells show the values that were stored, position by position. -/
def SlotsShow {α β : Type} {n : Nat} (shows : α → β → Prop) (cells : Vector α n) (values : List β) : Prop :=
  ∀ (i : Nat) (value : β), values[i]? = some value → ∃ cell, cells.toList[i]? = some cell ∧ shows cell value

/-- A store inside the array replaces one of the values, or none in use. -/
theorem SlotsShow.store {α β : Type} {n i : Nat} {shows : α → β → Prop} {cells : Vector α n} {cell : α}
    {values : List β} (slots : SlotsShow shows cells values) (inside : i < n) :
    ∃ written, CheckedStrings.store cells i cell = .ok written ∧
      ∀ stored : List β, (∀ value, stored[i]? = some value → shows cell value) →
        (∀ j, j ≠ i → stored[j]? = values[j]?) → SlotsShow shows written stored := by
  obtain ⟨written, run, content⟩ := store_exact cells i cell inside
  refine ⟨written, run, fun stored new others j kept found => ?_⟩
  rw [content, List.getElem?_set]
  by_cases same : i = j
  · subst same
    exact ⟨cell, by simp [inside], new kept found⟩
  · rw [if_neg same]
    exact slots j kept (by rwa [← others j (Ne.symm same)])

/-- Every cell in use shows a value. -/
theorem SlotsShow.covers {α β : Type} {n : Nat} {shows : α → β → Prop} {cells : Vector α n}
    {values : List β} (slots : SlotsShow shows cells values) (cell : α)
    (member : cell ∈ cells.toList.take values.length) : ∃ value, shows cell value := by
  obtain ⟨i, inside, rfl⟩ := List.mem_iff_getElem.mp member
  rw [List.length_take, lt_min_iff] at inside
  obtain ⟨kept, here, shown⟩ := slots i values[i] (List.getElem?_eq_getElem inside.1)
  rw [List.getElem?_eq_getElem inside.2] at here
  refine ⟨values[i], ?_⟩
  rwa [List.getElem_take, Option.some.inj here]

/-- There are never more values than cells. -/
theorem SlotsShow.length_le {α β : Type} {n : Nat} {shows : α → β → Prop} {cells : Vector α n}
    {values : List β} (slots : SlotsShow shows cells values) : values.length ≤ n := by
  by_contra more
  obtain ⟨cell, here, -⟩ := slots n values[n] (List.getElem?_eq_getElem (by omega))
  rw [List.getElem?_eq_none (by simp)] at here
  cases here

/-- A value put at the end leaves the other positions. -/
theorem getElem?_concat_other {α : Type} (values : List α) (value : α) (i : Nat)
    (other : i ≠ values.length) : (values ++ [value])[i]? = values[i]? := by
  by_cases earlier : i < values.length
  · rw [List.getElem?_append_left earlier]
  · have length : (values ++ [value]).length ≤ i := by
      rw [List.length_append, List.length_singleton]
      omega
    rw [List.getElem?_eq_none length, List.getElem?_eq_none (by omega)]

/-- One more transaction fills one more slot. -/
theorem fillSlots_append (txs : List Tx) (tx : Tx) (room : txs.length < maxTxPerBlock) :
    (fillSlots (txs ++ [tx])).toList[txs.length]? = some tx ∧
      ∀ i, i ≠ txs.length → (fillSlots (txs ++ [tx])).toList[i]? = (fillSlots txs).toList[i]? := by
  constructor
  · rw [fillSlots_getElem?, if_pos room]
    simp
  · intro i other
    rw [fillSlots_getElem?, fillSlots_getElem?]
    simp only [List.getD_eq_getElem?_getD, getElem?_concat_other txs tx i other]

/-- Cleared slots show no transactions. -/
theorem slotsShow_zero :
    SlotsShow TxShows (Vector.replicate maxTxPerBlock Pointers.TxCells.zero) (fillSlots []).toList := by
  intro i value found
  rw [fillSlots_getElem?] at found
  split at found
  · next inside =>
    obtain rfl := Option.some.inj found
    refine ⟨Pointers.TxCells.zero, ?_, txShows_zero⟩
    rw [Vector.toList_replicate, List.getElem?_replicate, if_pos inside]
  · cases found

/-- The loop over the transactions fills one slot after the other. -/
theorem transactionsLoop_exact {json : CString} {txCount : Int32} (slots : Nat) {p : Nat} {text : List UInt8}
    {cells : Vector Pointers.TxCells maxTxPerBlock} {parsed : List Tx} (designates : json.At p text)
    (shows : SlotsShow TxShows cells (fillSlots parsed).toList)
    (left : parsed.length + slots = min txCount.toInt.toNat maxTxPerBlock) :
    ∃ filled, Pointers.transactionsLoop json txCount parsed.length p cells = .ok filled ∧
      SlotsShow TxShows filled (fillSlots (parsed ++ parseTransactions slots text)).toList := by
  induction slots generalizing p text cells parsed with
  | zero =>
    have full : ¬ ((parsed.length : Int) < txCount.toInt ∧ parsed.length < maxTxPerBlock) := by omega
    refine ⟨cells, ?_, by simpa [parseTransactions] using shows⟩
    rw [Pointers.transactionsLoop, dif_neg full]
    rfl
  | succ slots ih =>
    have more : (parsed.length : Int) < txCount.toInt ∧ parsed.length < maxTxPerBlock := by omega
    rw [Pointers.transactionsLoop, dif_pos more, parseTransactions]
    rcases nextObject_exact designates with ⟨noObject, ends⟩ |
      ⟨objStart, start, q, object, here, startRun, scanned, copied, bytes, behind⟩
    · simp only [noObject, ends, bind, Except.bind]
      exact ⟨cells, rfl, by simpa using shows⟩
    · obtain ⟨tx, parseRun, txShows⟩ := protocolDeserializeTx_exact object
      rw [bytes] at parseRun txShows
      obtain ⟨slot, others⟩ := fillSlots_append parsed
        (protocolDeserializeTx (matchBraces 0 objStart).1).2 more.2
      obtain ⟨written, storeRun, stored⟩ := shows.store more.2
      have grown := stored _ (fun value found => Option.some.inj (slot.symm.trans found) ▸ txShows) others
      obtain ⟨filled, run, all⟩ := ih behind grown (by rw [List.length_append, List.length_singleton]; omega)
      refine ⟨filled, ?_, ?_⟩
      · simpa [startRun, bind, Except.bind, scanned, copied, parseRun, storeRun] using run
      · simpa [here] using all

/-! ## Blocks -/

/-- The record in memory shows the block, slot by slot. -/
structure BlockShows (cells : Pointers.BlockCells) (block : Block) : Prop where
  index : cells.index = block.index
  timestamp : cells.timestamp = block.timestamp
  transactions : SlotsShow TxShows cells.transactions block.transactions.toList
  txCount : cells.txCount = block.txCount
  prevHash : Shows cells.prevHash block.prevHash
  nonce : cells.nonce = block.nonce
  hash : Shows cells.hash block.hash

/-- The transactions that `protocol_deserialize_block` finds. -/
def foundTransactions (json : List UInt8) (txCount : Int32) : List Tx :=
  match jsonFindKey json (ascii "transactions") with
  | some (91 :: txsStart) => parseTransactions (min txCount.toInt.toNat maxTxPerBlock) txsStart
  | _ => []

/-- The transactions of a block go into their slots and not beyond: the loop is
bounded by the count and by the number of slots, whatever the text says. -/
theorem blockTransactions_exact (json : CString) (txCount : Int32)
    {cells : Vector Pointers.TxCells maxTxPerBlock} (zero : SlotsShow TxShows cells (fillSlots []).toList) :
    ∃ filled, Pointers.blockTransactions json txCount cells = .ok filled ∧
      SlotsShow TxShows filled (fillSlots (foundTransactions json.bytes txCount)).toList := by
  obtain ⟨start, startRun, found⟩ := jsonFindKey_exact json (ascii "transactions") (by decide)
  rw [Pointers.blockTransactions, foundTransactions]
  simp only [startRun, bind, Except.bind]
  generalize jsonFindKey json.bytes (ascii "transactions") = value at found ⊢
  cases found with
  | none => exact ⟨_, rfl, zero⟩
  | @some p text stands =>
    cases text with
    | nil =>
      simp only [stands.read_end]
      exact ⟨_, rfl, zero⟩
    | cons c rest =>
      simp only [stands.read_byte]
      by_cases bracket : c = 91
      · subst bracket
        exact transactionsLoop_exact _ stands.next zero (Nat.zero_add _)
      · rw [if_neg bracket]
        refine ⟨_, rfl, ?_⟩
        have noArray : ∀ tail, c :: rest ≠ 91 :: tail := fun tail same => bracket (List.cons.inj same).1
        simpa [noArray, bracket] using zero

/-- Every array of a block record that shows a block has its terminator. -/
theorem BlockShows.terminated {cells : Pointers.BlockCells} {block : Block}
    (shows : BlockShows cells block) : cells.Terminated := by
  refine ⟨shows.prevHash.terminated, shows.hash.terminated, fun tx member => ?_⟩
  obtain ⟨value, shown⟩ := shows.transactions.covers tx (by
    rwa [Vector.length_toList, List.take_of_length_le (by simp)])
  exact shown.terminated

/-- So has a cleared record. -/
theorem blockCells_zero_terminated : Pointers.BlockCells.zero.Terminated := by
  refine ⟨by simp [Pointers.BlockCells.zero], by simp [Pointers.BlockCells.zero], fun tx member => ?_⟩
  obtain rfl : tx = Pointers.TxCells.zero := by
    simpa [Pointers.BlockCells.zero] using member
  exact txShows_zero.terminated

/-- What was filled in, if the return code is zero. -/
def filled {α : Type} (result : Int × α) : Option α := if result.1 = 0 then some result.2 else none

/-- A return code of zero hands the record over. -/
@[simp] theorem filled_zero {α : Type} (cells : α) : filled (0, cells) = some cells := rfl

/-- Any other one does not. -/
@[simp] theorem filled_failed {α : Type} (cells : α) : filled (-1, cells) = none := rfl

/-- The parser of blocks stays inside its string and its record. If it fails,
the arrays have terminators all the same. -/
theorem protocolDeserializeBlock_exact (json : CString) :
    ∃ result, Pointers.protocolDeserializeBlock json = .ok result ∧ result.2.Terminated ∧
      Option.Rel BlockShows (filled result) (protocolDeserializeBlock json.bytes) := by
  have zero := blockCells_zero_terminated
  have indexRun := jsonGetUint64_exact json (ascii "index") (by decide)
  have timestampRun := jsonGetUint64_exact json (ascii "timestamp") (by decide)
  obtain ⟨prevHash, prevHashRun, prevHashShows⟩ :=
    jsonGetString_exact json (ascii "prev_hash") (by decide) Pointers.BlockCells.zero.prevHash
  have nonceRun := jsonGetUint64_exact json (ascii "nonce") (by decide)
  obtain ⟨hash, hashRun, hashShows⟩ :=
    jsonGetString_exact json (ascii "hash") (by decide) Pointers.BlockCells.zero.hash
  have txCountRun := jsonGetInt_exact json (ascii "tx_count") (by decide)
  rw [Pointers.protocolDeserializeBlock, protocolDeserializeBlock]
  simp only [indexRun, bind, Except.bind]
  cases jsonGetUint64 json.bytes (ascii "index") with
  | none => exact ⟨_, rfl, zero, Option.Rel.none⟩
  | some index =>
  simp only [timestampRun]
  cases jsonGetUint64 json.bytes (ascii "timestamp") with
  | none => exact ⟨_, rfl, zero, Option.Rel.none⟩
  | some timestamp =>
  simp only [prevHashRun]
  generalize jsonGetString hashHexLen json.bytes (ascii "prev_hash") = prevHashValue at prevHashShows ⊢
  cases prevHashShows with
  | none => exact ⟨_, rfl, zero, Option.Rel.none⟩
  | @some prevHash prevHashText prevHashShows =>
  simp only [nonceRun]
  cases jsonGetUint64 json.bytes (ascii "nonce") with
  | none => exact ⟨_, rfl, ⟨prevHashShows.terminated, zero.2⟩, Option.Rel.none⟩
  | some nonce =>
  simp only [hashRun]
  generalize jsonGetString hashHexLen json.bytes (ascii "hash") = hashValue at hashShows ⊢
  cases hashShows with
  | none => exact ⟨_, rfl, ⟨prevHashShows.terminated, zero.2⟩, Option.Rel.none⟩
  | @some hash hashText hashShows =>
  simp only [txCountRun]
  cases jsonGetInt json.bytes (ascii "tx_count") with
  | none =>
    exact ⟨_, rfl, ⟨prevHashShows.terminated, hashShows.terminated, zero.2.2⟩, Option.Rel.none⟩
  | some txCount =>
  obtain ⟨slots, slotsRun, slotsShow⟩ := blockTransactions_exact json txCount slotsShow_zero
  have shows : BlockShows
      ⟨index.toUInt32, timestamp.toInt64, slots, txCount, prevHash, nonce, hash⟩
      ⟨index.toUInt32, timestamp.toInt64, fillSlots (foundTransactions json.bytes txCount), txCount,
        prevHashText, nonce, hashText⟩ :=
    ⟨rfl, rfl, slotsShow, rfl, prevHashShows, rfl, hashShows⟩
  refine ⟨(0, ⟨index.toUInt32, timestamp.toInt64, slots, txCount, prevHash, nonce, hash⟩), ?_,
    shows.terminated, Option.Rel.some shows⟩
  simp only [Pointers.BlockCells.zero, slotsRun]
  rfl

/-! ## Chains -/

/-- The blocks in use show the chain. Those behind them keep what was there
before, which may be anything. -/
structure ChainShows (cells : Pointers.ChainCells) (chain : Blockchain) : Prop where
  length : cells.length = chain.length
  blocks : SlotsShow BlockShows cells.blocks chain

/-- So have those of a chain record that shows a chain. -/
theorem ChainShows.terminated {cells : Pointers.ChainCells} {chain : Blockchain}
    (shows : ChainShows cells chain) : cells.Terminated := by
  refine ⟨shows.length.trans_le shows.blocks.length_le, fun block member => ?_⟩
  rw [shows.length] at member
  obtain ⟨value, shown⟩ := shows.blocks.covers block member
  exact shown.terminated

/-- The loop over the blocks fills one slot after the other, below the length
that was checked. -/
theorem blocksLoop_exact {json : CString} {length : Int32} (fits : length.toInt ≤ maxBlocks) (slots : Nat)
    {p : Nat} {text : List UInt8} {cells : Pointers.ChainCells} {parsed : Blockchain}
    (designates : json.At p text) (shows : ChainShows cells parsed)
    (left : parsed.length + slots = length.toInt.toNat) :
    ∃ result, Pointers.blocksLoop json length parsed.length p cells = .ok result ∧
      result.2.Terminated ∧
      Option.Rel ChainShows (filled result) ((parseBlocks slots text).map (parsed ++ ·)) := by
  induction slots generalizing p text cells parsed with
  | zero =>
    have full : ¬ (parsed.length : Int) < length.toInt := by omega
    refine ⟨(0, cells), ?_, shows.terminated, by simpa [parseBlocks] using Option.Rel.some shows⟩
    rw [Pointers.blocksLoop, dif_neg full]
    rfl
  | succ slots ih =>
    have more : (parsed.length : Int) < length.toInt := by omega
    rw [Pointers.blocksLoop, dif_pos more, parseBlocks]
    rcases nextObject_exact designates with ⟨noObject, ends⟩ |
      ⟨objStart, start, q, object, here, startRun, scanned, copied, bytes, behind⟩
    · simp only [noObject, ends, bind, Except.bind]
      exact ⟨(0, cells), rfl, shows.terminated, by simpa using Option.Rel.some shows⟩
    · obtain ⟨result, parseRun, -, blockShows⟩ := protocolDeserializeBlock_exact object
      rw [bytes] at blockShows
      obtain ⟨written, storeRun, stored⟩ :=
        shows.blocks.store (show parsed.length < maxBlocks by omega)
      simp only [here, startRun, bind, Except.bind, scanned, copied, parseRun]
      rw [storeRun]
      by_cases failed : result.1 = 0
      · rw [filled, if_pos failed] at blockShows
        generalize protocolDeserializeBlock (matchBraces 0 objStart).1 = value at blockShows ⊢
        cases blockShows with
        | @some _ block blockShows =>
          have grown : ChainShows ⟨written, cells.length + 1⟩ (parsed ++ [block]) := by
            refine ⟨by simp [shows.length], stored _ (fun value found => ?_)
              (getElem?_concat_other parsed block)⟩
            obtain rfl : block = value := by simpa using found
            exact blockShows
          obtain ⟨later, run, ends, all⟩ := ih behind grown
            (by rw [List.length_append, List.length_singleton]; omega)
          refine ⟨later, ?_, ends, ?_⟩
          · simpa [failed] using run
          · simpa [Function.comp_def] using all
      · rw [filled, if_neg failed] at blockShows
        generalize protocolDeserializeBlock (matchBraces 0 objStart).1 = value at blockShows ⊢
        cases blockShows
        have kept : ChainShows { cells with blocks := written } parsed := by
          refine ⟨shows.length, stored _ (fun value found => ?_) fun _ _ => rfl⟩
          rw [List.getElem?_eq_none le_rfl] at found
          cases found
        exact ⟨(-1, _), by simp [failed, pure, Except.pure], kept.terminated, Option.Rel.none⟩

/-- The parser of chains stays inside as well. It refuses a length beyond its
array before it writes anything. -/
theorem protocolDeserializeChain_exact (json : CString) (before : Pointers.ChainCells) :
    ∃ result, Pointers.protocolDeserializeChain json before = .ok result ∧
      (result = (-1, before) ∨ result.2.Terminated) ∧
      Option.Rel ChainShows (filled result) (protocolDeserializeChain json.bytes) := by
  have lengthRun := jsonGetInt_exact json (ascii "length") (by decide)
  obtain ⟨start, startRun, found⟩ := jsonFindKey_exact json (ascii "blocks") (by decide)
  rw [Pointers.protocolDeserializeChain, protocolDeserializeChain]
  simp only [lengthRun, bind, Except.bind]
  cases jsonGetInt json.bytes (ascii "length") with
  | none => exact ⟨_, rfl, .inl rfl, Option.Rel.none⟩
  | some length =>
  by_cases refused : length.toInt ≤ 0 ∨ maxBlocks < length.toInt
  · simp only [if_pos refused]
    exact ⟨_, rfl, .inl rfl, Option.Rel.none⟩
  · simp only [if_neg refused, startRun]
    generalize jsonFindKey json.bytes (ascii "blocks") = value at found ⊢
    cases found with
    | none => exact ⟨_, rfl, .inl rfl, Option.Rel.none⟩
    | @some p text stands =>
      cases text with
      | nil =>
        simp only [stands.read_end]
        exact ⟨_, rfl, .inl rfl, Option.Rel.none⟩
      | cons c rest =>
        simp only [stands.read_byte]
        by_cases bracket : c = 91
        · subst bracket
          have shows : ChainShows { before with length := 0 } [] :=
            ⟨rfl, fun i block listed => by simp at listed⟩
          obtain ⟨result, run, ends, all⟩ := blocksLoop_exact (by omega) length.toInt.toNat stands.next
            shows (Nat.zero_add _)
          exact ⟨result, run, .inr ends, by simpa using all⟩
        · refine ⟨(-1, before), by simp [bracket, pure, Except.pure], .inl rfl, ?_⟩
          have noArray : ∀ tail, c :: rest ≠ 91 :: tail := fun tail same => bracket (List.cons.inj same).1
          simp [noArray]

/-! ## Envelopes -/

/-- The byte in front of the current one, if the scan has passed one. -/
def Behind (json : CString) (start q : Nat) (prev : Option UInt8) : Prop :=
  (q = start ∧ prev = none) ∨ (start < q ∧ ∃ c, json.read (q - 1) = .ok c ∧ prev = some c)

/-- The look-behind of the scan reads the byte before the current one only if
there is one. -/
theorem togglesString_exact {json : CString} {start q : Nat} {prev : Option UInt8} (c : UInt8)
    (behind : Behind json start q prev) :
    Pointers.togglesString json start q c = .ok (decide (c = 34 ∧ prev ≠ some 92)) := by
  rw [Pointers.togglesString]
  by_cases quote : c = 34
  · rw [if_neg (not_not.mpr quote)]
    rcases behind with ⟨first, none⟩ | ⟨later, previous, read, passed⟩
    · simp [first, none, quote, pure, Except.pure]
    · by_cases backslash : previous = 92 <;>
        simp [later.ne', passed, quote, read, bind, Except.bind, pure, Except.pure, backslash]
  · simp [quote, pure, Except.pure]

/-- The do-while ends behind the payload, at the terminator at the latest. -/
theorem payloadLoop_exact {json : CString} {start q : Nat} {text : List UInt8} (prev : Option UInt8)
    (depth : Int) (inString : Bool) (designates : json.At q text) (nonempty : text ≠ [])
    (behind : Behind json start q prev) : Pointers.payloadLoop json start q depth inString =
      .ok (q + (scanPayload prev depth inString text).length) := by
  induction text generalizing q prev depth inString with
  | nil => exact absurd rfl nonempty
  | cons c rest ih =>
    have next : Behind json start (q + 1) (some c) := by
      refine Or.inr ⟨?_, c, designates.read_byte, rfl⟩
      rcases behind with ⟨first, -⟩ | ⟨later, -⟩ <;> omega
    -- what follows once the byte has been counted
    have tail (depth : Int) (inString : Bool) : (if 0 < depth then do
          let next ← json.read (q + 1)
          if next ≠ 0 then Pointers.payloadLoop json start (q + 1) depth inString else pure (q + 1)
        else pure (q + 1) : Checked Nat) =
        .ok (q + (if 0 < depth ∧ rest ≠ [] then c :: scanPayload (some c) depth inString rest
          else [c]).length) := by
      by_cases positive : 0 < depth
      · cases rest with
        | nil => simp [positive, bind, Except.bind, designates.next.read_end, pure, Except.pure]
        | cons d others =>
          have inside : d ≠ 0 := designates.next.nonzero
          have later := ih (some c) depth inString designates.next (by simp) next
          simp only [positive, if_true, bind, Except.bind, designates.next.read_byte, ne_eq, inside,
            not_false_eq_true, later, reduceCtorEq, and_self, List.length_cons]
          congr 1
          omega
      · simp [positive, pure, Except.pure]
    rw [Pointers.payloadLoop, designates.read_byte, scanPayload]
    simp only [bind, Except.bind, togglesString_exact c behind]
    by_cases toggles : c = 34 ∧ prev ≠ some 92
    · rw [decide_eq_true toggles]
      simp only [if_pos toggles, if_true]
      exact tail depth (!inString)
    · rw [decide_eq_false toggles]
      simp only [if_neg toggles, Bool.false_eq_true, if_false]
      exact tail _ inString

/-- The payload is the beginning of the text behind the key. -/
theorem scanPayload_take (prev : Option UInt8) (depth : Int) (inString : Bool) (text : List UInt8) :
    text.take (scanPayload prev depth inString text).length = scanPayload prev depth inString text := by
  induction text generalizing prev depth inString with
  | nil => rfl
  | cons c rest ih =>
    have either (test : Prop) [Decidable test] (later : List UInt8)
        (kept : rest.take later.length = later) :
        (c :: rest).take (if test then c :: later else [c]).length =
          if test then c :: later else [c] := by
      split
      · rw [List.length_cons, List.take_succ_cons, kept]
      · rfl
    exact either _ _ (ih _ _ _)

/-- The payload is a copy of bytes of the message. An empty one is a copy of the
terminator. -/
theorem payload_exact {json : CString} {start : Nat} {text : List UInt8} (designates : json.At start text) :
    ∃ q payload, Pointers.payloadLoop json start start 0 false = .ok q ∧
      json.copy start (q - start) = .ok payload ∧ payload.bytes = scanPayload none 0 false text := by
  cases text with
  | nil =>
    obtain ⟨payload, copied, bytes⟩ :=
      CString.copy_exact designates (show 1 ≤ ([] : List UInt8).length + 1 from le_rfl)
    refine ⟨start + 1, payload, ?_, by rwa [Nat.add_sub_cancel_left], bytes⟩
    rw [Pointers.payloadLoop, designates.read_end]
    rfl
  | cons c rest =>
    have scanned := payloadLoop_exact none 0 false designates (by simp) (.inl ⟨rfl, rfl⟩)
    have taken := scanPayload_take none 0 false (c :: rest)
    have inside : (scanPayload none 0 false (c :: rest)).length ≤ (c :: rest).length + 1 := by
      rw [← taken, List.length_take]
      omega
    obtain ⟨payload, copied, bytes⟩ := CString.copy_exact designates inside
    exact ⟨_, payload, scanned, by rwa [Nat.add_sub_cancel_left], bytes.trans taken⟩

/-- The parser of envelopes copies the payload and its terminator into a buffer
that it has measured. -/
theorem protocolParseMsg_exact (json : CString) :
    ∃ payload, Pointers.protocolParseMsg json = .ok ((protocolParseMsg json.bytes).1, payload) ∧
      payload.map CString.bytes = (protocolParseMsg json.bytes).2 := by
  have typeRun := jsonGetInt_exact json (ascii "type") (by decide)
  obtain ⟨start, startRun, found⟩ := jsonFindKey_exact json (ascii "payload") (by decide)
  rw [Pointers.protocolParseMsg, protocolParseMsg]
  simp only [typeRun, bind, Except.bind]
  cases jsonGetInt json.bytes (ascii "type") with
  | none => exact ⟨none, rfl, rfl⟩
  | some type =>
  simp only [startRun]
  generalize jsonFindKey json.bytes (ascii "payload") = value at found ⊢
  cases found with
  | none => exact ⟨none, rfl, rfl⟩
  | some stands =>
    obtain ⟨q, payload, scanned, copied, bytes⟩ := payload_exact stands
    refine ⟨some payload, ?_, by simp [bytes]⟩
    simp only [scanned, copied]
    rfl

/-! ## No faults -/

/-- Whatever the message, the parsers of its payload have a result, with
terminated text fields. A result means that no read and no write was out of
range. -/
theorem parsers_stay_inside (json : CString) :
    ∃ type payload, Pointers.protocolParseMsg json = .ok (type, payload) ∧ ∀ text ∈ payload,
      (∃ code tx, Pointers.protocolDeserializeTx text = .ok (code, tx) ∧ tx.Terminated) ∧
      (∃ code block, Pointers.protocolDeserializeBlock text = .ok (code, block) ∧ block.Terminated) ∧
      (∀ before, ∃ code chain, Pointers.protocolDeserializeChain text before = .ok (code, chain) ∧
        ((code, chain) = (-1, before) ∨ chain.Terminated)) := by
  obtain ⟨payload, parsed, -⟩ := protocolParseMsg_exact json
  refine ⟨_, payload, parsed, fun text _ => ⟨?_, ?_, fun before => ?_⟩⟩
  · obtain ⟨tx, run, shows⟩ := protocolDeserializeTx_exact text
    exact ⟨_, tx, run, shows.terminated⟩
  · obtain ⟨result, run, ends, -⟩ := protocolDeserializeBlock_exact text
    exact ⟨result.1, result.2, run, ends⟩
  · obtain ⟨result, run, ends, -⟩ := protocolDeserializeChain_exact text before
    exact ⟨result.1, result.2, run, ends⟩

end MiniCoin
