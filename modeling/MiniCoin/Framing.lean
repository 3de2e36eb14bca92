import MiniCoin.MessageCodec

/-!
# Lines on a stream

`send_message` offers what is left of a message to `send` until all of it is accepted, and
`read_message` takes single bytes up to a newline. However `send` cuts the messages, the
receiver reads them as they were sent, one for each call.
-/

namespace MiniCoin

open ByteStrings

/-! ## Sending -/

/-- What `send` returns at its n-th call for the bytes that it is offered. -/
abbrev SendPattern := Nat → List UInt8 → Int

/-- Every call accepts some of the bytes that it is offered, but perhaps not
all. Where the socket blocks, a call simply takes longer. -/
def Accepting (send : SendPattern) : Prop :=
  ∀ call offered, offered ≠ [] → 0 < send call offered ∧ send call offered ≤ offered.length

/-- What a call of `send_message` returns, the number of the next call of
`send`, and the bytes that are on the stream. -/
structure Sent where
  code : Int
  calls : Nat
  bytes : List UInt8

/-- The loop of `send_message`: it offers the rest until nothing is left, and
gives up at an error. -/
def sendLoop (send : SendPattern) (calls : Nat) (offered : List UInt8) : Sent :=
  if offered = [] then ⟨0, calls, []⟩
  else
    let n := send calls offered
    if n ≤ 0 then ⟨-1, calls + 1, []⟩
    else
      let later := sendLoop send (calls + 1) (offered.drop n.toNat)
      ⟨later.code, later.calls, offered.take n.toNat ++ later.bytes⟩
termination_by offered.length
decreasing_by
  have some : 0 < offered.length := List.length_pos_of_ne_nil ‹_›
  rw [List.length_drop]
  omega

/-- `send_message`: the length of the message is found with `strlen`, so a NUL
would end it. -/
def sendMessage (send : SendPattern) (calls : Nat) (msg : List UInt8) : Sent :=
  sendLoop send calls (cstr msg)

/-- Messages that are sent one after another. -/
def sendMessages (send : SendPattern) : Nat → List (List UInt8) → List Sent
  | _, [] => []
  | calls, msg :: rest =>
    sendMessage send calls msg :: sendMessages send (sendMessage send calls msg).calls rest

/-- The loop sends everything. -/
theorem sendLoop_accepting (send : SendPattern) (accepting : Accepting send) (calls : Nat)
    (offered : List UInt8) :
    (sendLoop send calls offered).code = 0 ∧ (sendLoop send calls offered).bytes = offered := by
  fun_induction sendLoop send calls offered with
  | case1 calls => exact ⟨rfl, rfl⟩
  | case2 calls offered some n refused =>
    have positive := (accepting calls offered some).1
    omega
  | case3 calls offered some n accepted later ih =>
    obtain ⟨code, bytes⟩ := ih
    refine ⟨code, ?_⟩
    change offered.take n.toNat ++ later.bytes = offered
    rw [bytes, List.take_append_drop]

/-- A message without NUL is sent as it is. -/
theorem sendMessage_accepting (send : SendPattern) (accepting : Accepting send) (calls : Nat)
    (msg : List UInt8) (clean : 0 ∉ msg) :
    (sendMessage send calls msg).code = 0 ∧ (sendMessage send calls msg).bytes = msg := by
  rw [sendMessage, cstr_eq_self msg clean]
  exact sendLoop_accepting send accepting calls msg

/-- So is the text of a plain message. -/
theorem sendMessage_plain (send : SendPattern) (accepting : Accepting send) (calls : Nat)
    (message : Message) (plain : message.Plain) :
    (sendMessage send calls message.text).bytes = message.text := by
  obtain ⟨text, oneLine⟩ := plain.text
  have clean : 0 ∉ message.text := by
    rw [text]
    intro member
    rcases List.mem_append.mp member with inLine | newline
    · exact (oneLine 0 inLine).1 rfl
    · exact absurd newline (by decide)
  exact (sendMessage_accepting send accepting calls _ clean).2

/-! ## Reading -/

/-- Successive calls of `read_message`: the messages and what is left on the
stream. -/
def readMessages : Nat → List UInt8 → Option (List (List UInt8) × List UInt8)
  | 0, stream => some ([], stream)
  | count + 1, stream =>
    match readMessage stream with
    | none => none
    | some (line, rest) => (readMessages count rest).map fun later => (line :: later.1, later.2)

/-- A message without NUL and newline that fits the reader's buffer with its
newline. -/
def IsLine (line : List UInt8) : Prop := 0 ∉ line ∧ 10 ∉ line ∧ line.length ≤ maxMsgSize - 2

/-- Lines are read one by one, whatever follows them. -/
theorem readMessages_lines (lines : List (List UInt8)) (each : ∀ line ∈ lines, IsLine line)
    (rest : List UInt8) :
    readMessages lines.length (lines.flatMap (· ++ [10]) ++ rest) = some (lines, rest) := by
  induction lines with
  | nil => rfl
  | cons line others ih =>
    obtain ⟨-, oneLine, short⟩ := each line (by simp)
    have fits : line.length < maxMsgSize - 1 := by
      unfold maxMsgSize at short ⊢
      omega
    have first := readMessage_line line (others.flatMap (· ++ [10]) ++ rest) oneLine fits
    have later := ih fun other member => each other (by simp [member])
    have stream : (line :: others).flatMap (· ++ [10]) ++ rest =
        line ++ 10 :: (others.flatMap (· ++ [10]) ++ rest) := by simp
    rw [List.length_cons, stream, readMessages, first]
    simp only [later, Option.map_some]

/-- The stream holds the lines with their newlines, and every call reports
success. -/
theorem sendMessages_lines (send : SendPattern) (accepting : Accepting send) (calls : Nat)
    (lines : List (List UInt8)) (each : ∀ line ∈ lines, IsLine line) :
    (∀ sent ∈ sendMessages send calls (lines.map (· ++ [10])), sent.code = 0) ∧
      (sendMessages send calls (lines.map (· ++ [10]))).flatMap Sent.bytes =
        lines.flatMap (· ++ [10]) := by
  induction lines generalizing calls with
  | nil => exact ⟨by simp [sendMessages], rfl⟩
  | cons line others ih =>
    have clean : 0 ∉ line ++ [10] := by simp [(each line (by simp)).1]
    obtain ⟨code, bytes⟩ := sendMessage_accepting send accepting calls _ clean
    obtain ⟨codes, texts⟩ := ih (sendMessage send calls (line ++ [10])).calls
      fun other member => each other (by simp [member])
    rw [List.map_cons, sendMessages, List.flatMap_cons, List.flatMap_cons, bytes, texts]
    refine ⟨fun sent member => ?_, rfl⟩
    rcases List.mem_cons.mp member with rfl | later
    · exact code
    · exact codes sent later

/-- However `send` cuts the lines, the receiver reads them as they were sent.
The loop of `send_message` goes on with the rest, and `read_message` stops at
each newline. -/
theorem framing_lossless (send : SendPattern) (accepting : Accepting send)
    (lines : List (List UInt8)) (each : ∀ line ∈ lines, IsLine line) :
    (∀ sent ∈ sendMessages send 0 (lines.map (· ++ [10])), sent.code = 0) ∧
      readMessages lines.length ((sendMessages send 0 (lines.map (· ++ [10]))).flatMap Sent.bytes) =
        some (lines, []) := by
  obtain ⟨codes, stream⟩ := sendMessages_lines send accepting 0 lines each
  have read := readMessages_lines lines each []
  rw [List.append_nil] at read
  exact ⟨codes, by rw [stream, read]⟩

/-- `send` takes one byte at a time. -/
def byteByByte : SendPattern := fun _ _ => 1

theorem byteByByte_accepting : Accepting byteByByte := by
  intro call offered some
  have length := List.length_pos_of_ne_nil some
  constructor
  · exact Int.one_pos
  · change (1 : Int) ≤ offered.length
    omega

theorem framing_lossless_here :
    readMessages 2 ((sendMessages byteByByte 0 [ascii "ab" ++ [10], [10]]).flatMap Sent.bytes) =
      some ([ascii "ab", []], []) := by
  have each : ∀ line ∈ [ascii "ab", []], IsLine line := by
    unfold IsLine
    decide
  exact (framing_lossless byteByByte byteByByte_accepting [ascii "ab", []] each).2

end MiniCoin
