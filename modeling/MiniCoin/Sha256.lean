import MiniCoin.ByteStrings

/-!
# SHA-256 by evaluation

The digest function of FIPS 180-4 on byte lists, written so that closed applications
can be evaluated by the kernel. Words are natural numbers below `2 ^ 32`. The eight
words of the chaining value and the sixteen words of a block are packed into one
number each, lowest word first, and `strict` evaluates a number before the
computation continues with it.
-/

namespace Sha2

open ByteStrings

/-- Evaluate a number to a literal, then continue with it. Without this the
kernel would carry unevaluated terms along. -/
def strict {α : Type} (n : Nat) (continuation : Nat → α) : α :=
  match n with
  | 0 => continuation 0
  | pred + 1 => continuation (Nat.succ pred)

@[simp] theorem strict_eq {α : Type} (n : Nat) (continuation : Nat → α) :
    strict n continuation = continuation n := by
  cases n <;> rfl

/-- The constants of the sixty-four rounds. -/
def roundConstants : List Nat := [
  0x428a2f98, 0x71374491, 0xb5c0fbcf, 0xe9b5dba5, 0x3956c25b, 0x59f111f1, 0x923f82a4, 0xab1c5ed5,
  0xd807aa98, 0x12835b01, 0x243185be, 0x550c7dc3, 0x72be5d74, 0x80deb1fe, 0x9bdc06a7, 0xc19bf174,
  0xe49b69c1, 0xefbe4786, 0x0fc19dc6, 0x240ca1cc, 0x2de92c6f, 0x4a7484aa, 0x5cb0a9dc, 0x76f988da,
  0x983e5152, 0xa831c66d, 0xb00327c8, 0xbf597fc7, 0xc6e00bf3, 0xd5a79147, 0x06ca6351, 0x14292967,
  0x27b70a85, 0x2e1b2138, 0x4d2c6dfc, 0x53380d13, 0x650a7354, 0x766a0abb, 0x81c2c92e, 0x92722c85,
  0xa2bfe8a1, 0xa81a664b, 0xc24b8b70, 0xc76c51a3, 0xd192e819, 0xd6990624, 0xf40e3585, 0x106aa070,
  0x19a4c116, 0x1e376c08, 0x2748774c, 0x34b0bcb5, 0x391c0cb3, 0x4ed8aa4a, 0x5b9cca4f, 0x682e6ff3,
  0x748f82ee, 0x78a5636f, 0x84c87814, 0x8cc70208, 0x90befffa, 0xa4506ceb, 0xbef9a3f7, 0xc67178f2]

/-- The sigma functions. The product puts a word next to a copy of itself, so
that shifting it right rotates the word; the conjunction keeps the low 32
bits. -/
def bigSigma0 (x : Nat) : Nat :=
  Nat.land (Nat.xor (Nat.xor (Nat.shiftRight (Nat.mul x 0x100000001) 2)
    (Nat.shiftRight (Nat.mul x 0x100000001) 13)) (Nat.shiftRight (Nat.mul x 0x100000001) 22)) 0xffffffff

/-- The other rotations of the round, by 6, 11 and 25. -/
def bigSigma1 (x : Nat) : Nat :=
  Nat.land (Nat.xor (Nat.xor (Nat.shiftRight (Nat.mul x 0x100000001) 6)
    (Nat.shiftRight (Nat.mul x 0x100000001) 11)) (Nat.shiftRight (Nat.mul x 0x100000001) 25)) 0xffffffff

/-- For the message schedule: rotations by 7 and 18, and a shift by 3. -/
def smallSigma0 (x : Nat) : Nat :=
  Nat.xor (Nat.land (Nat.xor (Nat.shiftRight (Nat.mul x 0x100000001) 7)
    (Nat.shiftRight (Nat.mul x 0x100000001) 18)) 0xffffffff) (Nat.shiftRight x 3)

/-- For the message schedule: rotations by 17 and 19, and a shift by 10. -/
def smallSigma1 (x : Nat) : Nat :=
  Nat.xor (Nat.land (Nat.xor (Nat.shiftRight (Nat.mul x 0x100000001) 17)
    (Nat.shiftRight (Nat.mul x 0x100000001) 19)) 0xffffffff) (Nat.shiftRight x 10)

/-- `Ch` and `Maj`, with the choice written as `g ^ (e & (f ^ g))`. -/
def choose (e f g : Nat) : Nat := Nat.xor g (Nat.land e (Nat.xor f g))
def majority (a b c : Nat) : Nat := Nat.lor (Nat.land a b) (Nat.land c (Nat.lor a b))

/-- The word at a position of a packed number. -/
def wordAt (packed position : Nat) : Nat :=
  Nat.land (Nat.shiftRight packed (Nat.mul 32 position)) 0xffffffff

/-- Words packed into one number, lowest first. -/
def pack : List Nat → Nat
  | [] => 0
  | w :: rest => Nat.add w (Nat.mul 0x100000000 (pack rest))

/-- The rounds on the message window and the working variables. In every round
the oldest word leaves the window and the word of the schedule recurrence
enters. -/
def rounds : List Nat → (window a b c d e f g h : Nat) → Nat
  | [], _, a, b, c, d, e, f, g, h => pack [a, b, c, d, e, f, g, h]
  | k :: rest, window, a, b, c, d, e, f, g, h =>
    strict (Nat.add (Nat.add (Nat.land window 0xffffffff) k)
      (Nat.add h (Nat.add (bigSigma1 e) (choose e f g)))) fun t1 =>
    strict (Nat.land (Nat.add t1 (Nat.add (bigSigma0 a) (majority a b c))) 0xffffffff) fun newA =>
    strict (Nat.land (Nat.add d t1) 0xffffffff) fun newE =>
    strict (Nat.land (Nat.shiftRight window 32) 0xffffffff) fun w1 =>
    strict (Nat.land (Nat.shiftRight window 448) 0xffffffff) fun w14 =>
    strict (Nat.lor (Nat.shiftRight window 32) (Nat.shiftLeft
      (Nat.land (Nat.add (Nat.add (Nat.land window 0xffffffff) (smallSigma0 w1))
        (Nat.add (Nat.land (Nat.shiftRight window 288) 0xffffffff) (smallSigma1 w14))) 0xffffffff)
      480)) fun newWindow =>
    rounds rest newWindow newA a b c newE e f g

/-- Word-wise sum of two packed chaining values. -/
def addWords (left right : Nat) : Nat :=
  pack ((List.range 8).map fun i => Nat.land (Nat.add (wordAt left i) (wordAt right i)) 0xffffffff)

/-- The chaining value after one block. -/
def compress (state block : Nat) : Nat :=
  addWords state (rounds roundConstants block (wordAt state 0) (wordAt state 1) (wordAt state 2)
    (wordAt state 3) (wordAt state 4) (wordAt state 5) (wordAt state 6) (wordAt state 7))

/-- The initial chaining value. -/
def initial : Nat := pack [0x6a09e667, 0xbb67ae85, 0x3c6ef372, 0xa54ff53a, 0x510e527f, 0x9b05688c,
  0x1f83d9ab, 0x5be0cd19]

/-- Bytes read as big-endian words. -/
def bigEndianWords : List UInt8 → List Nat
  | b0 :: b1 :: b2 :: b3 :: rest =>
    Nat.add (Nat.mul (Nat.add (Nat.mul (Nat.add (Nat.mul b0.toNat 256) b1.toNat) 256) b2.toNat) 256)
      b3.toNat :: bigEndianWords rest
  | _ => []

/-- The `width` low bytes of a number, highest first. -/
def bigEndianBytes (width n : Nat) : List UInt8 :=
  (List.range width).map fun i => (Nat.shiftRight n (8 * (width - 1 - i)) % 256).toUInt8

/-- The padding after a message of the given length: one bit, zeros, the bit
length. -/
def padding (length : Nat) : List UInt8 :=
  0x80 :: (List.replicate ((119 - length % 64) % 64) 0 ++ bigEndianBytes 8 (8 * length))

/-- The chaining value after `count` blocks of a padded message. -/
def digestBlocks : Nat → Nat → List UInt8 → Nat
  | 0, state, _ => state
  | count + 1, state, text =>
    strict (pack (bigEndianWords (text.take 64))) fun block =>
    strict (compress state block) fun next =>
    digestBlocks count next (text.drop 64)

/-- The eight words of a chaining value as bytes. -/
def digestBytes (state : Nat) : Vector UInt8 32 :=
  Vector.ofFn fun i => (Nat.shiftRight (wordAt state (i / 4)) (8 * (3 - i % 4)) % 256).toUInt8

/-- SHA-256. -/
def sha256 (message : List UInt8) : Vector UInt8 32 :=
  let padded := message ++ padding message.length
  digestBytes (digestBlocks (padded.length / 64) initial padded)

/-! ## Messages with a common first block -/

/-- The chaining value after one more block of 64 bytes. -/
def absorb (state : Nat) (block : List UInt8) : Nat := compress state (pack (bigEndianWords block))

theorem digestBlocks_append (count state : Nat) (block rest : List UInt8)
    (full : block.length = 64) :
    digestBlocks (count + 1) state (block ++ rest) = digestBlocks count (absorb state block) rest := by
  rw [digestBlocks, List.take_left' full, List.drop_left' full]
  simp [absorb]

/-- A message of one block and a short rest is digested in two steps, the first
of which does not depend on the rest. -/
theorem sha256_append (block rest : List UInt8) (full : block.length = 64)
    (short : rest.length ≤ 55) :
    sha256 (block ++ rest) =
      digestBytes (absorb (absorb initial block) (rest ++ padding (64 + rest.length))) := by
  have length : (rest ++ padding (64 + rest.length)).length = 64 := by
    simp only [padding, bigEndianBytes, List.length_append, List.length_cons, List.length_replicate,
      List.length_map, List.length_range]
    omega
  have padded : (block ++ rest) ++ padding (block ++ rest).length =
      block ++ (rest ++ padding (64 + rest.length)) := by
    rw [List.append_assoc, List.length_append, full]
  have blocks : (block ++ (rest ++ padding (64 + rest.length))).length / 64 = 2 := by
    rw [List.length_append, full, length]
  simp only [sha256, padded, blocks]
  rw [digestBlocks_append 1 _ _ _ full]
  conv_lhs => rw [← List.append_nil (rest ++ padding (64 + rest.length))]
  rw [digestBlocks_append 0 _ _ _ length, digestBlocks]

/-- The digest of `abc`, the first example of the standard. -/
example : hexText (sha256 (ascii "abc")).toList =
    ascii "ba7816bf8f01cfea414140de5dae2223b00361a396177a9cb410ff61f20015ad" := by decide +kernel

end Sha2
