import MiniCoin.Sha256

/-!
# SHA-256 on many messages at once

Numbers stand side by side in lanes of one large number, so that one operation on it works
on all of them. Sums and products with a constant need no care while every lane is wide
enough; a conjunction with the same mask in every lane removes what a shift brought in from
the next lane. With these operations the compression function is computed for all messages
in one evaluation.
-/

namespace Sha2

open ByteStrings

variable {ι : Type} (width : Nat)

/-! ## Lanes -/

/-- The values of some indices side by side, the first one lowest. -/
def lanes (value : ι → Nat) : List ι → Nat
  | [] => 0
  | i :: rest => Nat.add (value i) (Nat.mul (2 ^ width) (lanes value rest))

/-- One lane more, below the others. -/
theorem lanes_cons (value : ι → Nat) (i : ι) (rest : List ι) :
    lanes width value (i :: rest) = value i + 2 ^ width * lanes width value rest := rfl

/-- A sum of two numbers adds lane by lane. No lane need be wide enough for
this: what carries over is counted the same on both sides. -/
theorem lanes_add (ids : List ι) (left right : ι → Nat) :
    lanes width left ids + lanes width right ids = lanes width (fun i => left i + right i) ids := by
  induction ids with
  | nil => rfl
  | cons i rest ih =>
    rw [lanes_cons, lanes_cons, lanes_cons, ← ih]
    ring

/-- A product with a constant multiplies every lane, by the same argument. -/
theorem lanes_mul (ids : List ι) (value : ι → Nat) (factor : Nat) :
    lanes width value ids * factor = lanes width (fun i => value i * factor) ids := by
  induction ids with
  | nil => exact Nat.zero_mul factor
  | cons i rest ih =>
    rw [lanes_cons, lanes_cons, ← ih]
    ring

/-- A bit of the number is a bit of the first lane or of the other lanes. -/
theorem testBit_lane (first rest position : Nat) (small : first < 2 ^ width) :
    (first + 2 ^ width * rest).testBit position =
      if position < width then first.testBit position else rest.testBit (position - width) := by
  rw [Nat.add_comm]
  exact Nat.testBit_two_pow_mul_add rest small position

/-- An operation on bits works in every lane. -/
theorem lanes_bitwise (op : Nat → Nat → Nat) (bit : Bool → Bool → Bool)
    (bits : ∀ m n position, (op m n).testBit position = bit (m.testBit position) (n.testBit position))
    (zero : op 0 0 = 0) (ids : List ι) (left right : ι → Nat)
    (smallLeft : ∀ i ∈ ids, left i < 2 ^ width) (smallRight : ∀ i ∈ ids, right i < 2 ^ width)
    (small : ∀ i ∈ ids, op (left i) (right i) < 2 ^ width) :
    op (lanes width left ids) (lanes width right ids) =
      lanes width (fun i => op (left i) (right i)) ids := by
  induction ids with
  | nil => exact zero
  | cons i rest ih =>
    have later := ih (fun j member => smallLeft j (List.mem_cons_of_mem i member))
      (fun j member => smallRight j (List.mem_cons_of_mem i member))
      (fun j member => small j (List.mem_cons_of_mem i member))
    have here := List.mem_cons_self (a := i) (l := rest)
    rw [lanes_cons, lanes_cons, lanes_cons, ← later]
    apply Nat.eq_of_testBit_eq
    intro position
    rw [bits, testBit_lane _ _ _ _ (smallLeft i here), testBit_lane _ _ _ _ (smallRight i here),
      testBit_lane _ _ _ _ (small i here)]
    split <;> rw [bits]

/-- A shift works in every lane once the mask removes what comes from the next
lane. -/
theorem lanes_shift (ids : List ι) (value : ι → Nat) (shift : Nat) (fits : shift ≤ width)
    (small : ∀ i ∈ ids, value i < 2 ^ width) :
    lanes width value ids >>> shift &&& lanes width (fun _ => 2 ^ (width - shift) - 1) ids =
      lanes width (fun i => value i >>> shift) ids := by
  induction ids with
  | nil => simp [lanes]
  | cons i rest ih =>
    have later := ih fun j member => small j (List.mem_cons_of_mem i member)
    have here := small i List.mem_cons_self
    have shifted : value i >>> shift < 2 ^ width := lt_of_le_of_lt (Nat.shiftRight_le _ _) here
    have mask : 2 ^ (width - shift) - 1 < 2 ^ width := by
      have small := Nat.pow_le_pow_right (show 0 < 2 by decide) (Nat.sub_le width shift)
      have positive := Nat.two_pow_pos (width - shift)
      omega
    rw [lanes_cons, lanes_cons, lanes_cons, ← later]
    apply Nat.eq_of_testBit_eq
    intro position
    rw [Nat.testBit_and, Nat.testBit_shiftRight, testBit_lane _ _ _ _ here, testBit_lane _ _ _ _ mask,
      testBit_lane _ _ _ _ shifted, Nat.testBit_and, Nat.testBit_shiftRight, Nat.testBit_shiftRight,
      Nat.testBit_two_pow_sub_one]
    by_cases low : position < width
    · rw [if_pos low, if_pos low]
      by_cases inside : shift + position < width
      · rw [if_pos inside]
        simp [show position < width - shift by omega]
      · have gone : value i < 2 ^ (shift + position) :=
          lt_of_lt_of_le here (Nat.pow_le_pow_right (by decide) (by omega))
        rw [if_neg inside, Nat.testBit_lt_two_pow gone]
        simp [show ¬ position < width - shift by omega]
    · rw [if_neg low, if_neg low, if_neg (by omega),
        show shift + position - width = shift + (position - width) by omega]

/-- Different values give different numbers. -/
theorem lanes_injective (ids : List ι) (left right : ι → Nat)
    (smallLeft : ∀ i ∈ ids, left i < 2 ^ width) (smallRight : ∀ i ∈ ids, right i < 2 ^ width)
    (same : lanes width left ids = lanes width right ids) : ∀ i ∈ ids, left i = right i := by
  induction ids with
  | nil => exact fun i member => absurd member List.not_mem_nil
  | cons i rest ih =>
    have here := List.mem_cons_self (a := i) (l := rest)
    rw [lanes_cons, lanes_cons] at same
    have first : left i = right i := by
      have low := congrArg (· % 2 ^ width) same
      simpa [Nat.add_mul_mod_self_left, Nat.mod_eq_of_lt (smallLeft i here),
        Nat.mod_eq_of_lt (smallRight i here)] using low
    have others : lanes width left rest = lanes width right rest := by
      rw [first] at same
      exact Nat.eq_of_mul_eq_mul_left (Nat.two_pow_pos width) (Nat.add_left_cancel same)
    intro j member
    rcases List.mem_cons.mp member with rfl | inRest
    · exact first
    · exact ih (fun k inRest => smallLeft k (List.mem_cons_of_mem i inRest))
        (fun k inRest => smallRight k (List.mem_cons_of_mem i inRest)) others j inRest

/-! ## Numbers of a known size -/

/-- The number holds these values, each with at most so many bits. The sizes are
carried along, so that each operation can be seen to stay within its lanes. -/
structure Packed (ids : List ι) (bits packed : Nat) (value : ι → Nat) : Prop where
  same : packed = lanes width value ids
  small : ∀ i ∈ ids, value i < 2 ^ bits

variable {width} {ids : List ι} {bits more x y : Nat} {f g : ι → Nat}

/-- A number that was packed from small values holds them. -/
theorem packed_lanes (small : ∀ i ∈ ids, f i < 2 ^ bits) : Packed width ids bits (lanes width f ids) f :=
  ⟨rfl, small⟩

/-- Values of few bits are values of more bits, which aligns the sizes of two
operands. -/
theorem Packed.widen (packed : Packed width ids bits x f) (wider : bits ≤ more) :
    Packed width ids more x f :=
  ⟨packed.same, fun i member => lt_of_lt_of_le (packed.small i member)
    (Nat.pow_le_pow_right (by decide) wider)⟩

/-- A sum needs one bit more. -/
theorem Packed.add (left : Packed width ids bits x f) (right : Packed width ids bits y g) :
    Packed width ids (bits + 1) (Nat.add x y) fun i => Nat.add (f i) (g i) where
  same := by
    rw [left.same, right.same]
    exact lanes_add width ids f g
  small i member := by
    have here := left.small i member
    have there := right.small i member
    change f i + g i < 2 ^ (bits + 1)
    omega

/-- A product with a factor needs the bits of both. -/
theorem Packed.mul (packed : Packed width ids bits x f) (factor : Nat) (size : factor < 2 ^ more) :
    Packed width ids (bits + more) (Nat.mul x factor) fun i => Nat.mul (f i) factor where
  same := by
    rw [packed.same]
    exact lanes_mul width ids f factor
  small i member := by
    rw [Nat.pow_add]
    exact Nat.mul_lt_mul'' (packed.small i member) size

/-- A shift to the left needs the bits that it inserts. -/
theorem Packed.shiftLeft (packed : Packed width ids bits x f) (shift : Nat) :
    Packed width ids (bits + shift) (Nat.shiftLeft x shift) fun i => Nat.shiftLeft (f i) shift where
  same := by
    have scaled := lanes_mul width ids f (2 ^ shift)
    rw [← packed.same] at scaled
    simp only [← Nat.shiftLeft_eq] at scaled
    exact scaled
  small i member := by
    change f i <<< shift < _
    rw [Nat.shiftLeft_eq, Nat.pow_add]
    exact Nat.mul_lt_mul_of_pos_right (packed.small i member) (Nat.two_pow_pos shift)

/-- Packed numbers behave as their lanes under an operation on bits. -/
theorem Packed.bitwise (op : Nat → Nat → Nat) (bit : Bool → Bool → Bool)
    (bits_op : ∀ m n position, (op m n).testBit position = bit (m.testBit position) (n.testBit position))
    (zero : op 0 0 = 0) (bounded : ∀ m n, m < 2 ^ bits → n < 2 ^ bits → op m n < 2 ^ bits)
    (fits : bits ≤ width) (left : Packed width ids bits x f) (right : Packed width ids bits y g) :
    Packed width ids bits (op x y) fun i => op (f i) (g i) where
  same := by
    rw [left.same, right.same]
    exact lanes_bitwise width op bit bits_op zero ids f g (left.widen fits).small
      (right.widen fits).small
      fun i member => lt_of_lt_of_le (bounded _ _ (left.small i member) (right.small i member))
        (Nat.pow_le_pow_right (by decide) fits)
  small i member := bounded _ _ (left.small i member) (right.small i member)

/-- Conjunction, lane by lane. -/
theorem Packed.land (fits : bits ≤ width) (left : Packed width ids bits x f)
    (right : Packed width ids bits y g) :
    Packed width ids bits (Nat.land x y) fun i => Nat.land (f i) (g i) :=
  left.bitwise Nat.land and (fun _ _ _ => Nat.testBit_and ..) rfl
    (fun _ _ _ small => Nat.and_lt_two_pow _ small) fits right

/-- Disjunction, lane by lane. -/
theorem Packed.lor (fits : bits ≤ width) (left : Packed width ids bits x f)
    (right : Packed width ids bits y g) :
    Packed width ids bits (Nat.lor x y) fun i => Nat.lor (f i) (g i) :=
  left.bitwise Nat.lor or (fun _ _ _ => Nat.testBit_or ..) rfl (fun _ _ => Nat.or_lt_two_pow) fits right

/-- Exclusive disjunction, lane by lane. -/
theorem Packed.xor (fits : bits ≤ width) (left : Packed width ids bits x f)
    (right : Packed width ids bits y g) :
    Packed width ids bits (Nat.xor x y) fun i => Nat.xor (f i) (g i) :=
  left.bitwise Nat.xor Bool.xor (fun _ _ _ => Nat.testBit_xor ..) rfl (fun _ _ => Nat.xor_lt_two_pow)
    fits right

/-! ## The compression function in lanes

Every function has its twin without lanes in the digest of one message; `ones` holds a one
in every lane. -/

namespace Lanes

variable (width : Nat) (ones : Nat)

/-- The masked bits of every lane. -/
def keep (mask packed : Nat) : Nat := Nat.land packed (Nat.mul ones mask)

/-- Every lane shifted to the right. The mask removes the bits that came in from
the next lane. -/
def shift (count packed : Nat) : Nat :=
  Nat.land (Nat.shiftRight packed count)
    (Nat.mul ones (Nat.sub (Nat.pow 2 (Nat.sub width count)) 1))

/-- The twin of `Sha2.bigSigma0`. A word times 2^32 + 1 stands next to its copy,
so that a shift of the pair is a rotation of the word. -/
def bigSigma0 (x : Nat) : Nat := strict (Nat.mul x 0x100000001) fun y =>
  keep ones 0xffffffff (Nat.xor (Nat.xor (shift width ones 2 y) (shift width ones 13 y))
    (shift width ones 22 y))

/-- The twin of `Sha2.bigSigma1`. -/
def bigSigma1 (x : Nat) : Nat := strict (Nat.mul x 0x100000001) fun y =>
  keep ones 0xffffffff (Nat.xor (Nat.xor (shift width ones 6 y) (shift width ones 11 y))
    (shift width ones 25 y))

/-- The twin of `Sha2.smallSigma0`, whose last term is a shift and no
rotation. -/
def smallSigma0 (x : Nat) : Nat := strict (Nat.mul x 0x100000001) fun y =>
  Nat.xor (keep ones 0xffffffff (Nat.xor (shift width ones 7 y) (shift width ones 18 y)))
    (shift width ones 3 x)

/-- The twin of `Sha2.smallSigma1`. -/
def smallSigma1 (x : Nat) : Nat := strict (Nat.mul x 0x100000001) fun y =>
  Nat.xor (keep ones 0xffffffff (Nat.xor (shift width ones 17 y) (shift width ones 19 y)))
    (shift width ones 10 x)

/-- One word out of every lane. -/
def wordAt (packed position : Nat) : Nat :=
  keep ones 0xffffffff (shift width ones (Nat.mul 32 position) packed)

/-- The rounds, with the same window of sixteen words as in one message. Its
oldest word is the lowest one, and the newest enters at bit 480. -/
def rounds : List Nat → (window a b c d e f g h : Nat) → Nat
  | [], _, a, b, c, d, e, f, g, h => pack [a, b, c, d, e, f, g, h]
  | k :: rest, window, a, b, c, d, e, f, g, h =>
    strict (Nat.add (Nat.add (keep ones 0xffffffff window) (Nat.mul ones k))
      (Nat.add h (Nat.add (bigSigma1 width ones e) (choose e f g)))) fun t1 =>
    strict (keep ones 0xffffffff (Nat.add t1 (Nat.add (bigSigma0 width ones a) (majority a b c))))
      fun newA =>
    strict (keep ones 0xffffffff (Nat.add d t1)) fun newE =>
    strict (keep ones 0xffffffff (shift width ones 32 window)) fun w1 =>
    strict (keep ones 0xffffffff (shift width ones 448 window)) fun w14 =>
    strict (Nat.lor (shift width ones 32 window) (Nat.shiftLeft
      (keep ones 0xffffffff (Nat.add
        (Nat.add (keep ones 0xffffffff window) (smallSigma0 width ones w1))
        (Nat.add (keep ones 0xffffffff (shift width ones 288 window)) (smallSigma1 width ones w14))))
      480)) fun newWindow =>
    rounds rest newWindow newA a b c newE e f g

/-- The words of two chaining values added one by one, modulo 2^32. -/
def addWords (left right : Nat) : Nat :=
  pack ((List.range 8).map fun i =>
    keep ones 0xffffffff (Nat.add (wordAt width ones left i) (wordAt width ones right i)))

/-- One block of every message worked into its chaining value. -/
def compress (state block : Nat) : Nat :=
  addWords width ones state (rounds width ones roundConstants block (wordAt width ones state 0)
    (wordAt width ones state 1) (wordAt width ones state 2) (wordAt width ones state 3)
    (wordAt width ones state 4) (wordAt width ones state 5) (wordAt width ones state 6)
    (wordAt width ones state 7))

/-- The blocks of a text that all messages share. -/
def digestBlocks : Nat → Nat → List UInt8 → Nat
  | 0, state, _ => state
  | count + 1, state, text =>
    strict (Nat.mul ones (pack (bigEndianWords (text.take 64)))) fun block =>
    strict (compress width ones state block) fun next =>
    digestBlocks count next (text.drop 64)

end Lanes

/-! ## Every lane holds what its message gives -/

section

variable {ones : Nat} (unit : ones = lanes width (fun _ => 1) ids)

include unit

/-- A constant in every lane is a product with the number of ones. -/
theorem packed_const (value : Nat) (size : value < 2 ^ bits) :
    Packed width ids bits (Nat.mul ones value) fun _ => value where
  same := by
    have scaled := lanes_mul width ids (fun _ => 1) value
    simp only [Nat.one_mul] at scaled
    rw [unit]
    exact scaled
  small _ _ := size

/-- A mask in every lane keeps the low bits of every lane. -/
theorem Packed.keep (mask : Nat) (size : mask < 2 ^ more) (fits : bits ≤ width) (room : more ≤ width)
    (packed : Packed width ids bits x f) :
    Packed width ids more (Lanes.keep ones mask x) fun i => Nat.land (f i) mask where
  same := ((packed.widen fits).land le_rfl ((packed_const unit mask size).widen room)).same
  small _ _ := Nat.and_lt_two_pow _ size

/-- A masked shift works in every lane. The size of the values does not matter
as long as they fit into their lanes. -/
theorem Packed.shift (count : Nat) (small : count ≤ width) (fits : bits ≤ width)
    (packed : Packed width ids bits x f) :
    Packed width ids bits (Lanes.shift width ones count x) fun i => Nat.shiftRight (f i) count where
  same := by
    have room : 2 ^ (width - count) - 1 < 2 ^ width := by
      have smaller := Nat.pow_le_pow_right (show 0 < 2 by decide) (Nat.sub_le width count)
      have positive := Nat.two_pow_pos (width - count)
      omega
    have mask := (packed_const unit _ room).same
    have shifted := lanes_shift width ids f count small (packed.widen fits).small
    rw [← packed.same, ← mask] at shifted
    exact shifted
  small i member := lt_of_le_of_lt (Nat.shiftRight_le _ _) (packed.small i member)

variable (wide : 512 ≤ width)

include wide

/-- The low word of every lane, by which sums of words are reduced. -/
theorem Packed.word (packed : Packed width ids bits x f) (fits : bits ≤ width) :
    Packed width ids 32 (Lanes.keep ones 0xffffffff x) fun i => Nat.land (f i) 0xffffffff :=
  packed.keep unit 0xffffffff (by decide) fits (by omega)

/-- A word next to its copy, shifted. -/
theorem Packed.rotated (packed : Packed width ids 32 x f) (count : Nat) (few : count ≤ 32) :
    Packed width ids 65 (Lanes.shift width ones count (Nat.mul x 0x100000001))
      fun i => Nat.shiftRight (Nat.mul (f i) 0x100000001) count :=
  (packed.mul 0x100000001 (by decide : _ < 2 ^ 33)).shift unit count (by omega) (by omega)

/-- Every lane holds what the function gives on its word. -/
theorem Packed.bigSigma0 (packed : Packed width ids 32 x f) :
    Packed width ids 32 (Lanes.bigSigma0 width ones x) fun i => Sha2.bigSigma0 (f i) := by
  have rotated := packed.rotated unit wide
  rw [Lanes.bigSigma0, strict_eq]
  exact (((rotated 2 (by decide)).xor (by omega) (rotated 13 (by decide))).xor (by omega)
    (rotated 22 (by decide))).word unit wide (by omega)

/-- Every lane holds what the function gives on its word. -/
theorem Packed.bigSigma1 (packed : Packed width ids 32 x f) :
    Packed width ids 32 (Lanes.bigSigma1 width ones x) fun i => Sha2.bigSigma1 (f i) := by
  have rotated := packed.rotated unit wide
  rw [Lanes.bigSigma1, strict_eq]
  exact (((rotated 6 (by decide)).xor (by omega) (rotated 11 (by decide))).xor (by omega)
    (rotated 25 (by decide))).word unit wide (by omega)

/-- Every lane holds what the function gives on its word. -/
theorem Packed.smallSigma0 (packed : Packed width ids 32 x f) :
    Packed width ids 32 (Lanes.smallSigma0 width ones x) fun i => Sha2.smallSigma0 (f i) := by
  have rotated := packed.rotated unit wide
  have low := packed.shift unit 3 (by omega) (by omega)
  rw [Lanes.smallSigma0, strict_eq]
  exact (((rotated 7 (by decide)).xor (by omega) (rotated 18 (by decide))).word unit wide
    (by omega)).xor (by omega) low

/-- Every lane holds what the function gives on its word. -/
theorem Packed.smallSigma1 (packed : Packed width ids 32 x f) :
    Packed width ids 32 (Lanes.smallSigma1 width ones x) fun i => Sha2.smallSigma1 (f i) := by
  have rotated := packed.rotated unit wide
  have low := packed.shift unit 10 (by omega) (by omega)
  rw [Lanes.smallSigma1, strict_eq]
  exact (((rotated 17 (by decide)).xor (by omega) (rotated 19 (by decide))).word unit wide
    (by omega)).xor (by omega) low

/-- A word of a block or of a chaining value, out of every lane. -/
theorem Packed.wordAt (packed : Packed width ids bits x f) (fits : bits ≤ width) (position : Nat)
    (early : position < 16) :
    Packed width ids 32 (Lanes.wordAt width ones x position) fun i => Sha2.wordAt (f i) position :=
  (packed.shift unit (Nat.mul 32 position) (by
    change 32 * position ≤ width
    omega) fits).word unit wide fits

end

section

variable {a b c : Nat} {fa fb fc : ι → Nat} (wide : 32 ≤ width)

include wide

/-- The choice of bits needs no mask, as it only combines words. -/
theorem Packed.choose (left : Packed width ids 32 a fa) (middle : Packed width ids 32 b fb)
    (right : Packed width ids 32 c fc) :
    Packed width ids 32 (Sha2.choose a b c) fun i => Sha2.choose (fa i) (fb i) (fc i) :=
  right.xor wide (left.land wide (middle.xor wide right))

/-- Neither does the majority. -/
theorem Packed.majority (left : Packed width ids 32 a fa) (middle : Packed width ids 32 b fb)
    (right : Packed width ids 32 c fc) :
    Packed width ids 32 (Sha2.majority a b c) fun i => Sha2.majority (fa i) (fb i) (fc i) :=
  (left.land wide middle).lor wide (right.land wide (left.lor wide middle))

end

/-- No word at all, from which `Packed.cons` builds chaining values word by
word. -/
theorem packed_nil : Packed width ids 0 (pack []) fun _ => pack [] where
  same := by
    have scaled := lanes_mul width ids (fun _ => 1) 0
    simpa [pack] using scaled
  small _ _ := by simp [pack]

/-- One more word below. -/
theorem Packed.cons (word : Packed width ids 32 x f) (rest : Packed width ids bits y g) :
    Packed width ids (bits + 32) (Nat.add x (Nat.mul 0x100000000 y))
      fun i => Nat.add (f i) (Nat.mul 0x100000000 (g i)) where
  same := by
    have scaled := lanes_mul width ids g 0x100000000
    rw [← rest.same] at scaled
    change x + 0x100000000 * y = lanes width (fun i => f i + 0x100000000 * g i) ids
    rw [Nat.mul_comm, scaled, word.same, lanes_add]
    simp only [Nat.mul_comm]
  small i member := by
    have low := word.small i member
    have high := rest.small i member
    change f i + 0x100000000 * g i < _
    rw [Nat.pow_add]
    omega

section

variable {ones : Nat} (unit : ones = lanes width (fun _ => 1) ids) (wide : 512 ≤ width)

include unit wide

/-- The rounds, by induction on their constants. -/
theorem packed_rounds (constants : List Nat) (small : ∀ k ∈ constants, k < 2 ^ 32)
    {window a b c d e f g h : Nat} {fw fa fb fc fd fe ff fg fh : ι → Nat}
    (pw : Packed width ids 512 window fw) (pa : Packed width ids 32 a fa)
    (pb : Packed width ids 32 b fb) (pc : Packed width ids 32 c fc) (pd : Packed width ids 32 d fd)
    (pe : Packed width ids 32 e fe) (pf : Packed width ids 32 f ff) (pg : Packed width ids 32 g fg)
    (ph : Packed width ids 32 h fh) :
    Packed width ids 256 (Lanes.rounds width ones constants window a b c d e f g h)
      fun i => Sha2.rounds constants (fw i) (fa i) (fb i) (fc i) (fd i) (fe i) (ff i) (fg i) (fh i) := by
  induction constants generalizing window a b c d e f g h fw fa fb fc fd fe ff fg fh with
  | nil =>
    exact pa.cons (pb.cons (pc.cons (pd.cons (pe.cons (pf.cons (pg.cons (ph.cons packed_nil)))))))
  | cons k rest ih =>
    have constant := packed_const unit k (small k List.mem_cons_self)
    have oldest := pw.word unit wide (by omega)
    have t1 := ((oldest.add constant).widen (by decide : _ ≤ 34)).add
      ((ph.widen (by decide : _ ≤ 33)).add ((pe.bigSigma1 unit wide).add (pe.choose (by omega) pf pg)))
    have t2 := (pa.bigSigma0 unit wide).add (pa.majority (by omega) pb pc)
    have newA := (t1.add (t2.widen (by decide : _ ≤ 35))).word unit wide (by omega)
    have newE := ((pd.widen (by decide : _ ≤ 35)).add t1).word unit wide (by omega)
    have w1 := (pw.shift unit 32 (by omega) (by omega)).word unit wide (by omega)
    have w9 := (pw.shift unit 288 (by omega) (by omega)).word unit wide (by omega)
    have w14 := (pw.shift unit 448 (by omega) (by omega)).word unit wide (by omega)
    have newest := ((oldest.add (w1.smallSigma0 unit wide)).add
      (w9.add (w14.smallSigma1 unit wide))).word unit wide (by omega)
    have newWindow := (pw.shift unit 32 (by omega) (by omega)).lor wide (newest.shiftLeft 480)
    simp only [Lanes.rounds, Sha2.rounds, strict_eq]
    exact ih (fun k member => small k (List.mem_cons_of_mem _ member)) newWindow newA pa pb pc newE pe
      pf pg

/-- The sums of eight words, each reduced before they are packed again. -/
theorem Packed.addWords (left : Packed width ids 256 x f) (right : Packed width ids 256 y g) :
    Packed width ids 256 (Lanes.addWords width ones x y) fun i => Sha2.addWords (f i) (g i) := by
  have word (position : Nat) (early : position < 16) := ((left.wordAt unit wide (by omega) position early).add
    (right.wordAt unit wide (by omega) position early)).word unit wide (by omega)
  exact (word 0 (by decide)).cons ((word 1 (by decide)).cons ((word 2 (by decide)).cons
    ((word 3 (by decide)).cons ((word 4 (by decide)).cons ((word 5 (by decide)).cons
      ((word 6 (by decide)).cons ((word 7 (by decide)).cons packed_nil)))))))

/-- One block of every message. -/
theorem Packed.compress (state : Packed width ids 256 x f) (block : Packed width ids 512 y g) :
    Packed width ids 256 (Lanes.compress width ones x y) fun i => Sha2.compress (f i) (g i) := by
  have word (position : Nat) (early : position < 16) := state.wordAt unit wide (by omega) position early
  exact state.addWords unit wide (packed_rounds unit wide roundConstants (by decide) block
    (word 0 (by decide)) (word 1 (by decide)) (word 2 (by decide)) (word 3 (by decide))
    (word 4 (by decide)) (word 5 (by decide)) (word 6 (by decide)) (word 7 (by decide)))

end

/-! ## Messages with a common rest -/

/-- Packed words have 32 bits each. -/
theorem pack_small (words : List Nat) (small : ∀ w ∈ words, w < 2 ^ 32) :
    pack words < 2 ^ (32 * words.length) := by
  induction words with
  | nil => decide
  | cons w rest ih =>
    have here := small w List.mem_cons_self
    have later := ih fun v member => small v (List.mem_cons_of_mem w member)
    change w + 0x100000000 * pack rest < 2 ^ (32 * (rest.length + 1))
    rw [Nat.mul_add, Nat.pow_add]
    omega

/-- Four bytes make a word of 32 bits, and a text has no more words than
that. -/
theorem bigEndianWords_small (text : List UInt8) : (∀ w ∈ bigEndianWords text, w < 2 ^ 32) ∧
    4 * (bigEndianWords text).length ≤ text.length := by
  fun_induction bigEndianWords text with
  | case1 b0 b1 b2 b3 rest ih =>
    refine ⟨fun w member => ?_, ?_⟩
    · rcases List.mem_cons.mp member with rfl | later
      · have h0 := b0.toNat_lt
        have h1 := b1.toNat_lt
        have h2 := b2.toNat_lt
        have h3 := b3.toNat_lt
        change ((b0.toNat * 256 + b1.toNat) * 256 + b2.toNat) * 256 + b3.toNat < 2 ^ 32
        omega
      · exact ih.1 w later
    · have length := ih.2
      simp only [List.length_cons]
      omega
  | case2 text short => exact ⟨fun w member => absurd member List.not_mem_nil, Nat.zero_le _⟩

/-- A text is packed into as many bits as it has. -/
theorem block_small (text : List UInt8) (short : 8 * text.length ≤ bits) :
    pack (bigEndianWords text) < 2 ^ bits := by
  obtain ⟨small, length⟩ := bigEndianWords_small text
  exact lt_of_lt_of_le (pack_small _ small) (Nat.pow_le_pow_right (by decide) (by omega))

/-- The blocks of the common text, by induction on their number. -/
theorem Packed.digestBlocks {ones : Nat} (unit : ones = lanes width (fun _ => 1) ids)
    (wide : 512 ≤ width) (count : Nat) (text : List UInt8) (state : Packed width ids 256 x f) :
    Packed width ids 256 (Lanes.digestBlocks width ones count x text)
      fun i => Sha2.digestBlocks count (f i) text := by
  induction count generalizing x f text with
  | zero => exact state
  | succ count ih =>
    have length := List.length_take_le 64 text
    have block := packed_const unit _ (block_small (text.take 64) (by omega : _ ≤ 512))
    simp only [Lanes.digestBlocks, Sha2.digestBlocks, strict_eq]
    exact ih (text.drop 64) (state.compress unit wide block)

/-! ## Many digests in one evaluation

The first two blocks of every message are given as codes, one natural number for each byte, and the
other blocks are common. -/

/-- Codes read as big-endian words. -/
def codeWords : List Nat → List Nat
  | b0 :: b1 :: b2 :: b3 :: rest =>
    Nat.add (Nat.mul (Nat.add (Nat.mul (Nat.add (Nat.mul b0 256) b1) 256) b2) 256) b3 :: codeWords rest
  | _ => []

/-- The codes of a text give the words of the text. -/
theorem codeWords_map (text : List UInt8) : codeWords (text.map UInt8.toNat) = bigEndianWords text := by
  fun_induction bigEndianWords text with
  | case1 b0 b1 b2 b3 rest ih => simp only [List.map_cons, codeWords, ih]
  | case2 text short =>
    match text, short with
    | [], _ | [_], _ | [_, _], _ | [_, _, _], _ => rfl
    | b0 :: b1 :: b2 :: b3 :: rest, short => exact absurd rfl (short b0 b1 b2 b3 rest)

/-- A text of whole words is read word by word before the rest is. -/
theorem bigEndianWords_append (text rest : List UInt8) (count : Nat) (length : text.length = 4 * count) :
    bigEndianWords (text ++ rest) = bigEndianWords text ++ bigEndianWords rest ∧
      (bigEndianWords text).length = count := by
  induction count generalizing text with
  | zero =>
    obtain rfl := List.eq_nil_of_length_eq_zero length
    exact ⟨rfl, rfl⟩
  | succ count ih =>
    match text, length with
    | b0 :: b1 :: b2 :: b3 :: text, length =>
      obtain ⟨split, words⟩ := ih text (by simp only [List.length_cons] at length; omega)
      exact ⟨by simp only [List.cons_append, bigEndianWords, split], by simp [bigEndianWords, words]⟩
    | [], length | [_], length | [_, _], length | [_, _, _], length =>
      simp only [List.length_cons, List.length_nil] at length
      omega

/-- Words that follow are packed above the words before them. -/
theorem pack_append (words rest : List Nat) :
    pack (words ++ rest) = pack words + 2 ^ (32 * words.length) * pack rest := by
  induction words with
  | nil => simp [pack]
  | cons w words ih =>
    change w + 0x100000000 * pack (words ++ rest) =
      w + 0x100000000 * pack words + 2 ^ (32 * (words.length + 1)) * pack rest
    rw [ih, Nat.mul_add 32, Nat.pow_add]
    ring

/-- A number of ones. -/
def lowBits (count : Nat) : Nat := Nat.sub (Nat.pow 2 count) 1

/-- The ones fit into their number of bits. -/
theorem lowBits_lt (count : Nat) : lowBits count < 2 ^ count :=
  Nat.sub_lt (Nat.two_pow_pos count) Nat.one_pos

/-- What is shifted out is no longer counted. -/
theorem shiftRight_lt {n shift : Nat} (small : n < 2 ^ more) (sum : shift + bits = more) :
    Nat.shiftRight n shift < 2 ^ bits := by
  subst sum
  change n >>> shift < 2 ^ bits
  rw [Nat.shiftRight_eq_div_pow]
  exact Nat.div_lt_of_lt_mul (by rwa [← Nat.pow_add])

/-- A text in one number, taken apart after some words. -/
theorem pack_split (first second : List UInt8) (count size : Nat) (length : first.length = 4 * count)
    (bits : 32 * count = size) :
    Nat.land (pack (bigEndianWords (first ++ second))) (lowBits size) = pack (bigEndianWords first) ∧
      Nat.shiftRight (pack (bigEndianWords (first ++ second))) size = pack (bigEndianWords second) := by
  obtain ⟨split, words⟩ := bigEndianWords_append first second count length
  have small : pack (bigEndianWords first) < 2 ^ size := block_small first (by omega)
  rw [split, pack_append, words, bits]
  constructor
  · refine (Nat.and_two_pow_sub_one_eq_mod _ size).trans ?_
    rw [Nat.add_mul_mod_self_left, Nat.mod_eq_of_lt small]
  · refine (Nat.shiftRight_eq_div_pow _ size).trans ?_
    rw [Nat.add_mul_div_left _ _ (Nat.two_pow_pos size), Nat.div_eq_of_lt small, Nat.zero_add]

/-- The code of a hexadecimal digit. -/
def hexCode (digit : Nat) : Nat := Nat.add digit (Nat.add 48 (Nat.mul 39 (Nat.div digit 10)))

/-- The code is that of the digit the program prints: letters start 39 above the
digits. -/
theorem hexCode_eq : ∀ digit < 16, hexCode digit = (hexDigit digit).toNat := by decide

/-- Where a byte of the digest starts in the chaining value. -/
def byteShift (i : Nat) : Nat := Nat.add (Nat.mul 32 (Nat.div i 4)) (Nat.mul 8 (Nat.sub 3 (Nat.mod i 4)))

/-- The codes of the hexadecimal digits of a digest. -/
def hexCodes (state : Nat) : List Nat :=
  (List.range 32).flatMap fun i =>
    strict (Nat.shiftRight state (byteShift i)) fun rest =>
      [hexCode (Nat.land (Nat.shiftRight rest 4) 15), hexCode (Nat.land rest 15)]

/-- A byte of the digest, cut from the whole chaining value instead of from one
of its words. -/
theorem digestByte (state i : Nat) :
    Nat.shiftRight (wordAt state (i / 4)) (8 * (3 - i % 4)) % 256 = Nat.shiftRight state (byteShift i) % 256 := by
  have shifts : byteShift i = 32 * (i / 4) + 8 * (3 - i % 4) := rfl
  generalize i / 4 = word at shifts ⊢
  have few : 8 * (3 - i % 4) ≤ 24 := by omega
  generalize 8 * (3 - i % 4) = count at few shifts ⊢
  have mask : wordAt state word = (state >>> (32 * word)) % 2 ^ 32 := Nat.and_two_pow_sub_one_eq_mod _ 32
  have cut : 2 ^ 32 = 2 ^ count * 2 ^ (32 - count) := by rw [← Nat.pow_add]; congr 1; omega
  have bytes : 256 ∣ 2 ^ (32 - count) := Nat.pow_dvd_pow 2 (show 8 ≤ 32 - count by omega)
  rw [shifts, mask]
  change (_ % 2 ^ 32) >>> count % 256 = state >>> (32 * word + count) % 256
  rw [Nat.shiftRight_add, Nat.shiftRight_eq_div_pow _ count, Nat.shiftRight_eq_div_pow _ count, cut,
    Nat.mod_mul_right_div_self, Nat.mod_mod_of_dvd _ bytes]

/-- The codes are those of the text that the program prints for the digest. -/
theorem hexCodes_eq (state : Nat) :
    hexCodes state = (hexText (digestBytes state).toList).map UInt8.toNat := by
  have bytes : (digestBytes state).toList = (List.range 32).map fun i =>
      (Nat.shiftRight (wordAt state (i / 4)) (8 * (3 - i % 4)) % 256).toUInt8 := by
    rw [digestBytes, Vector.toList_ofFn, List.ofFn_eq_map, ← List.map_coe_finRange_eq_range, List.map_map]
    rfl
  rw [bytes, hexText, List.flatMap_map, List.map_flatMap, hexCodes]
  refine List.flatMap_congr fun i member => ?_
  rw [digestByte, strict_eq]
  generalize Nat.shiftRight state (byteShift i) = rest
  have low : Nat.land rest 15 = rest % 16 := Nat.and_two_pow_sub_one_eq_mod rest 4
  have high : Nat.land (Nat.shiftRight rest 4) 15 = rest / 16 % 16 :=
    (Nat.and_two_pow_sub_one_eq_mod (rest >>> 4) 4).trans (by rw [Nat.shiftRight_eq_div_pow])
  have byte : (rest % 256).toUInt8.toNat = rest % 256 := Nat.mod_eq_of_lt (Nat.mod_lt _ (by decide))
  rw [low, high, hexCode_eq _ (Nat.mod_lt _ (by decide)), hexCode_eq _ (Nat.mod_lt _ (by decide)), hexByte,
    byte, show rest % 256 / 16 = rest / 16 % 16 by omega, show rest % 256 % 16 = rest % 16 by omega]
  rfl

/-- Whether the chaining values of the messages with these codes and this rest
are the given ones. -/
def Lanes.agree (width : Nat) (ids : List ι) (codes : ι → List Nat) (count : Nat) (rest : List UInt8)
    (result : ι → Nat) : Bool :=
  strict (lanes width (fun _ => 1) ids) fun ones =>
  strict (lanes width (fun i => pack (codeWords (codes i))) ids) fun start =>
  strict (compress width ones (Nat.mul ones initial) (keep ones (lowBits 512) start)) fun first =>
  strict (compress width ones first (shift width ones 512 start)) fun second =>
  Nat.beq (digestBlocks width ones count second rest) (lanes width result ids)

/-- One test of two large numbers gives the digests of all messages. The
chaining values after the two given blocks are computed in lanes, then the
common blocks, and equal numbers have equal lanes. -/
theorem digestBlocks_agree (wide : 1024 ≤ width) (ids : List ι) (codes : ι → List Nat) (count : Nat)
    (rest : List UInt8) (result : ι → Nat) (text : ι → List UInt8)
    (starts : ∀ i ∈ ids, codes i = (text i).map UInt8.toNat) (full : ∀ i ∈ ids, (text i).length = 128)
    (small : ∀ i ∈ ids, result i < 2 ^ 256) (agrees : Lanes.agree width ids codes count rest result = true) :
    ∀ i ∈ ids, Sha2.digestBlocks (count + 2) initial (text i ++ rest) = result i := by
  have unit : lanes width (fun _ => 1) ids = lanes width (fun _ => 1) ids := rfl
  have narrow : 512 ≤ width := by omega
  have start : Packed width ids 1024 (lanes width (fun i => pack (codeWords (codes i))) ids)
      fun i => pack (codeWords (codes i)) := by
    refine packed_lanes fun i member => ?_
    rw [starts i member, codeWords_map]
    exact block_small (text i) (by have := full i member; omega)
  have low := start.keep unit (lowBits 512) (lowBits_lt 512) wide narrow
  have shifted := start.shift unit 512 narrow wide
  have high : Packed width ids 512 _ fun i => Nat.shiftRight (pack (codeWords (codes i))) 512 :=
    ⟨shifted.same, fun i member => shiftRight_lt (start.small i member) rfl⟩
  have state := packed_const unit initial (by decide : initial < 2 ^ 256)
  have second := (state.compress unit narrow low).compress unit narrow high
  have last := second.digestBlocks unit narrow count rest
  simp only [Lanes.agree, strict_eq] at agrees
  have same := last.same.symm.trans (Nat.eq_of_beq_eq_true agrees)
  have wider := Nat.pow_le_pow_right (show 0 < 2 by decide) (show 256 ≤ width by omega)
  have results := lanes_injective width ids _ result (last.widen (by omega)).small
    (fun i member => lt_of_lt_of_le (small i member) wider) same
  intro i member
  have halves := List.take_append_drop 64 (text i)
  have firstFull : ((text i).take 64).length = 64 := by simp [full i member]
  have secondFull : ((text i).drop 64).length = 64 := by simp [full i member]
  obtain ⟨one, two⟩ := pack_split ((text i).take 64) ((text i).drop 64) 16 512 firstFull rfl
  rw [halves, ← codeWords_map, ← starts i member] at one two
  have result := results i member
  simp only [one, two] at result
  rw [← halves, List.append_assoc, digestBlocks_append _ _ _ _ firstFull,
    digestBlocks_append _ _ _ _ secondFull]
  exact result

end Sha2
