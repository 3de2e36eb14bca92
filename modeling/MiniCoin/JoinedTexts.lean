import MiniCoin.ByteStrings

/-!
# Texts without separators

Numbers and other texts that are written one after another. A number has no leading zero, so
its digits determine it. Two numbers in a row are determined up to digits that move from the
front of the second number to the end of the first, and chunks of one width are determined
by their concatenation.
-/

namespace ByteStrings

/-! ## One number -/

theorem decimal_injective : Function.Injective decimal := by
  intro n m same
  have left := readDigits_decimal n [] (by simp)
  have right := readDigits_decimal m [] (by simp)
  rw [← left, ← right, same]

theorem decimal_width (n width : Nat) (lower : 10 ^ width ≤ n) (upper : n < 10 ^ (width + 1)) :
    (decimal n).length = width + 1 := by
  have most := decimal_length n (width + 1) upper (Nat.succ_pos width)
  have positive : 0 < n := lt_of_lt_of_le (Nat.pow_pos (by decide)) lower
  have least : width < (decimal n).length := by
    rw [decimal, if_neg (by omega), List.length_map, List.length_reverse]
    exact (Nat.lt_digits_length_iff (by decide) n).mpr lower
  omega

/-- A single digit. -/
theorem decimal_digit (n : Nat) (small : n < 10) : decimal n = [(48 + n).toUInt8] := by
  interval_cases n <;> decide

/-- The last digit is the remainder. -/
theorem decimal_step (n : Nat) (large : 10 ≤ n) : decimal n = decimal (n / 10) ++ decimal (n % 10) := by
  have digits := Nat.digits_def' (b := 10) (by decide) (show 0 < n by omega)
  have front : n / 10 ≠ 0 := by omega
  rw [decimal_digit (n % 10) (Nat.mod_lt n (by decide)), decimal, if_neg (by omega), decimal,
    if_neg front, digits]
  simp

/-- A number in front of another one is written like the number that both give
together. -/
theorem decimal_append (x y : Nat) (positive : 0 < x) :
    decimal (x * 10 ^ (decimal y).length + y) = decimal x ++ decimal y := by
  induction y using Nat.strong_induction_on with
  | _ y ih =>
    rcases Nat.lt_or_ge y 10 with small | large
    · have width : (decimal y).length = 1 := by rw [decimal_digit y small]; rfl
      rw [width, decimal_step _ (by omega)]
      congr 2 <;> omega
    · have split := decimal_step y large
      have last : (decimal (y % 10)).length = 1 := by
        rw [decimal_digit _ (Nat.mod_lt y (by decide))]
        rfl
      have width : (decimal y).length = (decimal (y / 10)).length + 1 := by
        rw [split, List.length_append, last]
      have front := ih (y / 10) (by omega)
      have positive' : 0 < x * 10 ^ (decimal (y / 10)).length :=
        Nat.mul_pos positive (Nat.pow_pos (by decide))
      rw [width, pow_succ, ← mul_assoc]
      generalize x * 10 ^ (decimal (y / 10)).length = shifted at front positive' ⊢
      rw [decimal_step _ (by omega), split, ← List.append_assoc, ← front]
      congr 2 <;> omega

/-- No number but zero starts with the digit zero. -/
theorem decimal_lead (n : Nat) (positive : 0 < n) : (decimal n).head? ≠ some 48 := by
  induction n using Nat.strong_induction_on with
  | _ n ih =>
    rcases Nat.lt_or_ge n 10 with small | large
    · interval_cases n <;> decide
    · rw [decimal_step n large, List.head?_append_of_ne_nil _ (decimal_ne_nil _)]
      exact ih (n / 10) (by omega) (by omega)

/-- Digits without a leading zero are the digits of some number. -/
theorem exists_decimal (text : List UInt8) (digits : ∀ c ∈ text, isDigit c = true)
    (nonempty : text ≠ []) (lead : text.head? ≠ some 48) : ∃ n, 0 < n ∧ decimal n = text := by
  induction text using List.reverseRecOn with
  | nil => exact absurd rfl nonempty
  | append_singleton front c ih =>
    have digit := digits c (by simp)
    simp only [isDigit, Bool.and_eq_true, decide_eq_true_eq] at digit
    have last : decimal (c.toNat - 48) = [c] := by
      rw [decimal_digit _ (by omega)]
      congr 1
      rw [show 48 + (c.toNat - 48) = c.toNat by omega]
      simp
    rcases List.eq_nil_or_concat front with rfl | ⟨_, _, shape⟩
    · refine ⟨c.toNat - 48, ?_, last⟩
      have other : c ≠ 48 := by simpa using lead
      have value : c.toNat ≠ 48 := fun same => other (UInt8.toNat_inj.mp same)
      omega
    · have frontNonempty : front ≠ [] := by simp [shape]
      obtain ⟨m, positive, printed⟩ := ih (fun d member => digits d (by simp [member])) frontNonempty
        (by rwa [List.head?_append_of_ne_nil _ frontNonempty] at lead)
      refine ⟨m * 10 ^ (decimal (c.toNat - 48)).length + (c.toNat - 48), ?_, ?_⟩
      · exact Nat.add_pos_left (Nat.mul_pos positive (Nat.pow_pos (by decide))) _
      · rw [decimal_append m _ positive, printed, last]

/-! ## Two numbers -/

/-- The leading digits of the second number of a pair have moved to the end of
the first. -/
def DigitsMoved (first second first' second' : Nat) : Prop :=
  0 < first ∧ ∃ moved, 0 < moved ∧ first' = first * 10 ^ (decimal moved).length + moved ∧
    second = moved * 10 ^ (decimal second').length + second'

theorem decimal_pair_of_moved {first second first' second' : Nat}
    (moved : DigitsMoved first second first' second') :
    decimal first ++ decimal second = decimal first' ++ decimal second' := by
  obtain ⟨positive, digits, some, rfl, rfl⟩ := moved
  rw [decimal_append _ _ positive, decimal_append _ _ some, List.append_assoc]

/-- If the first text of a pair is longer, then digits have moved. -/
theorem moved_of_longer {first second first' second' : Nat} (digits : List UInt8)
    (some : digits ≠ []) (longer : decimal first' = decimal first ++ digits)
    (shorter : decimal second = digits ++ decimal second') :
    DigitsMoved first second first' second' := by
  have twoDigits (n : Nat) (left right : List UInt8) (leftSome : left ≠ []) (rightSome : right ≠ [])
      (split : decimal n = left ++ right) : left.head? ≠ Option.some 48 := by
    have positive : 0 < n := by
      rcases Nat.eq_zero_or_pos n with rfl | positive
      · have lengths := congrArg List.length split
        have left' := List.length_pos_of_ne_nil leftSome
        have right' := List.length_pos_of_ne_nil rightSome
        rw [List.length_append, show (decimal 0).length = 1 from rfl] at lengths
        omega
      · exact positive
    have lead := decimal_lead n positive
    rwa [split, List.head?_append_of_ne_nil _ leftSome] at lead
  obtain ⟨moved, movedPositive, rfl⟩ := exists_decimal digits
    (fun c member => decimal_digits second c (by simp [shorter, member])) some
    (twoDigits second _ _ some (decimal_ne_nil _) shorter)
  have positive : 0 < first := by
    rcases Nat.eq_zero_or_pos first with rfl | positive
    · exact absurd rfl (twoDigits first' _ _ (decimal_ne_nil 0) some longer)
    · exact positive
  refine ⟨positive, moved, movedPositive, ?_, ?_⟩
  · exact decimal_injective (longer.trans (decimal_append first moved positive).symm)
  · exact decimal_injective (shorter.trans (decimal_append moved second' movedPositive).symm)

/-- Two pairs of numbers have the same text exactly if they are equal or digits
have moved. -/
theorem decimal_pair_iff (first second first' second' : Nat) :
    decimal first ++ decimal second = decimal first' ++ decimal second' ↔
      (first = first' ∧ second = second') ∨ DigitsMoved first second first' second' ∨
        DigitsMoved first' second' first second := by
  constructor
  · intro same
    rcases List.append_eq_append_iff.mp same with ⟨digits, longer, shorter⟩ | ⟨digits, longer, shorter⟩
    · rcases List.eq_nil_or_concat digits with rfl | ⟨_, _, shape⟩
      · rw [List.append_nil] at longer
        exact Or.inl ⟨decimal_injective longer.symm, decimal_injective shorter⟩
      · exact Or.inr (Or.inl (moved_of_longer digits (by simp [shape]) longer shorter))
    · rcases List.eq_nil_or_concat digits with rfl | ⟨_, _, shape⟩
      · rw [List.append_nil] at longer
        exact Or.inl ⟨decimal_injective longer, decimal_injective shorter.symm⟩
      · exact Or.inr (Or.inr (moved_of_longer digits (by simp [shape]) longer shorter))
  · rintro (⟨rfl, rfl⟩ | moved | moved)
    · rfl
    · exact decimal_pair_of_moved moved
    · exact (decimal_pair_of_moved moved).symm

/-- A pair that differs from the one its digits moved to. -/
theorem DigitsMoved.ne {first second first' second' : Nat}
    (moved : DigitsMoved first second first' second') : first ≠ first' := by
  obtain ⟨positive, digits, some, rfl, -⟩ := moved
  have wide : 1 < 10 ^ (decimal digits).length :=
    Nat.one_lt_pow (List.length_pos_of_ne_nil (decimal_ne_nil _)).ne' (by decide)
  have grows : first < first * 10 ^ (decimal digits).length := (Nat.lt_mul_iff_one_lt_right positive).mpr wide
  omega

/-! ## A text of fixed length between two others -/

/-- If the text in front grows, then what it gains is lost at the front of the
middle text, which gains as much at its end. -/
theorem slid_of_longer (first middle last first' middle' last' : List UInt8)
    (width : middle.length = middle'.length) (longer : first.length < first'.length)
    (short : first'.length ≤ first.length + middle.length)
    (same : first ++ (middle ++ last) = first' ++ (middle' ++ last')) :
    ∃ front common back, front ≠ [] ∧ front.length = back.length ∧ first' = first ++ front ∧
      middle = front ++ common ∧ middle' = common ++ back ∧ last = back ++ last' := by
  obtain ⟨front, rfl⟩ : ∃ front, first' = first ++ front := by
    have lead : first <+: first' ++ (middle' ++ last') := same ▸ List.prefix_append _ _
    obtain ⟨front, split⟩ := List.prefix_of_prefix_length_le lead (List.prefix_append _ _) longer.le
    exact ⟨front, split.symm⟩
  rw [List.length_append] at longer short
  rw [List.append_assoc, List.append_cancel_left_eq] at same
  obtain ⟨common, rfl⟩ : ∃ common, middle = front ++ common := by
    have lead : front <+: middle ++ last := same ▸ List.prefix_append _ _
    obtain ⟨common, split⟩ := List.prefix_of_prefix_length_le lead (List.prefix_append _ _) (by omega)
    exact ⟨common, split.symm⟩
  rw [List.length_append] at width
  rw [List.append_assoc, List.append_cancel_left_eq] at same
  obtain ⟨back, rfl⟩ : ∃ back, middle' = common ++ back := by
    have lead : common <+: middle' ++ last' := same ▸ List.prefix_append _ _
    obtain ⟨back, split⟩ := List.prefix_of_prefix_length_le lead (List.prefix_append _ _) (by omega)
    exact ⟨back, split.symm⟩
  rw [List.length_append] at width
  rw [List.append_assoc, List.append_cancel_left_eq] at same
  exact ⟨front, common, back, List.ne_nil_of_length_pos (by omega), by omega, rfl, rfl, rfl, same⟩

/-! ## Chunks -/

/-- Chunks of one width can be told apart. -/
theorem chunks_eq (width : Nat) (left right : List (List UInt8)) (positive : 0 < width)
    (leftWidth : ∀ chunk ∈ left, chunk.length = width)
    (rightWidth : ∀ chunk ∈ right, chunk.length = width) (same : left.flatten = right.flatten) :
    left = right := by
  have total (chunks : List (List UInt8)) (each : ∀ chunk ∈ chunks, chunk.length = width) :
      chunks.map List.length = List.replicate chunks.length width :=
    List.eq_replicate_iff.mpr ⟨List.length_map _, fun length member => by
      obtain ⟨chunk, inChunks, rfl⟩ := List.mem_map.mp member
      exact each chunk inChunks⟩
  have lengths := congrArg List.length same
  rw [List.length_flatten, List.length_flatten, total left leftWidth, total right rightWidth,
    List.sum_replicate_nat, List.sum_replicate_nat] at lengths
  have count : left.length = right.length := Nat.eq_of_mul_eq_mul_right positive lengths
  exact List.eq_iff_flatten_eq.mpr
    ⟨same, by rw [total left leftWidth, total right rightWidth, count]⟩

/-- So can a text in front of chunks, if its length is known up to less than the
width. -/
theorem chunks_behind (width least : Nat) (left right : List UInt8)
    (leftChunks rightChunks : List (List UInt8)) (positive : 0 < width)
    (leftWidth : ∀ chunk ∈ leftChunks, chunk.length = width)
    (rightWidth : ∀ chunk ∈ rightChunks, chunk.length = width)
    (leftLength : least ≤ left.length ∧ left.length < least + width)
    (rightLength : least ≤ right.length ∧ right.length < least + width)
    (same : left ++ leftChunks.flatten = right ++ rightChunks.flatten) :
    left = right ∧ leftChunks = rightChunks := by
  have multiple (chunks : List (List UInt8)) (each : ∀ chunk ∈ chunks, chunk.length = width) :
      ∃ count, chunks.flatten.length = width * count := by
    induction chunks with
    | nil => exact ⟨0, rfl⟩
    | cons chunk rest ih =>
      obtain ⟨count, others⟩ := ih fun other member => each other (by simp [member])
      refine ⟨count + 1, ?_⟩
      rw [List.flatten_cons, List.length_append, each chunk (by simp), others, Nat.mul_succ, Nat.add_comm]
  obtain ⟨leftCount, leftTotal⟩ := multiple leftChunks leftWidth
  obtain ⟨rightCount, rightTotal⟩ := multiple rightChunks rightWidth
  have lengths := congrArg List.length same
  rw [List.length_append, List.length_append, leftTotal, rightTotal] at lengths
  have counts : leftCount = rightCount := by
    rcases Nat.lt_trichotomy leftCount rightCount with less | equal | more
    · have := Nat.mul_le_mul_left width (Nat.succ_le_of_lt less)
      rw [Nat.mul_succ] at this
      omega
    · exact equal
    · have := Nat.mul_le_mul_left width (Nat.succ_le_of_lt more)
      rw [Nat.mul_succ] at this
      omega
  subst counts
  obtain ⟨texts, chunks⟩ := List.append_inj same (by omega)
  exact ⟨texts, chunks_eq width _ _ positive leftWidth rightWidth chunks⟩

end ByteStrings
