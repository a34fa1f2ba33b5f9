import Mathlib.Tactic.Lemma
import QueryPlan.Double.Shortest

/-!
# The numbers of doubles

Every bit pattern but a NaN stands for a number (`Double.number?`): an infinity, or a whole multiple
of `2^-1074`, the smallest positive double, so that no fractions are needed. A size fixes the
exponent and the fraction (`Double.size_inj`), because the leading bit of the coefficient stands at
one place unless the exponent is the smallest. So a number is that of one bit pattern, except that
zero has two (`Double.eq_or_isZero`), and `Double.same` is the equality of numbers
(`Double.same_iff_number`).
-/

namespace QueryPlan

/-- A number that a double can stand for. -/
inductive Number where
  /-- So many times `2^-1074`, the smallest positive double. -/
  | finite (units : Int)
  | infinite (negative : Bool)
deriving DecidableEq

namespace Double

/-- The size of a finite double in units of `2^-1074`. -/
def size (x : Double) : Nat := x.binary.coefficient * Nat.pow 2 (x.binary.power + 1074).toNat

/-- The number that a bit pattern stands for; a NaN stands for none. -/
def number? (x : Double) : Option Number :=
  if x.isNaN then none
  else if x.isInfinite then some (.infinite x.isNegative)
  else some (.finite (if x.isNegative then -x.size else x.size))

variable {x y : Double}

/-! ### The fields of a bit pattern -/

/-- The fraction is what remains below the fifty-third bit. -/
lemma fraction_eq (x : Double) : x.fraction = x.bits.toNat % 0x10000000000000 := by
  rw [fraction, UInt64.toNat_and]
  exact Nat.and_two_pow_sub_one_eq_mod _ 52

/-- The exponent is read from the eleven bits above the fraction. -/
lemma exponent_eq (x : Double) : x.exponent = x.bits.toNat / 0x10000000000000 % 2048 := by
  rw [exponent, UInt64.toNat_and, UInt64.toNat_shiftRight, Nat.shiftRight_eq_div_pow]
  exact Nat.and_two_pow_sub_one_eq_mod _ 11

/-- A double is negative if the bit of the highest value is set. -/
lemma isNegative_eq (x : Double) :
    x.isNegative = decide (0x8000000000000000 ≤ x.bits.toNat) := by
  have hlt := x.bits.toNat_lt
  have hsign : (x.bits >>> 63).toNat = x.bits.toNat / 0x8000000000000000 := by
    rw [UInt64.toNat_shiftRight, Nat.shiftRight_eq_div_pow]
    rfl
  rw [isNegative, Bool.eq_iff_iff, beq_iff_eq, decide_eq_true_iff, ← UInt64.toNat_inj, hsign]
  show _ = 1 ↔ _
  omega

/-- The fraction has fifty-two bits. -/
lemma fraction_lt (x : Double) : x.fraction < 0x10000000000000 := by
  rw [fraction_eq]
  exact Nat.mod_lt _ (by decide)

/-- The three fields are the whole bit pattern. -/
lemma eq_of_fields (hnegative : x.isNegative = y.isNegative) (hexponent : x.exponent = y.exponent)
    (hfraction : x.fraction = y.fraction) : x = y := by
  rw [isNegative_eq, isNegative_eq, decide_eq_decide] at hnegative
  rw [exponent_eq, exponent_eq] at hexponent
  rw [fraction_eq, fraction_eq] at hfraction
  have hbits : x.bits.toNat = y.bits.toNat := by
    have hx := x.bits.toNat_lt
    have hy := y.bits.toNat_lt
    omega
  cases x
  cases y
  exact congrArg mk (UInt64.toNat_inj.1 hbits)

/-! ### Sizes -/

/-- With the smallest exponent the size is the fraction. -/
lemma size_of_exponent_zero (h : x.exponent = 0) : x.size = x.fraction := by
  rw [size, binary, if_pos h]
  exact Nat.mul_one _

/-- Any other exponent adds a leading bit to the fraction and shifts the two. -/
lemma size_of_exponent_pos (h : x.exponent ≠ 0) :
    x.size = (0x10000000000000 + x.fraction) * Nat.pow 2 (x.exponent - 1) := by
  have hpower : ((x.exponent : Int) - 1075 + 1074).toNat = x.exponent - 1 := by omega
  rw [size, binary, if_neg h, hpower]

/-- Where the leading bit stands tells the power of two. -/
lemma power_le {f g i j : Nat} (hf : f < 0x10000000000000)
    (h : (0x10000000000000 + f) * Nat.pow 2 i = (0x10000000000000 + g) * Nat.pow 2 j) : j ≤ i := by
  apply Nat.le_of_not_lt
  intro hij
  have hpos : 0 < Nat.pow 2 i := Nat.two_pow_pos i
  have hpow : Nat.pow 2 i * 2 ≤ Nat.pow 2 j := Nat.pow_le_pow_right (n := 2) (by decide) hij
  refine absurd h (Nat.ne_of_lt ?_)
  calc
    (0x10000000000000 + f) * Nat.pow 2 i < 0x20000000000000 * Nat.pow 2 i :=
      Nat.mul_lt_mul_of_pos_right (by omega) hpos
    _ = 0x10000000000000 * (Nat.pow 2 i * 2) := by omega
    _ ≤ 0x10000000000000 * Nat.pow 2 j := Nat.mul_le_mul_left _ hpow
    _ ≤ (0x10000000000000 + g) * Nat.pow 2 j := Nat.mul_le_mul_right _ (Nat.le_add_right _ _)

/-- A size with a leading bit is not below the value of this bit. -/
lemma size_pos_of_exponent_pos (h : x.exponent ≠ 0) : 0x10000000000000 ≤ x.size := by
  rw [size_of_exponent_pos h]
  exact Nat.le_trans (Nat.le_add_right _ _) (Nat.le_mul_of_pos_right _ (Nat.two_pow_pos _))

/-- The size of a double determines its exponent and its fraction. -/
theorem size_inj (h : x.size = y.size) : x.exponent = y.exponent ∧ x.fraction = y.fraction := by
  have hx := x.fraction_lt
  have hy := y.fraction_lt
  by_cases hx₀ : x.exponent = 0 <;> by_cases hy₀ : y.exponent = 0
  · rw [size_of_exponent_zero hx₀, size_of_exponent_zero hy₀] at h
    exact ⟨hx₀.trans hy₀.symm, h⟩
  · have hsize := size_pos_of_exponent_pos hy₀
    rw [← h, size_of_exponent_zero hx₀] at hsize
    omega
  · have hsize := size_pos_of_exponent_pos hx₀
    rw [h, size_of_exponent_zero hy₀] at hsize
    omega
  · rw [size_of_exponent_pos hx₀, size_of_exponent_pos hy₀] at h
    have hexponent : x.exponent = y.exponent := by
      have hle := power_le hx h
      have hge := power_le hy h.symm
      omega
    rw [hexponent] at h
    have hfraction := Nat.eq_of_mul_eq_mul_right (Nat.two_pow_pos _) h
    exact ⟨hexponent, Nat.add_left_cancel hfraction⟩

/-- The zeros are the doubles of size zero. -/
lemma isZero_iff : x.isZero = true ↔ x.size = 0 := by
  rw [isZero, Bool.and_eq_true, beq_iff_eq, beq_iff_eq]
  constructor
  · rintro ⟨hexponent, hfraction⟩
    rw [size_of_exponent_zero hexponent, hfraction]
  · intro hsize
    have hexponent : x.exponent = 0 := by
      by_cases h : x.exponent = 0
      · exact h
      · have hpos := size_pos_of_exponent_pos h
        omega
    exact ⟨hexponent, size_of_exponent_zero hexponent ▸ hsize⟩

/-! ### Agreement -/

/-- The number of a double is an infinity or its size, with the sign of the double. -/
lemma number?_eq_some_iff {v : Number} :
    x.number? = some v ↔ x.isNaN = false ∧
      (x.isInfinite = true ∧ v = .infinite x.isNegative ∨
        x.isInfinite = false ∧ v = .finite (if x.isNegative then -x.size else x.size)) := by
  rw [number?]
  cases x.isNaN <;> cases x.isInfinite <;> simp [eq_comm (a := v)]

/-- A double that is no NaN stands for a number. -/
lemma exists_number (h : x.isNaN = false) : ∃ v, x.number? = some v := by
  rcases hinfinite : x.isInfinite with _ | _
  · exact ⟨_, number?_eq_some_iff.2 ⟨h, .inr ⟨hinfinite, rfl⟩⟩⟩
  · exact ⟨_, number?_eq_some_iff.2 ⟨h, .inl ⟨hinfinite, rfl⟩⟩⟩

/-- A zero of either sign stands for the number zero. -/
lemma number?_of_isZero (h : x.isZero = true) : x.number? = some (.finite 0) := by
  have hsize := isZero_iff.1 h
  rw [isZero, Bool.and_eq_true, beq_iff_eq] at h
  have hnan : x.isNaN = false := by simp [isNaN, h.1]
  have hfinite : x.isInfinite = false := by simp [isInfinite, h.1]
  refine number?_eq_some_iff.2 ⟨hnan, .inr ⟨hfinite, ?_⟩⟩
  rw [hsize]
  cases x.isNegative <;> rfl

/-- Signed sizes are equal only if the sizes are, and the signs too unless the sizes are zero. -/
lemma signed_inj {a b : Bool} {k m : Nat}
    (h : (if a then -(k : Int) else k) = if b then -(m : Int) else m) :
    k = m ∧ (k = 0 ∨ a = b) := by
  cases a <;> cases b <;> simp only [if_true, if_false, Bool.false_eq_true] at h <;>
    simp only [or_true, and_true, reduceCtorEq, or_false] <;> omega

/-- Bit patterns for one number are equal, or they are those of the two zeros. -/
theorem eq_or_isZero {v : Number} (hx : x.number? = some v) (hy : y.number? = some v) :
    x = y ∨ (x.isZero = true ∧ y.isZero = true) := by
  obtain ⟨-, ⟨hx', hv⟩ | ⟨-, hv⟩⟩ := number?_eq_some_iff.1 hx <;>
    obtain ⟨-, ⟨hy', hv'⟩ | ⟨-, hv'⟩⟩ := number?_eq_some_iff.1 hy
  · rw [hv, Number.infinite.injEq] at hv'
    rw [isInfinite, Bool.and_eq_true, beq_iff_eq, beq_iff_eq] at hx' hy'
    exact .inl (eq_of_fields hv' (hx'.1.trans hy'.1.symm) (hx'.2.trans hy'.2.symm))
  · cases hv.symm.trans hv'
  · cases hv.symm.trans hv'
  · rw [hv, Number.finite.injEq] at hv'
    obtain ⟨hsize, hzero | hnegative⟩ := signed_inj hv'
    · exact .inr ⟨isZero_iff.2 hzero, isZero_iff.2 (hsize ▸ hzero)⟩
    · obtain ⟨hexponent, hfraction⟩ := size_inj hsize
      exact .inl (eq_of_fields hnegative hexponent hfraction)

/-- Doubles are the same exactly when they stand for one number. -/
theorem same_iff_number : x.same y = true ↔ ∃ v, x.number? = some v ∧ y.number? = some v := by
  rw [same, Bool.and_eq_true, Bool.and_eq_true, Bool.not_eq_true', Bool.not_eq_true',
    Bool.or_eq_true, beq_iff_eq, Bool.and_eq_true]
  constructor
  · rintro ⟨⟨hx, -⟩, rfl | ⟨hx₀, hy₀⟩⟩
    · obtain ⟨v, hv⟩ := exists_number hx
      exact ⟨v, hv, hv⟩
    · exact ⟨_, number?_of_isZero hx₀, number?_of_isZero hy₀⟩
  · rintro ⟨v, hx, hy⟩
    exact ⟨⟨(number?_eq_some_iff.1 hx).1, (number?_eq_some_iff.1 hy).1⟩, eq_or_isZero hx hy⟩

end Double
end QueryPlan
