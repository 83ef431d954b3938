import Mathlib
import FiberMachine.Decimal.Magnitude

/-!
# The numbers that doubles denote

A finite double denotes a rational number, whose denominator is a power of two. Questions about
digits and about whole numbers are questions about this number.
-/

namespace FiberMachine

namespace Magnitude

variable {m : Magnitude}

/-- A magnitude without a sign: its mantissa counts units of `2 ^ (shift - 1074)`. -/
def rational (m : Magnitude) : ℚ := m.mantissa * 2 ^ m.shift / 2 ^ unitPlaces

theorem denominator_ne_zero (m : Magnitude) : (m.denominator : ℚ) ≠ 0 :=
  Nat.cast_ne_zero.mpr m.denominator_pos.ne'

theorem rational_eq_div (m : Magnitude) : m.rational = m.numerator / m.denominator := by
  have hmul : (m.numerator : ℚ) * 2 ^ unitPlaces = m.mantissa * 2 ^ m.shift * m.denominator := by
    have h := m.numerator_mul
    simp only [Nat.shiftLeft_eq] at h
    exact_mod_cast h
  rw [rational, eq_div_iff m.denominator_ne_zero, div_mul_eq_mul_div, ← hmul]
  exact mul_div_cancel_right₀ _ (by positivity)

theorem rational_pos (hm : m.mantissa ≠ 0) : 0 < m.rational := by
  have hpos : (0 : ℚ) < m.mantissa := Nat.cast_pos.mpr (Nat.pos_of_ne_zero hm)
  rw [rational]
  positivity

/-- A whole number is the quotient without a remainder. -/
theorem rational_eq_natCast_iff {n : ℕ} :
    m.rational = n ↔ m.isIntegral = true ∧ m.numerator / m.denominator = n := by
  have hpos := m.denominator_pos
  have hnum : m.rational = n ↔ m.numerator = n * m.denominator := by
    rw [rational_eq_div, div_eq_iff m.denominator_ne_zero]
    exact_mod_cast Iff.rfl
  rw [hnum, isIntegral, beq_iff_eq]
  constructor
  · intro h
    rw [h]
    exact ⟨Nat.mul_mod_left n m.denominator, Nat.mul_div_cancel n hpos⟩
  · rintro ⟨hmod, hdiv⟩
    rw [← hdiv]
    exact (Nat.div_mul_cancel (Nat.dvd_of_mod_eq_zero hmod)).symm

end Magnitude

namespace Double

variable {x : Float} {negative : Bool} {m : Magnitude} {i : ℤ}

/-- A magnitude with a sign. -/
def signedRational (negative : Bool) (m : Magnitude) : ℚ :=
  if negative then -m.rational else m.rational

/-- The number that a double denotes, if it is finite. -/
def rational? (x : Float) : Option ℚ :=
  match ofFloat x with
  | .finite negative m => some (signedRational negative m)
  | _ => none

theorem rational?_of_finite (hx : ofFloat x = .finite negative m) :
    rational? x = some (signedRational negative m) := by
  rw [rational?, hx]

/-- The size of a number with a sign is not negative, so it is a natural number if it is whole. -/
theorem signedRational_eq_intCast_iff : signedRational negative m = i ↔
    ∃ n : ℕ, m.rational = n ∧ i = if negative then -(n : ℤ) else n := by
  have hsize : 0 ≤ m.rational := by
    rw [Magnitude.rational]
    positivity
  cases negative with
  | false =>
    simp only [signedRational, Bool.false_eq_true, ↓reduceIte]
    constructor
    · intro h
      have hi : 0 ≤ i := by exact_mod_cast h ▸ hsize
      exact ⟨i.toNat, by rw [h]; exact_mod_cast (Int.toNat_of_nonneg hi).symm,
        (Int.toNat_of_nonneg hi).symm⟩
    · rintro ⟨n, h, rfl⟩
      rw [h]
      rfl
  | true =>
    simp only [signedRational, ↓reduceIte]
    constructor
    · intro h
      have hneg : m.rational = -(i : ℚ) := by rw [← h, neg_neg]
      have hi : 0 ≤ -i := by exact_mod_cast hneg ▸ hsize
      refine ⟨(-i).toNat, ?_, ?_⟩
      · rw [hneg]
        exact_mod_cast (Int.toNat_of_nonneg hi).symm
      · rw [Int.toNat_of_nonneg hi, neg_neg]
    · rintro ⟨n, h, rfl⟩
      rw [h]
      push_cast
      rfl

/-- The whole number that is read from a double is the number that it denotes. -/
theorem toInt?_eq_some_iff : toInt? x = some i ↔ rational? x = some (i : ℚ) := by
  rw [toInt?, rational?]
  cases ofFloat x with
  | nan => simp only [reduceCtorEq]
  | infinite negative => simp only [reduceCtorEq]
  | finite negative m =>
    simp only [Option.some.injEq, signedRational_eq_intCast_iff, Magnitude.rational_eq_natCast_iff]
    cases m.isIntegral with
    | false => simp only [Bool.false_eq_true, ↓reduceIte, false_and, exists_false, reduceCtorEq]
    | true =>
      simp only [↓reduceIte, Option.some.injEq, true_and, exists_eq_left', Int.natCast_ediv]
      exact eq_comm

end Double

end FiberMachine
