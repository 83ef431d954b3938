import FiberMachine.Proofs.Decimal.Rounding

/-!
# Significant digits

A positive fraction is rounded in the decade that it lies in, and the zeros that are taken from the
end change nothing. The power of ten that the first digit counts is the decade of the decimal.
-/

namespace FiberMachine

namespace Decimal

variable {d : Decimal} {num den places n : ℕ} {e : ℤ}

/-- The number that a decimal denotes. -/
def rational (d : Decimal) : ℚ := d.significand * 10 ^ d.exponent

/-! ## The decade of a fraction -/

theorem inDecade_div_iff (hden : 0 < den) : InDecade (num / den) e ↔
    (10 : ℚ) ^ e * den ≤ num ∧ (num : ℚ) < 10 ^ (e + 1) * den := by
  have hpos : (0 : ℚ) < den := Nat.cast_pos.mpr hden
  rw [InDecade, le_div_iff₀ hpos, div_lt_iff₀ hpos]

/-- A fraction that is at least one begins where its whole part begins. -/
theorem inDecade_of_le (hden : 0 < den) (hle : den ≤ num) :
    InDecade (num / den) (log10 (num / den)) := by
  have hpos : 0 < num / den := Nat.div_pos hle hden
  have hlow : 10 ^ log10 (num / den) ≤ num / den := pow_log10_le hpos
  have hhigh : num / den < 10 ^ (log10 (num / den) + 1) := lt_pow_log10_succ _
  rw [inDecade_div_iff hden]
  constructor
  · exact_mod_cast (Nat.le_div_iff_mul_le hden).mp hlow
  · exact_mod_cast (Nat.div_lt_iff_lt_mul hden).mp hhigh

/-- One below one begins where the number above its inverse does, counted downward. -/
theorem inDecade_of_lt (hnum : 0 < num) (hlt : num < den) :
    InDecade (num / den) (-(log10 ((den + num - 1) / num - 1) + 1 : ℤ)) := by
  have hden : 0 < den := hnum.trans hlt
  generalize hc : (den + num - 1) / num = c
  have hc₂ : 2 ≤ c := by
    rw [← hc, Nat.le_div_iff_mul_le hnum]
    omega
  have hbelow : (c - 1) * num < den := by
    have h := Nat.div_mul_le_self (den + num - 1) num
    rw [hc] at h
    rw [Nat.sub_mul, one_mul]
    omega
  have habove : den ≤ c * num := by
    have h := Nat.lt_mul_div_succ (den + num - 1) hnum
    rw [hc, Nat.mul_add, mul_one, mul_comm] at h
    omega
  generalize hj : log10 (c - 1) = j
  have hlow : 10 ^ j ≤ c - 1 := hj ▸ pow_log10_le (by omega)
  have hhigh : c - 1 < 10 ^ (j + 1) := hj ▸ lt_pow_log10_succ _
  have hle : den ≤ 10 ^ (j + 1) * num := habove.trans (Nat.mul_le_mul_right _ (by omega))
  have hlt' : 10 ^ j * num < den := (Nat.mul_le_mul_right _ hlow).trans_lt hbelow
  have hsucc : -((j : ℤ) + 1) + 1 = -(j : ℤ) := by ring
  have hcast : ((j : ℤ) + 1) = ((j + 1 : ℕ) : ℤ) := by push_cast; rfl
  rw [inDecade_div_iff hden, hsucc, hcast, zpow_neg, zpow_neg, zpow_natCast, zpow_natCast,
    inv_mul_le_iff₀ (by positivity), lt_inv_mul_iff₀ (by positivity)]
  exact ⟨by exact_mod_cast hle, by exact_mod_cast hlt'⟩

theorem inDecade_leadingExponent (hnum : 0 < num) (hden : 0 < den) :
    InDecade (num / den) (leadingExponent num den) := by
  unfold leadingExponent
  split
  · rename_i hle
    exact inDecade_of_le hden hle
  · rename_i hlt
    exact inDecade_of_lt hnum (Nat.not_le.mp hlt)

/-! ## Rounding a fraction -/

theorem scaled_div (num den : ℕ) (unit : ℤ) :
    ((scaled num den unit).1 : ℚ) / (scaled num den unit).2 = num / den / 10 ^ unit := by
  have hunit : (10 : ℚ) ^ unit = 10 ^ unit.toNat / 10 ^ (-unit).toNat := by
    rw [← zpow_natCast, ← zpow_natCast, ← zpow_sub₀ (by norm_num), Int.toNat_sub_toNat_neg]
  have hpow : ∀ n, Nat.pow 10 n = 10 ^ n := fun _ => rfl
  simp only [scaled, hpow, hunit]
  push_cast
  field_simp

/-- A fraction is rounded to the nearest multiple of a power of ten. -/
theorem isNearest_nearest (hden : 0 < den) (unit : ℤ) :
    IsNearest (num / den) (10 ^ unit) (nearest .toEven num den unit).significand := by
  have hpos : 0 < (scaled num den unit).2 := Nat.mul_pos hden (Nat.pow_pos (by decide))
  rw [← isNearest_div_iff (by positivity), ← scaled_div]
  exact isNearest_roundQuotient hpos

theorem isRounded_significant (hnum : 0 < num) (hden : 0 < den) :
    IsRounded places (num / den) (significant places num den).rational :=
  ⟨leadingExponent num den, _, inDecade_leadingExponent hnum hden, isNearest_nearest hden _, rfl⟩

/-- Rounding up to a power of ten gives a digit more than is wanted, and no others do. -/
theorem significand_significant_le (hnum : 0 < num) (hden : 0 < den) :
    (significant (places + 1) num den).significand ≤ 10 ^ (places + 1) :=
  ((isNearest_nearest hden _).bounds (inDecade_leadingExponent hnum hden)).2

/-- A number that is rounded to significant digits is rounded in the same way once more, as far as
the power of ten that belongs to the decade of the result. -/
theorem rational_nearest {D : ℚ} (hden : 0 < den) (hD : IsRounded (places + 1) (num / den) D)
    (hdecade : InDecade D e) : (nearest .toEven num den (e - places)).rational = D := by
  obtain ⟨k, hk, rfl⟩ := hD.isNearest hdecade
  obtain rfl := (isNearest_nearest hden (e - places)).unique (by positivity) hk
  rfl

/-! ## Zeros at the end -/

theorem rational_dropZeros (d : Decimal) (fuel : ℕ) : (dropZeros d fuel).rational = d.rational := by
  induction fuel generalizing d with
  | zero => rfl
  | succ fuel ih =>
    rw [dropZeros]
    split
    · rename_i hzero
      have hten : d.significand = d.significand / 10 * 10 :=
        (Nat.div_mul_cancel (Nat.dvd_of_mod_eq_zero hzero)).symm
      rw [ih, rational, rational, zpow_add_one₀ (by norm_num)]
      conv_rhs => rw [hten]
      push_cast
      ring
    · rfl

/-- A significand has fewer zeros at the end than digits. -/
theorem dropZeros_mod (d : Decimal) {fuel : ℕ} (hpos : 0 < d.significand)
    (hlt : d.significand < 10 ^ (fuel + 1)) : (dropZeros d fuel).significand % 10 ≠ 0 := by
  induction fuel generalizing d with
  | zero =>
    rw [dropZeros]
    omega
  | succ fuel ih =>
    rw [dropZeros]
    split
    · rename_i hzero
      apply ih
      · exact Nat.div_pos (Nat.le_of_dvd hpos (Nat.dvd_of_mod_eq_zero hzero)) (by decide)
      · rw [Nat.div_lt_iff_lt_mul (by decide), ← pow_succ]
        exact hlt
    · assumption

theorem rational_normalize (d : Decimal) : d.normalize.rational = d.rational := by
  unfold normalize
  split
  · rfl
  · exact rational_dropZeros d _

theorem normalize_mod (hpos : 0 < d.significand) : d.normalize.significand % 10 ≠ 0 := by
  unfold normalize
  rw [if_neg hpos.ne']
  exact dropZeros_mod d hpos (lt_pow_log10_succ _)

theorem significand_pos_iff : 0 < d.significand ↔ 0 < d.rational := by
  have hunit : (0 : ℚ) < 10 ^ d.exponent := by positivity
  rw [rational, mul_pos_iff_of_pos_right hunit, Nat.cast_pos]

/-! ## The first digit -/

theorem length_digits_pos (d : Decimal) : 0 < d.digits.length := Nat.length_toDigits_pos

/-- The first digit of a decimal counts the power of ten where the number begins. -/
theorem inDecade_leading (hpos : 0 < d.significand) : InDecade d.rational d.leading := by
  obtain ⟨n, hn⟩ : ∃ n, d.digits.length = n + 1 := ⟨_, (Nat.succ_pred d.length_digits_pos.ne').symm⟩
  have hhigh : d.significand < 10 ^ (n + 1) :=
    (Nat.length_toDigits_le_iff (by decide) n.succ_pos).mp hn.le
  have hlow : 10 ^ n ≤ d.significand := by
    rcases n with _ | n
    · exact hpos
    · refine Nat.not_lt.mp fun hlt => ?_
      have hle := (Nat.length_toDigits_le_iff (by decide) n.succ_pos).mpr hlt
      rw [← digits, hn] at hle
      omega
  have hlead : d.leading = n + d.exponent := by
    rw [leading, hn]
    push_cast
    ring
  have hunit : (0 : ℚ) < 10 ^ d.exponent := by positivity
  rw [InDecade, hlead, add_right_comm, zpow_add₀ (by norm_num), zpow_add₀ (by norm_num), rational]
  constructor
  · exact mul_le_mul_of_nonneg_right (by exact_mod_cast hlow) hunit.le
  · exact mul_lt_mul_of_pos_right (by exact_mod_cast hhigh) hunit

end Decimal

end FiberMachine
