import Mathlib
import FiberMachine.Decimal.Digits

/-!
# Rounding to significant digits

A positive number lies in one decade, and rounding it to a number of significant digits means to
take the nearest multiple of a power of ten that depends on the decade. Of two that are equally
near, the even one is taken. A number may be rounded up into the next decade; then it is also the
nearest multiple of the coarser power of ten that belongs to this decade.
-/

namespace FiberMachine

/-- A multiple of a unit that is nearest to a number; of two such multiples, the even one. -/
structure IsNearest (q unit : ℚ) (k : ℕ) : Prop where
  near : |q - k * unit| ≤ unit / 2
  even : |q - k * unit| = unit / 2 → Even k

/-- The power of ten where a number begins. -/
def InDecade (q : ℚ) (e : ℤ) : Prop := (10 : ℚ) ^ e ≤ q ∧ q < (10 : ℚ) ^ (e + 1)

/-- A number rounded to a number of significant digits. -/
def IsRounded (places : ℕ) (q D : ℚ) : Prop := ∃ (e : ℤ) (k : ℕ),
  InDecade q e ∧ IsNearest q (10 ^ (e + 1 - places)) k ∧ D = k * 10 ^ (e + 1 - places)

variable {q unit D D' : ℚ} {k k' num den places : ℕ} {e e' : ℤ}

/-! ## Nearest multiples -/

theorem IsNearest.le_succ (hpos : 0 < unit) (h : IsNearest q unit k) (h' : IsNearest q unit k') :
    k ≤ k' + 1 ∧ (k = k' + 1 → Even k ∧ Even k') := by
  have hk := abs_le.mp h.near
  have hk' := abs_le.mp h'.near
  have hdist : (k : ℚ) * unit ≤ (k' + 1) * unit := by linarith
  have hle : (k : ℚ) ≤ k' + 1 := le_of_mul_le_mul_right hdist hpos
  refine ⟨by exact_mod_cast hle, fun heq => ?_⟩
  have hk₁ : (k : ℚ) * unit = k' * unit + unit := by
    rw [heq]
    push_cast
    ring
  constructor
  · exact h.even (by rw [abs_of_nonpos] <;> linarith)
  · exact h'.even (by rw [abs_of_nonneg] <;> linarith)

theorem IsNearest.unique (hpos : 0 < unit) (h : IsNearest q unit k) (h' : IsNearest q unit k') :
    k = k' := by
  obtain ⟨hle, htie⟩ := h.le_succ hpos h'
  obtain ⟨hle', htie'⟩ := h'.le_succ hpos h
  have hne : k ≠ k' + 1 := fun heq => by
    have heven := htie heq
    rw [heq, Nat.even_add_one] at heven
    exact heven.1 heven.2
  have hne' : k' ≠ k + 1 := fun heq => by
    have heven := htie' heq
    rw [heq, Nat.even_add_one] at heven
    exact heven.1 heven.2
  omega

theorem isNearest_div_iff (hpos : 0 < unit) : IsNearest (q / unit) 1 k ↔ IsNearest q unit k := by
  have hdist : |q / unit - k * 1| = |q - k * unit| / unit := by
    rw [← abs_of_pos hpos, ← abs_div, abs_of_pos hpos, sub_div, mul_one,
      mul_div_cancel_right₀ _ hpos.ne']
  have hnear : |q / unit - k * 1| ≤ 1 / 2 ↔ |q - k * unit| ≤ unit / 2 := by
    rw [hdist, div_le_iff₀ hpos, one_div_mul_eq_div]
  have htie : |q / unit - k * 1| = 1 / 2 ↔ |q - k * unit| = unit / 2 := by
    rw [hdist, div_eq_iff hpos.ne', one_div_mul_eq_div]
  exact ⟨fun h => ⟨hnear.mp h.near, fun h' => h.even (htie.mpr h')⟩,
    fun h => ⟨hnear.mpr h.near, fun h' => h.even (htie.mp h')⟩⟩

/-- Near a coarser multiple there is no other one that is nearly as near. -/
theorem IsNearest.coarser (hpos : 0 < unit) (h : IsNearest q unit (10 * k)) :
    IsNearest q (10 * unit) k := by
  have hnear := h.near
  have hsame : ((10 * k : ℕ) : ℚ) * unit = k * (10 * unit) := by
    push_cast
    ring
  rw [hsame] at hnear
  constructor
  · linarith
  · intro htie
    linarith

/-! ## Rounding a quotient -/

/-- Only half a unit is rounded to the even neighbour. -/
theorem even_roundQuotient (h : 2 * (num % den) = den) :
    Even (roundQuotient .toEven num den) := by
  unfold roundQuotient
  dsimp only
  rw [if_neg (by omega), if_neg (by omega)]
  split
  · rename_i heven
    exact Nat.even_iff.mpr heven
  · rename_i hodd
    exact Nat.even_iff.mpr (by omega)

theorem roundQuotient_lt (hden : 0 < den) (h : 2 * (num % den) ≠ den) :
    2 * (roundQuotient .toEven num den * den) < 2 * num + den ∧
      2 * num < 2 * (roundQuotient .toEven num den * den) + den := by
  have hd : num / den * den + num % den = num := Nat.div_add_mod' num den
  have hm : num % den < den := Nat.mod_lt _ hden
  have hs : (num / den + 1) * den = num / den * den + den := Nat.succ_mul _ _
  unfold roundQuotient
  dsimp only
  split
  · omega
  · rw [if_pos (by omega), hs]
    omega

theorem isNearest_roundQuotient (hden : 0 < den) :
    IsNearest (num / den) 1 (roundQuotient .toEven num den) := by
  have hpos : (0 : ℚ) < den := Nat.cast_pos.mpr hden
  rw [isNearest_div_iff hpos]
  have hnear := roundQuotient_near .toEven num den hden
  have hle : (2 : ℚ) * (roundQuotient .toEven num den * den) ≤ 2 * num + den := by
    exact_mod_cast hnear.1
  have hge : (2 : ℚ) * num ≤ 2 * (roundQuotient .toEven num den * den) + den := by
    exact_mod_cast hnear.2
  constructor
  · rw [abs_le]
    constructor <;> linarith
  · intro htie
    by_contra hodd
    obtain ⟨hlt, hlt'⟩ := roundQuotient_lt hden fun h => hodd (even_roundQuotient h)
    have hlt : (2 : ℚ) * (roundQuotient .toEven num den * den) < 2 * num + den := by
      exact_mod_cast hlt
    have hlt' : (2 : ℚ) * num < 2 * (roundQuotient .toEven num den * den) + den := by
      exact_mod_cast hlt'
    rcases abs_eq (by positivity) |>.mp htie with h | h <;> linarith

/-! ## Decades -/

theorem InDecade.unique (h : InDecade q e) (h' : InDecade q e') : e = e' := by
  have hlt : (10 : ℚ) ^ e < 10 ^ (e' + 1) := h.1.trans_lt h'.2
  have hlt' : (10 : ℚ) ^ e' < 10 ^ (e + 1) := h'.1.trans_lt h.2
  rw [zpow_lt_zpow_iff_right₀ (by norm_num)] at hlt hlt'
  omega

theorem IsRounded.unique (h : IsRounded places q D) (h' : IsRounded places q D') : D = D' := by
  obtain ⟨e, k, hdecade, hk, rfl⟩ := h
  obtain ⟨e', k', hdecade', hk', rfl⟩ := h'
  obtain rfl := hdecade.unique hdecade'
  rw [hk.unique (by positivity) hk']

theorem pow_mul_unit (e : ℤ) (n : ℕ) : (10 : ℚ) ^ n * 10 ^ (e - n) = 10 ^ e := by
  rw [← zpow_natCast, ← zpow_add₀ (by norm_num), add_sub_cancel]

theorem unit_eq (e : ℤ) (places : ℕ) : e + 1 - (places + 1 : ℕ) = e - places := by
  push_cast
  ring

/-- The multiples that a number may be rounded to have as many digits as are wanted, or they are
the next power of ten. -/
theorem IsNearest.bounds (hdecade : InDecade q e)
    (hk : IsNearest q (10 ^ (e + 1 - (places + 1 : ℕ))) k) :
    10 ^ places ≤ k ∧ k ≤ 10 ^ (places + 1) := by
  obtain ⟨hle, hlt⟩ := hdecade
  rw [← pow_mul_unit e places] at hle
  rw [← pow_mul_unit (e + 1) (places + 1), unit_eq] at hlt
  rw [unit_eq] at hk
  set unit : ℚ := 10 ^ (e - places)
  have hpos : 0 < unit := by positivity
  have hnear := abs_le.mp hk.near
  constructor
  · have h : (10 ^ places : ℚ) * unit < (k + 1) * unit := by linarith
    exact Nat.lt_succ_iff.mp (by exact_mod_cast lt_of_mul_lt_mul_right h hpos.le)
  · have h : (k : ℚ) * unit < (10 ^ (places + 1) + 1) * unit := by linarith
    exact Nat.lt_succ_iff.mp (by exact_mod_cast lt_of_mul_lt_mul_right h hpos.le)

/-- Significant digits do not get lost. -/
theorem IsRounded.pos (h : IsRounded (places + 1) q D) : 0 < D := by
  obtain ⟨e, k, hq, hk, rfl⟩ := h
  have hpos : 0 < k := (Nat.pow_pos (by decide)).trans_le (hk.bounds hq).1
  have hcast : (0 : ℚ) < k := Nat.cast_pos.mpr hpos
  positivity

/-- What is rounded to significant digits is rounded to the power of ten that belongs to the decade
of the result. -/
theorem IsRounded.isNearest (h : IsRounded (places + 1) q D) (hdecade : InDecade D e) :
    ∃ k : ℕ, IsNearest q (10 ^ (e - places)) k ∧ D = k * 10 ^ (e - places) := by
  obtain ⟨e₀, k, hq, hk, rfl⟩ := h
  obtain ⟨hle, hlt⟩ := hk.bounds hq
  rw [unit_eq] at hk hdecade ⊢
  have hlow := pow_mul_unit e₀ places
  have hhigh := pow_mul_unit (e₀ + 1) (places + 1)
  rw [unit_eq] at hhigh
  have hpos : (0 : ℚ) < 10 ^ (e₀ - places) := by positivity
  rcases hlt.lt_or_eq with hlt | rfl
  · -- The result stays in the decade of the number.
    have hsame : InDecade (k * 10 ^ (e₀ - places)) e₀ := by
      constructor
      · rw [← hlow]
        exact mul_le_mul_of_nonneg_right (by exact_mod_cast hle) hpos.le
      · rw [← hhigh]
        exact mul_lt_mul_of_pos_right (by exact_mod_cast hlt) hpos
    obtain rfl := hsame.unique hdecade
    exact ⟨k, hk, rfl⟩
  · -- The result is the power of ten where the next decade begins.
    have hvalue : ((10 ^ (places + 1) : ℕ) : ℚ) * 10 ^ (e₀ - places) = 10 ^ (e₀ + 1) := by
      rw [← hhigh]
      push_cast
      rfl
    have hnext : InDecade ((10 ^ (places + 1) : ℕ) * 10 ^ (e₀ - places)) (e₀ + 1) := by
      rw [hvalue]
      exact ⟨le_rfl, zpow_lt_zpow_right₀ (by norm_num) (by omega)⟩
    obtain rfl := hnext.unique hdecade
    have hcoarse : (10 : ℚ) ^ (e₀ + 1 - places) = 10 * 10 ^ (e₀ - places) := by
      rw [show e₀ + 1 - (places : ℤ) = e₀ - places + 1 by ring, zpow_add_one₀ (by norm_num),
        mul_comm]
    rw [pow_succ'] at hk
    rw [hcoarse]
    refine ⟨10 ^ places, hk.coarser hpos, ?_⟩
    push_cast
    ring

end FiberMachine
