import FiberMachine.Proofs.Decimal.Forms

/-!
# Zeros that are stripped

A number is formatted with a fixed number of digits, and zeros at its end are taken from the text
and not from the number. What is left is the text of the decimal without the zeros at its end,
because only the zeros behind a point are stripped and those are the last digits of the number.
-/

namespace FiberMachine

namespace Decimal

open Double Form

variable {d d' : Decimal} {negative : Bool} {whole fraction cs ds : List Char} {k n places : ℕ}
  {num den : ℕ}

/-! ## Texts -/

theorem dropWhile_zeros (n : ℕ) (cs : List Char) :
    (zeros n ++ cs).dropWhile (· == '0') = cs.dropWhile (· == '0') := by
  apply List.dropWhile_append_of_pos
  intro c hc
  rw [List.eq_of_mem_replicate hc]
  rfl

/-- Zeros at the end of a fraction are stripped, and the point when no other digits stand
behind it. -/
theorem stripZeros_fraction (whole : List Char) (hdigits : ∀ c ∈ fraction, c.isDigit)
    (hlast : fraction.getLast? ≠ some '0') (n : ℕ) :
    stripZeros (whole ++ '.' :: (fraction ++ zeros n)) = whole ++ fractionText fraction := by
  have hpoint : (whole ++ '.' :: (fraction ++ zeros n)).contains '.' := by simp
  have hreverse : (whole ++ '.' :: (fraction ++ zeros n)).reverse =
      zeros n ++ (fraction.reverse ++ '.' :: whole.reverse) := by simp [zeros]
  rw [stripZeros, if_pos hpoint, hreverse, dropWhile_zeros]
  rcases fraction.eq_nil_or_concat with rfl | ⟨front, c, rfl⟩
  · simp [fractionText]
  · have hzero : c ≠ '0' := by simpa using hlast
    have hc : c ≠ '.' := by
      rintro rfl
      exact absurd (hdigits '.' (by simp)) (by decide)
    rw [List.concat_eq_append, List.reverse_append, List.reverse_singleton, List.singleton_append,
      List.cons_append, List.dropWhile_cons_of_neg (by simpa using hzero)]
    split
    · rename_i heq
      exact absurd (List.head_eq_of_cons_eq heq) hc
    · simp [fractionText]

/-- Nothing is stripped from a text without a point. -/
theorem stripZeros_of_not_mem (h : '.' ∉ cs) : stripZeros cs = cs := by
  rw [stripZeros, if_neg]
  simpa using h

/-! ## The digits of a decimal without its zeros -/

/-- Zeros at the end of the significand are digits at the end, and each counts for the exponent. -/
theorem exists_digits_dropZeros (d : Decimal) (hpos : 0 < d.significand) (fuel : ℕ) :
    ∃ k : ℕ, d.digits = (dropZeros d fuel).digits ++ zeros k ∧
      (dropZeros d fuel).exponent = d.exponent + k := by
  induction fuel generalizing d with
  | zero => exact ⟨0, (List.append_nil _).symm, (add_zero _).symm⟩
  | succ fuel ih =>
    rw [dropZeros]
    split
    · rename_i hzero
      have hten : 10 ≤ d.significand :=
        Nat.le_of_dvd hpos (Nat.dvd_of_mod_eq_zero hzero)
      obtain ⟨k, hdigits, hexponent⟩ :=
        ih ⟨d.significand / 10, d.exponent + 1⟩ (Nat.div_pos hten (by decide))
      refine ⟨k + 1, ?_, ?_⟩
      · have hlast : d.digits = Nat.toDigits 10 (d.significand / 10) ++ ['0'] := by
          rw [digits, Nat.toDigits_of_base_le (by decide) hten, hzero]
          rfl
        rw [hlast, zeros, List.replicate_succ', ← List.append_assoc]
        exact congrArg (· ++ ['0']) hdigits
      · rw [hexponent]
        push_cast
        ring
    · exact ⟨0, (List.append_nil _).symm, (add_zero _).symm⟩

theorem exists_digits_normalize (hpos : 0 < d.significand) : ∃ k : ℕ,
    d.digits = d.normalize.digits ++ zeros k ∧ d.normalize.exponent = d.exponent + k := by
  rw [normalize, if_neg hpos.ne']
  exact exists_digits_dropZeros d hpos _

theorem leading_normalize (hpos : 0 < d.significand) : d.normalize.leading = d.leading := by
  obtain ⟨k, hdigits, hexponent⟩ := exists_digits_normalize hpos
  rw [leading, leading, hdigits, hexponent, List.length_append, length_zeros]
  push_cast
  ring

/-- In smaller units the same number has a zero at its end. -/
theorem significand_mod_of_lt (heq : d.rational = d'.rational) (hlt : d.exponent < d'.exponent) :
    d.significand % 10 = 0 := by
  obtain ⟨n, hn⟩ : ∃ n : ℕ, d'.exponent = d.exponent + (n + 1 : ℕ) :=
    ⟨(d'.exponent - d.exponent - 1).toNat, by omega⟩
  have hunit : (10 : ℚ) ^ d.exponent ≠ 0 := by positivity
  rw [rational, rational, hn, zpow_add₀ (by norm_num), zpow_natCast, mul_left_comm,
    mul_comm ((d.significand : ℚ)), mul_right_inj' hunit] at heq
  have hten : d.significand = d'.significand * 10 ^ (n + 1) := by exact_mod_cast heq
  rw [hten, pow_succ, ← mul_assoc, Nat.mul_mod_left]

/-- Two decimals without zeros at the end are the same when they are the same number. -/
theorem eq_of_rational_eq (heq : d.rational = d'.rational) (hlast : d.significand % 10 ≠ 0)
    (hlast' : d'.significand % 10 ≠ 0) : d = d' := by
  have hexponent : d.exponent = d'.exponent := by
    refine le_antisymm (not_lt.mp fun hlt => ?_) (not_lt.mp fun hlt => ?_)
    · exact hlast' (significand_mod_of_lt heq.symm hlt)
    · exact hlast (significand_mod_of_lt heq hlt)
  have hunit : (10 : ℚ) ^ d'.exponent ≠ 0 := by positivity
  rw [rational, rational, hexponent, mul_left_inj' hunit] at heq
  obtain ⟨s, e⟩ := d
  obtain ⟨s', e'⟩ := d'
  obtain rfl : e = e' := hexponent
  obtain rfl : s = s' := Nat.cast_injective heq
  rfl

/-! ## Positional notation -/

theorem not_mem_of_isDigit {c : Char} (hds : ∀ c ∈ ds, c.isDigit) (hc : ¬ c.isDigit) : c ∉ ds :=
  fun hmem => hc (hds c hmem)

theorem not_mem_signText {c : Char} (hc : c ≠ '-') (negative : Bool) : c ∉ signText negative := by
  cases negative with
  | false => exact List.not_mem_nil
  | true => simpa [signText] using hc

/-- Nothing is stripped from the digits of a whole number. -/
theorem stripZeros_units (negative : Bool) :
    stripZeros (signText negative ++ d.digits) = signText negative ++ d.digits := by
  apply stripZeros_of_not_mem
  rw [List.mem_append, not_or]
  exact ⟨not_mem_signText (by decide) negative,
    not_mem_of_isDigit d.isDigit_digits (by decide)⟩

/-- All decimals are zeros, and some of the zeros in front of the point may belong to the same
row. -/
theorem stripZeros_whole (negative : Bool)
    (hdigits : d.digits = d.normalize.digits ++ zeros k)
    (hexponent : d.normalize.exponent = d.exponent + k) (he : d.exponent = -n) (hle : n ≤ k) :
    stripZeros (signText negative ++ d.positional) = signText negative ++ d.normalize.positional := by
  have hlength : 0 < d.normalize.digits.length := d.normalize.length_digits_pos
  have hzeros : d.digits = d.normalize.digits ++ zeros (k - n) ++ zeros n := by
    rw [hdigits, List.append_assoc, zeros, zeros, zeros, List.replicate_append_replicate,
      Nat.sub_add_cancel hle]
  have hwhole : d.normalize.positional = d.normalize.digits ++ zeros (k - n) := by
    rw [positional_whole (by omega)]
    congr 2
    omega
  rw [hwhole]
  rcases n.eq_zero_or_pos with rfl | hn
  · rw [positional_whole (by omega), he]
    change stripZeros (signText negative ++ (d.digits ++ [])) = _
    rw [List.append_nil, stripZeros_units, hdigits, Nat.sub_zero]
  · have hlt : n < d.digits.length := by
      rw [hdigits, List.length_append, length_zeros]
      omega
    have hfront : d.digits.length - n = (d.normalize.digits ++ zeros (k - n)).length := by
      rw [hzeros, List.length_append, length_zeros, Nat.add_sub_cancel]
    rw [positional_divided he hn hlt, hfront, hzeros, List.take_left, List.drop_left,
      ← List.append_assoc]
    have hnone : ∀ c ∈ ([] : List Char), c.isDigit := fun _ hc => absurd hc List.not_mem_nil
    exact (stripZeros_fraction _ hnone (by simp) n).trans (List.append_nil _)

/-- The point stays between two digits. -/
theorem stripZeros_divided (negative : Bool) (hpos : 0 < d.significand)
    (hdigits : d.digits = d.normalize.digits ++ zeros k)
    (hexponent : d.normalize.exponent = d.exponent + k) (he : d.exponent = -n) (hlt : k < n)
    (hdivided : n < d.digits.length) :
    stripZeros (signText negative ++ d.positional) = signText negative ++ d.normalize.positional := by
  have hlength : d.digits.length = d.normalize.digits.length + k := by
    rw [hdigits, List.length_append, length_zeros]
  have hfront : d.digits.length - n = d.normalize.digits.length - (n - k) := by omega
  have hle : d.normalize.digits.length - (n - k) ≤ d.normalize.digits.length := Nat.sub_le _ _
  have hne : d.normalize.digits.drop (d.normalize.digits.length - (n - k)) ≠ [] :=
    List.ne_nil_of_length_pos (by rw [List.length_drop]; omega)
  have hlast : (d.normalize.digits.drop (d.normalize.digits.length - (n - k))).getLast? ≠
      some '0' := by
    rw [List.getLast?_drop, if_neg (by omega)]
    exact getLast?_digits_ne (normalize_mod hpos)
  rw [positional_divided he (by omega) hdivided, hfront, hdigits, List.take_append_of_le_length hle,
    List.drop_append_of_le_length hle, ← List.append_assoc, stripZeros_fraction _ _ hlast,
    positional_divided (k := n - k) (by omega) (by omega) (by omega), fractionText, if_neg hne,
    List.append_assoc]
  exact fun c hc => d.normalize.isDigit_digits c (List.mem_of_mem_drop hc)

/-- The zeros in front of the digits stay. -/
theorem stripZeros_below (negative : Bool) (hpos : 0 < d.significand)
    (hdigits : d.digits = d.normalize.digits ++ zeros k)
    (hexponent : d.normalize.exponent = d.exponent + k) (he : d.exponent = -n)
    (hle : d.digits.length ≤ n) :
    stripZeros (signText negative ++ d.positional) = signText negative ++ d.normalize.positional := by
  have hlength : d.digits.length = d.normalize.digits.length + k := by
    rw [hdigits, List.length_append, length_zeros]
  have hne : d.normalize.digits ≠ [] := Nat.toDigits_ne_nil
  have hpositive : 0 < d.normalize.digits.length := d.normalize.length_digits_pos
  have hspace : n - d.digits.length = n - k - d.normalize.digits.length := by omega
  have hfraction : ∀ c ∈ zeros (n - k - d.normalize.digits.length) ++ d.normalize.digits,
      c.isDigit := fun c hc =>
    (List.mem_append.mp hc).elim (isDigit_zeros _ c) (d.normalize.isDigit_digits c)
  have hlast : (zeros (n - k - d.normalize.digits.length) ++ d.normalize.digits).getLast? ≠
      some '0' := by
    rw [List.getLast?_append_of_ne_nil _ hne]
    exact getLast?_digits_ne (normalize_mod hpos)
  have htext := stripZeros_fraction (signText negative ++ ['0']) hfraction hlast k
  rw [positional_below he (by omega) hle, positional_below (k := n - k) (by omega) (by omega)
    (by omega), hspace, hdigits]
  simpa [fractionText, hne] using htext

/-- Where units are the greatest power of ten that is written, the stripped text is the number
without the zeros at its end. -/
theorem stripZeros_positional (negative : Bool) (hpos : 0 < d.significand) (he : d.exponent ≤ 0) :
    stripZeros (signText negative ++ d.positional) = signText negative ++ d.normalize.positional := by
  obtain ⟨k, hdigits, hexponent⟩ := exists_digits_normalize hpos
  obtain ⟨n, hn⟩ : ∃ n : ℕ, d.exponent = -n := ⟨(-d.exponent).toNat, by omega⟩
  rcases Nat.lt_or_ge k n with hlt | hle
  · rcases Nat.lt_or_ge n d.digits.length with hdivided | hbelow
    · exact stripZeros_divided negative hpos hdigits hexponent hn hlt hdivided
    · exact stripZeros_below negative hpos hdigits hexponent hn hbelow
  · exact stripZeros_whole negative hdigits hexponent hn hle

/-! ## Notation with an exponent -/

theorem splitExponent_append (h : 'e' ∉ cs) : splitExponent (cs ++ 'e' :: ds) = (cs, ds) := by
  have hfront : ∀ c ∈ cs, (c != 'e') = true := by
    intro c hc
    rw [bne_iff_ne]
    rintro rfl
    exact h hc
  rw [splitExponent, List.takeWhile_append_of_pos hfront, List.dropWhile_append_of_pos hfront]
  simp

theorem readInteger_integerText (n : ℤ) : readInteger (integerText n) = n := by
  have hread : Nat.ofDigitChars 10 (Nat.toDigits 10 n.natAbs) 0 = n.natAbs :=
    Nat.ofDigitChars_ten_toDigits
  rcases lt_or_ge n 0 with hneg | hnonneg
  · have htext : integerText n = '-' :: Nat.toDigits 10 n.natAbs := by
      simp [integerText, signText, hneg]
    rw [htext, readInteger, hread]
    omega
  · have htext : integerText n = Nat.toDigits 10 n.natAbs := by
      simp [integerText, signText, not_lt.mpr hnonneg]
    have hsign : ∀ c ∈ Nat.toDigits 10 n.natAbs, c.isDigit := fun c hc =>
      Nat.isDigit_of_mem_toDigits (by decide) (by decide) hc
    rw [htext]
    unfold readInteger
    split
    · rename_i ds heq
      exact absurd (hsign '-' (heq ▸ List.mem_cons_self)) (by decide)
    · rw [hread]
      omega

/-- A decimal that fills its digits, or is the next power of ten, needs no more digits without its
zeros. -/
theorem length_digits_normalize_le (hpos : 0 < d.significand)
    (hle : d.significand ≤ 10 ^ (places + 1)) : d.normalize.digits.length ≤ places + 1 := by
  obtain ⟨k, hdigits, -⟩ := exists_digits_normalize hpos
  have hsignificand : d.normalize.significand * 10 ^ k = d.significand := by
    rw [← natural_digits, ← natural_digits, hdigits, natural_append, natural_zeros, length_zeros,
      add_zero]
  have hsmaller : d.normalize.significand ≤ 10 ^ (places + 1) :=
    (Nat.le_mul_of_pos_right _ (Nat.pow_pos (by decide))).trans (hsignificand.le.trans hle)
  have hne : d.normalize.significand ≠ 10 ^ (places + 1) := fun h =>
    normalize_mod hpos (by rw [h, pow_succ, Nat.mul_mod_left])
  exact (Nat.length_toDigits_le_iff (by decide) places.succ_pos).mpr (hsmaller.lt_of_ne hne)

/-- One digit stays in front of the point. -/
theorem stripZeros_mantissa (negative : Bool) (hpos : 0 < d.significand)
    (hle : d.normalize.digits.length ≤ places + 1) :
    stripZeros (signText negative ++ d.digits.take 1 ++ '.' :: (d.digits.drop 1).take places) =
      signText negative ++ d.normalize.digits.take 1 ++
        fractionText (d.normalize.digits.drop 1) := by
  obtain ⟨k, hdigits, -⟩ := exists_digits_normalize hpos
  have hend := getLast?_digits_ne (normalize_mod hpos)
  have hisDigit := d.normalize.isDigit_digits
  obtain ⟨c, cs, hcons⟩ : ∃ c cs, d.normalize.digits = c :: cs :=
    List.exists_cons_of_ne_nil Nat.toDigits_ne_nil
  rw [hcons] at hend hisDigit hle
  rw [List.length_cons] at hle
  have hlast : cs.getLast? ≠ some '0' := by
    cases cs with
    | nil => simp
    | cons c' cs => rwa [List.getLast?_cons_cons] at hend
  have htake : (cs ++ zeros k).take places = cs ++ zeros (min (places - cs.length) k) := by
    rw [List.take_append, List.take_of_length_le (by omega), zeros, List.take_replicate, zeros]
  rw [hdigits, hcons, List.cons_append, List.take_succ_cons, List.drop_succ_cons, List.take_zero,
    List.drop_zero, htake]
  exact stripZeros_fraction _ (fun c' hc' => hisDigit c' (List.mem_cons_of_mem _ hc')) hlast _

theorem scientific_eq (d : Decimal) :
    d.scientific 2 =
      d.digits.take 1 ++ fractionText (d.digits.drop 1) ++ paddedExponent d.leading := by
  simp only [scientific, fractionText, paddedExponent, List.isEmpty_iff, List.append_assoc]

end Decimal

end FiberMachine
