import FiberMachine.Proofs.Decimal.Stripping
import FiberMachine.Proofs.Object.Rationals

/-!
# Printed numbers

A number is printed as it is when it is rounded to six significant digits. It is formatted with an
exponent first, and the exponent of this text decides about the notation: the exponent counts the
first digit after rounding, so a number that is rounded up into the next decade is laid out as the
power of ten that it became. In positional notation it is rounded a second time, as far as the same
digit, and the second rounding agrees with the first.
-/

namespace FiberMachine

namespace Double

open Decimal

/-- The form of a number `q` whose size is rounded to `D`, where the power `X` of ten begins. -/
structure Prints (q D : ℚ) (X : ℤ) (f : Form) : Prop where
  legible : f.Legible
  negative : f.negative = decide (q < 0)
  value : f.value = if q < 0 then -D else D
  trimmed : f.fraction.getLast? ≠ some '0'
  plain_iff : f.power = none ↔ -4 ≤ X ∧ X < 6
  plain : f.power = none → Plain f
  scaled : f.power ≠ none → Scaled 2 X f

variable {x : Float} {q D : ℚ} {X : ℤ} {f : Form} {d : Decimal} {m : Magnitude} {negative : Bool}

/-! ## The sign -/

theorem signedRational_eq_zero_iff : signedRational negative m = 0 ↔ m.mantissa = 0 := by
  constructor
  · intro h
    by_contra hm
    have hpos := Magnitude.rational_pos hm
    cases negative with
    | false => exact hpos.ne' h
    | true => exact hpos.ne' (neg_eq_zero.mp h)
  · intro hm
    have hzero : m.rational = 0 := by rw [Magnitude.rational, hm, Nat.cast_zero, zero_mul, zero_div]
    cases negative with
    | false => exact hzero
    | true => exact neg_eq_zero.mpr hzero

theorem abs_signedRational (hm : m.mantissa ≠ 0) : |signedRational negative m| = m.rational := by
  have hpos := Magnitude.rational_pos hm
  cases negative with
  | false => exact abs_of_pos hpos
  | true => exact (abs_neg _).trans (abs_of_pos hpos)

theorem signedRational_lt_zero_iff (hm : m.mantissa ≠ 0) :
    signedRational negative m < 0 ↔ negative = true := by
  have hpos := Magnitude.rational_pos hm
  cases negative with
  | false => exact iff_of_false hpos.le.not_gt Bool.false_ne_true
  | true => exact iff_of_true (neg_lt_zero.mpr hpos) rfl

/-! ## The digits -/

/-- The digits that are printed. -/
def rounded (m : Magnitude) : Decimal :=
  (significant printedDigits m.numerator m.denominator).normalize

theorem numerator_pos (hm : m.mantissa ≠ 0) : 0 < m.numerator := by
  rw [Magnitude.numerator, Nat.shiftLeft_eq]
  exact Nat.mul_pos (Nat.pos_of_ne_zero hm) (Nat.two_pow_pos _)

theorem isRounded_rounded (hm : m.mantissa ≠ 0) : IsRounded 6 m.rational (rounded m).rational := by
  rw [rounded, rational_normalize, Magnitude.rational_eq_div]
  exact isRounded_significant (numerator_pos hm) m.denominator_pos

theorem rounded_mod (hm : m.mantissa ≠ 0) : (rounded m).significand % 10 ≠ 0 := by
  have hpos := (isRounded_rounded hm).pos
  rw [rounded, rational_normalize, ← significand_pos_iff] at hpos
  exact normalize_mod hpos

theorem significand_significant_pos (hm : m.mantissa ≠ 0) :
    0 < (significant printedDigits m.numerator m.denominator).significand := by
  rw [significand_pos_iff]
  exact (isRounded_significant (numerator_pos hm) m.denominator_pos).pos

theorem leading_rounded (hm : m.mantissa ≠ 0) :
    (rounded m).leading = (significant printedDigits m.numerator m.denominator).leading :=
  leading_normalize (significand_significant_pos hm)

theorem inDecade_rounded (hm : m.mantissa ≠ 0) :
    InDecade (rounded m).rational (rounded m).leading :=
  inDecade_leading (significand_pos_iff.mpr (isRounded_rounded hm).pos)

/-! ## The two formats -/

/-- The mantissa and the exponent are split where the text with an exponent was put together. -/
theorem splitExponent_exponential (places : ℕ) (negative : Bool) (m : Magnitude) :
    splitExponent (exponential places negative m) =
      (signText negative ++
        (significant (places + 1) m.numerator m.denominator).digits.take 1 ++
        '.' :: ((significant (places + 1) m.numerator m.denominator).digits.drop 1).take places,
      integerText (significant (places + 1) m.numerator m.denominator).leading) := by
  apply splitExponent_append
  have hdigits := (significant (places + 1) m.numerator m.denominator).isDigit_digits
  have he : ¬ 'e'.isDigit := by decide
  simp only [List.mem_append, List.mem_cons, not_or]
  refine ⟨⟨not_mem_signText (by decide) negative, ?_⟩, by decide, ?_⟩
  · exact not_mem_of_isDigit (fun c hc => hdigits c (List.mem_of_mem_take hc)) he
  · exact not_mem_of_isDigit
      (fun c hc => hdigits c (List.mem_of_mem_drop (List.mem_of_mem_take hc))) he

/-- Both formats are rounded to the same number. -/
theorem normalize_nearest (hm : m.mantissa ≠ 0) :
    (nearest .toEven m.numerator m.denominator ((rounded m).leading - 5)).normalize =
      rounded m := by
  have hrounded := isRounded_rounded hm
  rw [Magnitude.rational_eq_div] at hrounded
  have hvalue : (nearest .toEven m.numerator m.denominator ((rounded m).leading - 5)).rational =
      (rounded m).rational := rational_nearest m.denominator_pos hrounded (inDecade_rounded hm)
  apply eq_of_rational_eq
  · rw [rational_normalize]
    exact hvalue
  · apply normalize_mod
    rw [significand_pos_iff, hvalue]
    exact hrounded.pos
  · exact rounded_mod hm

theorem isPrintedPlain_iff : isPrintedPlain X = true ↔ -4 ≤ X ∧ X < 6 := by
  rw [isPrintedPlain, Bool.and_eq_true, decide_eq_true_eq, decide_eq_true_eq]
  rfl

/-- The second format without the zeros at its end. -/
theorem stripZeros_fixedPoint (negative : Bool) (hm : m.mantissa ≠ 0)
    (hplain : isPrintedPlain (rounded m).leading) :
    stripZeros (fixedPoint (printedDigits - 1 - (rounded m).leading).toNat negative m) =
      signText negative ++ (rounded m).positional := by
  have hle := (isPrintedPlain_iff.mp hplain).2
  have hunit : (-((printedDigits - 1 - (rounded m).leading).toNat : ℤ)) =
      (rounded m).leading - 5 := by
    rw [printedDigits]
    omega
  have hnormalize := normalize_nearest hm
  rw [fixedPoint, hunit, stripZeros_positional, hnormalize]
  · have hpos := (isRounded_rounded hm).pos
    rwa [← hnormalize, rational_normalize, ← significand_pos_iff] at hpos
  · change (rounded m).leading - 5 ≤ 0
    omega

/-- The first format without the zeros at the end of its mantissa. -/
theorem stripZeros_exponential (negative : Bool) (hm : m.mantissa ≠ 0) :
    stripZeros (splitExponent (exponential (printedDigits - 1) negative m)).1 ++
        paddedExponent (rounded m).leading =
      signText negative ++ (rounded m).scientific 2 := by
  have hpos := significand_significant_pos hm
  have hle : (significant printedDigits m.numerator m.denominator).significand ≤
      10 ^ printedDigits :=
    significand_significant_le (numerator_pos hm) m.denominator_pos
  have hstrip := stripZeros_mantissa negative hpos (length_digits_normalize_le hpos hle)
  rw [splitExponent_exponential]
  refine (congrArg (· ++ _) hstrip).trans ?_
  rw [scientific_eq, List.append_assoc, List.append_assoc, List.append_assoc]
  rfl

/-! ## The form -/

theorem ofList_signText (negative : Bool) (cs : List Char) :
    String.ofList (signText negative ++ cs) = signed negative cs := by
  cases negative <;> rfl

theorem printed_of_finite (hx : ofFloat x = .finite negative m) (hm : m.mantissa ≠ 0) :
    printed x = signed negative
      (if isPrintedPlain (rounded m).leading then (rounded m).positional
        else (rounded m).scientific 2) := by
  have hexponent :
      readInteger (splitExponent (exponential (printedDigits - 1) negative m)).2 =
        (rounded m).leading := by
    rw [splitExponent_exponential, readInteger_integerText, leading_rounded hm]
    rfl
  simp only [printed, hx, if_neg hm, hexponent]
  rw [← ofList_signText]
  split
  · rename_i hplain
    rw [stripZeros_fixedPoint negative hm hplain]
  · rw [stripZeros_exponential negative hm]

theorem spells_printed (hlast : d.significand % 10 ≠ 0) (negative : Bool) : ∃ f,
    d.Spells negative (if isPrintedPlain d.leading then d.positional else d.scientific 2) f ∧
      (f.power = none ↔ -4 ≤ d.leading ∧ d.leading < 6) ∧
      (f.power = none → Plain f) ∧ (f.power ≠ none → Scaled 2 d.leading f) := by
  rw [← isPrintedPlain_iff]
  split
  · rename_i hplain
    obtain ⟨f, hf, hform⟩ := spells_positional d negative hlast
    exact ⟨f, hf, iff_of_true hform.power hplain, fun _ => hform, fun h => absurd hform.power h⟩
  · rename_i hplain
    obtain ⟨f, hf, hform⟩ := spells_scientific d negative hlast (by decide : 0 < 2)
    have hpower : f.power ≠ none := by
      obtain ⟨ds, h, -⟩ := hform.power
      rw [h]
      exact Option.some_ne_none _
    exact ⟨f, hf, iff_of_false hpower hplain, fun h => absurd h hpower, fun _ => hform⟩

theorem signed_eq {cs : List Char} (hf : d.Spells negative cs f) :
    signed negative cs = String.ofList f.text := by
  rw [hf.text, ofList_signText]

theorem printed_eq (hx : ofFloat x = .finite negative m) (hm : m.mantissa ≠ 0) : ∃ f,
    printed x = String.ofList f.text ∧
      Prints (signedRational negative m) (rounded m).rational (rounded m).leading f := by
  have hlast := rounded_mod hm
  obtain ⟨f, hf, hplain_iff, hplain, hscaled⟩ := spells_printed hlast negative
  have hsign : signedRational negative m < 0 ↔ negative = true := signedRational_lt_zero_iff hm
  refine ⟨f, (printed_of_finite hx hm).trans (signed_eq hf), hf.legible, ?_, ?_, hf.trimmed,
    hplain_iff, hplain, hscaled⟩
  · rw [hf.negative, Bool.eq_iff_iff, decide_eq_true_iff, hsign]
  · simp only [Form.value, hf.negative, hf.size, hsign]

/-! ## What is guaranteed -/

/-- What is printed for a number `q` can be read in one way only, and is the number rounded to six
significant digits. The notation fits the power of ten where the rounded number begins. -/
structure PrintGuarantees (x : Float) (q : ℚ) : Prop where
  rounds : ∃ D X, IsRounded 6 |q| D ∧ InDecade D X
  text : printed x = String.ofList (Form.read (printed x).toList).text
  prints : ∀ {D X}, IsRounded 6 |q| D → InDecade D X →
    Prints q D X (Form.read (printed x).toList)

theorem printGuarantees (hx : rational? x = some q) (hq : q ≠ 0) : PrintGuarantees x q := by
  obtain ⟨negative, m, hfinite, rfl⟩ : ∃ negative m, ofFloat x = .finite negative m ∧
      signedRational negative m = q := by
    rw [rational?] at hx
    split at hx
    · exact ⟨_, _, ‹_›, Option.some.inj hx⟩
    · exact absurd hx (Option.some_ne_none _).symm
  have hm : m.mantissa ≠ 0 := fun h => hq (signedRational_eq_zero_iff.mpr h)
  obtain ⟨f, htext, hf⟩ := printed_eq hfinite hm
  have hread : Form.read (printed x).toList = f := by
    rw [htext, String.toList_ofList, Form.read_text hf.legible]
  have hrounded : IsRounded 6 |signedRational negative m| (rounded m).rational := by
    rw [abs_signedRational hm]
    exact isRounded_rounded hm
  have hdecade := inDecade_rounded hm
  rw [← hread] at htext hf
  refine ⟨⟨_, _, hrounded, hdecade⟩, htext, fun hD hX => ?_⟩
  obtain rfl := hrounded.unique hD
  obtain rfl := hdecade.unique hX
  exact hf

/-- Half a unit below a million is printed as a million is. -/
theorem printGuarantees_carried :
    rational? 999999.5 = some (1999999 / 2) ∧ PrintGuarantees 999999.5 (1999999 / 2) ∧
      (Form.read (printed 999999.5).toList).value = 1000000 ∧
      Scaled 2 6 (Form.read (printed 999999.5).toList) := by
  have hx : rational? 999999.5 = some (1999999 / 2) := by
    have hfinite : ofFloat 999999.5 = .finite false ⟨8589930297032704, 1041⟩ := by decide
    have hshift : (2 : ℚ) ^ 1074 = 2 ^ 1041 * 2 ^ 33 := by rw [← pow_add]
    have hpos : (2 : ℚ) ^ 1041 ≠ 0 := pow_ne_zero _ (by norm_num)
    rw [rational?_of_finite hfinite]
    simp only [signedRational, Magnitude.rational, Magnitude.unitPlaces, hshift, Bool.false_eq_true,
      ↓reduceIte, mul_comm _ ((2 : ℚ) ^ 1041), mul_div_mul_left _ _ hpos]
    norm_num
  have hg : PrintGuarantees 999999.5 (1999999 / 2) := printGuarantees hx (by norm_num)
  have hrounded : IsRounded 6 |(1999999 / 2 : ℚ)| 1000000 := by
    refine ⟨5, 1000000, ⟨by norm_num, by norm_num⟩, ⟨by norm_num, fun _ => by decide⟩, by norm_num⟩
  have hprints := hg.prints hrounded (X := 6) ⟨by norm_num, by norm_num⟩
  refine ⟨hx, hg, ?_, hprints.scaled fun h => ?_⟩
  · rw [hprints.value, if_neg (by norm_num)]
  · exact absurd (hprints.plain_iff.mp h).2 (by norm_num)

end Double

end FiberMachine
