import FiberMachine.Decimal.Text
import FiberMachine.Proofs.Decimal.Significant

/-!
# The forms of a decimal

A number in a text has a sign, digits before and behind a point, and a power of ten. The parts can
be read off the text again, so a text denotes one number. A decimal denotes the same number in
positional notation and in notation with an exponent.
-/

namespace FiberMachine

namespace Decimal

open Double (signText)

/-- The parts of a number in a text. The power of ten has a sign of its own. -/
structure Form where
  negative : Bool
  whole : List Char
  fraction : List Char
  power : Option (Bool × List Char)
deriving DecidableEq, Repr

namespace Form

/-- The number that digits denote. -/
def natural (ds : List Char) : ℕ := Nat.ofDigitChars 10 ds 0

/-- There is a point only where digits stand behind it. -/
def fractionText (ds : List Char) : List Char := if ds = [] then [] else '.' :: ds

def powerText : Option (Bool × List Char) → List Char
  | none => []
  | some (negative, ds) => 'e' :: (if negative then '-' else '+') :: ds

def text (f : Form) : List Char :=
  signText f.negative ++ (f.whole ++ (fractionText f.fraction ++ powerText f.power))

def scale : Option (Bool × List Char) → ℤ
  | none => 0
  | some (negative, ds) => if negative then -natural ds else natural ds

/-- The number without its sign. -/
def size (f : Form) : ℚ :=
  natural (f.whole ++ f.fraction) / 10 ^ f.fraction.length * 10 ^ scale f.power

def value (f : Form) : ℚ := if f.negative then -f.size else f.size

structure Legible (f : Form) : Prop where
  whole_ne_nil : f.whole ≠ []
  whole : ∀ c ∈ f.whole, c.isDigit
  fraction : ∀ c ∈ f.fraction, c.isDigit
  power : ∀ p ∈ f.power, p.2 ≠ [] ∧ ∀ c ∈ p.2, c.isDigit

/-! ## Reading a text -/

/-- What begins a text, as far as it is made of digits, and the rest. -/
def splitDigits (cs : List Char) : List Char × List Char :=
  (cs.takeWhile Char.isDigit, cs.dropWhile Char.isDigit)

def readPower : List Char → Option (Bool × List Char)
  | 'e' :: sign :: ds => some (sign == '-', ds)
  | _ => none

def readFraction : List Char → List Char × Option (Bool × List Char)
  | '.' :: cs => ((splitDigits cs).1, readPower (splitDigits cs).2)
  | cs => ([], readPower cs)

def readUnsigned (negative : Bool) (cs : List Char) : Form :=
  ⟨negative, (splitDigits cs).1, (readFraction (splitDigits cs).2).1,
    (readFraction (splitDigits cs).2).2⟩

def read : List Char → Form
  | '-' :: cs => readUnsigned true cs
  | cs => readUnsigned false cs

variable {f : Form} {ds cs : List Char} {p : Option (Bool × List Char)}

theorem splitDigits_append (hds : ∀ c ∈ ds, c.isDigit) (hcs : ∀ c ∈ cs.head?, ¬ c.isDigit) :
    splitDigits (ds ++ cs) = (ds, cs) := by
  rw [splitDigits, List.takeWhile_append_of_pos hds, List.dropWhile_append_of_pos hds]
  cases cs with
  | nil => simp
  | cons c cs => simp [hcs c rfl]

theorem head?_powerText (p : Option (Bool × List Char)) :
    ∀ c ∈ (powerText p).head?, ¬ c.isDigit := by
  cases p with
  | none => simp [powerText]
  | some p => simp [powerText]

theorem head?_rest (ds : List Char) (p : Option (Bool × List Char)) :
    ∀ c ∈ (fractionText ds ++ powerText p).head?, ¬ c.isDigit := by
  unfold fractionText
  split
  · exact head?_powerText p
  · simp

theorem readPower_text (p : Option (Bool × List Char)) : readPower (powerText p) = p := by
  rcases p with _ | ⟨_ | _, ds⟩ <;> rfl

theorem readFraction_text (hds : ∀ c ∈ ds, c.isDigit) (p : Option (Bool × List Char)) :
    readFraction (fractionText ds ++ powerText p) = (ds, p) := by
  unfold fractionText
  split
  · rename_i hnil
    subst hnil
    rcases p with _ | ⟨negative, ds⟩
    · rfl
    · exact congrArg (Prod.mk []) (readPower_text (some (negative, ds)))
  · rw [List.cons_append, readFraction, splitDigits_append hds (head?_powerText p),
      readPower_text]

theorem readUnsigned_text (hf : f.Legible) (negative : Bool) :
    readUnsigned negative (f.whole ++ (fractionText f.fraction ++ powerText f.power)) =
      { f with negative } := by
  rw [readUnsigned, splitDigits_append hf.whole (head?_rest _ _), readFraction_text hf.fraction]

theorem read_of_ne {c : Char} (hc : c ≠ '-') : read (c :: cs) = readUnsigned false (c :: cs) := by
  unfold read
  split
  · rename_i heq
    exact absurd (List.head_eq_of_cons_eq heq) hc
  · rfl

/-- The parts of a number can be read off its text. -/
theorem read_text (hf : f.Legible) : read f.text = f := by
  have hunsigned := readUnsigned_text hf f.negative
  obtain ⟨_ | _, whole, fraction, power⟩ := f
  · obtain ⟨c, cs, rfl⟩ := List.exists_cons_of_ne_nil hf.whole_ne_nil
    have hc : c ≠ '-' := by
      rintro rfl
      exact absurd (hf.whole '-' List.mem_cons_self) (by decide)
    exact (read_of_ne hc).trans hunsigned
  · exact hunsigned

/-! ## The number that digits denote -/

theorem natural_append (ds cs : List Char) :
    natural (ds ++ cs) = natural ds * 10 ^ cs.length + natural cs := by
  rw [natural, Nat.ofDigitChars_append, Nat.ofDigitChars_eq_ofDigitChars_zero, mul_comm]
  rfl

theorem natural_zeros (n : ℕ) : natural (zeros n) = 0 := by
  rw [natural, zeros, Nat.ofDigitChars_replicate_zero, mul_zero]

theorem natural_digits (d : Decimal) : natural d.digits = d.significand :=
  Nat.ofDigitChars_ten_toDigits

end Form

open Form

variable {d : Decimal} {n : ℕ}

/-! ## Digits and zeros -/

@[simp]
theorem length_zeros (n : ℕ) : (zeros n).length = n := List.length_replicate

theorem isDigit_zeros (n : ℕ) : ∀ c ∈ zeros n, c.isDigit := by
  intro c hc
  rw [List.eq_of_mem_replicate hc]
  rfl

theorem head?_digits_ne (hpos : 0 < d.significand) : d.digits.head? ≠ some '0' :=
  head?_toDigits_ne hpos

theorem getLast?_digits_ne (hlast : d.significand % 10 ≠ 0) : d.digits.getLast? ≠ some '0' := by
  have hchar : ∀ k < 10, k ≠ 0 → k.digitChar ≠ '0' := by decide
  rw [digits, getLast?_toDigits]
  intro h
  exact hchar _ (Nat.mod_lt _ (by decide)) hlast (Option.some.inj h)

/-! ## Notations -/

/-- A text is the form of a decimal, with the sign in front of it, and has no zero at the end of
what stands behind the point. -/
structure Spells (d : Decimal) (negative : Bool) (cs : List Char) (f : Form) : Prop where
  text : f.text = signText negative ++ cs
  negative : f.negative = negative
  legible : f.Legible
  size : f.size = d.rational
  trimmed : f.fraction.getLast? ≠ some '0'

/-- A form without a power of ten has no zero in front of its digits, but one in front of the point
when there is nothing else. -/
structure Plain (f : Form) : Prop where
  power : f.power = none
  whole : f.whole = ['0'] ∨ f.whole.head? ≠ some '0'

/-- A form with one digit in front of the point, and at least so many digits for the power of ten
that counts this digit. -/
structure Scaled (places : ℕ) (e : ℤ) (f : Form) : Prop where
  whole : ∃ c, f.whole = [c] ∧ c ≠ '0'
  power : ∃ ds, f.power = some (decide (e < 0), ds) ∧ natural ds = e.natAbs ∧ places ≤ ds.length ∧
    (places < ds.length → ds.head? ≠ some '0')

section Parts

variable {negative : Bool} {whole fraction cs : List Char}

theorem spells_of_parts (htext : whole ++ fractionText fraction = cs) (hne : whole ≠ [])
    (hwhole : ∀ c ∈ whole, c.isDigit) (hfraction : ∀ c ∈ fraction, c.isDigit)
    (hsize : (natural (whole ++ fraction) : ℚ) / 10 ^ fraction.length = d.rational)
    (htrimmed : fraction.getLast? ≠ some '0') :
    d.Spells negative cs ⟨negative, whole, fraction, none⟩ where
  text := by simp [Form.text, powerText, ← htext]
  negative := rfl
  legible := ⟨hne, hwhole, hfraction, nofun⟩
  size := by rw [Form.size, scale, zpow_zero, mul_one, hsize]
  trimmed := htrimmed

/-- Zeros reach as far as the units. -/
theorem spells_whole (hpos : 0 < d.significand) (he : 0 ≤ d.exponent) :
    d.Spells negative (d.digits ++ zeros d.exponent.toNat)
        ⟨negative, d.digits ++ zeros d.exponent.toNat, [], none⟩ ∧
      Plain ⟨negative, d.digits ++ zeros d.exponent.toNat, [], none⟩ := by
  have hne : d.digits ≠ [] := Nat.toDigits_ne_nil
  have hexponent : (10 : ℚ) ^ d.exponent = 10 ^ d.exponent.toNat := by
    rw [← zpow_natCast, Int.toNat_of_nonneg he]
  refine ⟨spells_of_parts (by simp [fractionText]) (by simp [hne]) ?_ (by simp) ?_ (by simp), rfl,
    ?_⟩
  · intro c hc
    exact (List.mem_append.mp hc).elim (d.isDigit_digits c) (isDigit_zeros _ c)
  · rw [List.append_nil, natural_append, natural_zeros, natural_digits, length_zeros, rational, hexponent]
    simp
  · rw [List.head?_append_of_ne_nil _ hne]
    exact .inr (head?_digits_ne hpos)

/-- The point stands between two digits. -/
theorem spells_divided {k : ℕ} (hlast : d.significand % 10 ≠ 0) (he : d.exponent = -k) (hk : 0 < k)
    (hlt : k < d.digits.length) :
    d.Spells negative
        (d.digits.take (d.digits.length - k) ++ '.' :: d.digits.drop (d.digits.length - k))
        ⟨negative, d.digits.take (d.digits.length - k), d.digits.drop (d.digits.length - k), none⟩ ∧
      Plain ⟨negative, d.digits.take (d.digits.length - k), d.digits.drop (d.digits.length - k),
        none⟩ := by
  have hpos : 0 < d.significand := Nat.pos_of_ne_zero fun h => hlast (by rw [h])
  have hlength : (d.digits.drop (d.digits.length - k)).length = k := by
    rw [List.length_drop]
    omega
  have hne : d.digits.drop (d.digits.length - k) ≠ [] := List.ne_nil_of_length_pos (by omega)
  refine ⟨spells_of_parts ?_ ?_ ?_ ?_ ?_ ?_, rfl, .inr ?_⟩
  · rw [fractionText, if_neg hne]
  · exact List.ne_nil_of_length_pos (by rw [List.length_take]; omega)
  · exact fun c hc => d.isDigit_digits c (List.mem_of_mem_take hc)
  · exact fun c hc => d.isDigit_digits c (List.mem_of_mem_drop hc)
  · rw [List.take_append_drop, natural_digits, hlength, rational, he, zpow_neg, zpow_natCast,
      div_eq_mul_inv]
  · rw [List.getLast?_drop, if_neg (by omega)]
    exact getLast?_digits_ne hlast
  · rw [List.head?_take, if_neg (by omega)]
    exact head?_digits_ne hpos

/-- Zeros stand between the point and the digits. -/
theorem spells_below {k : ℕ} (hlast : d.significand % 10 ≠ 0) (he : d.exponent = -k)
    (hle : d.digits.length ≤ k) :
    d.Spells negative ('0' :: '.' :: zeros (k - d.digits.length) ++ d.digits)
        ⟨negative, ['0'], zeros (k - d.digits.length) ++ d.digits, none⟩ ∧
      Plain ⟨negative, ['0'], zeros (k - d.digits.length) ++ d.digits, none⟩ := by
  have hne : d.digits ≠ [] := Nat.toDigits_ne_nil
  have hlength : (zeros (k - d.digits.length) ++ d.digits).length = k := by
    rw [List.length_append, length_zeros]
    omega
  refine ⟨spells_of_parts ?_ (by simp) (by simp) ?_ ?_ ?_, rfl, .inl rfl⟩
  · simp [fractionText, hne]
  · intro c hc
    exact (List.mem_append.mp hc).elim (isDigit_zeros _ c) (d.isDigit_digits c)
  · have hzero : natural ['0'] = 0 := rfl
    rw [natural_append, natural_append, hzero, natural_zeros, natural_digits, hlength, rational, he,
      zpow_neg, zpow_natCast, div_eq_mul_inv]
    simp
  · rw [List.getLast?_append_of_ne_nil _ hne]
    exact getLast?_digits_ne hlast

end Parts

section Positional

variable {k : ℕ}

theorem positional_whole (he : 0 ≤ d.exponent) :
    d.positional = d.digits ++ zeros d.exponent.toNat := by
  rw [positional, if_pos he]

theorem positional_divided (he : d.exponent = -k) (hk : 0 < k) (hlt : k < d.digits.length) :
    d.positional =
      d.digits.take (d.digits.length - k) ++ '.' :: d.digits.drop (d.digits.length - k) := by
  have hafter : (-d.exponent).toNat = k := by omega
  simp only [positional, if_neg (show ¬ 0 ≤ d.exponent by omega), hafter, if_pos hlt]

theorem positional_below (he : d.exponent = -k) (hk : 0 < k) (hle : d.digits.length ≤ k) :
    d.positional = '0' :: '.' :: zeros (k - d.digits.length) ++ d.digits := by
  have hafter : (-d.exponent).toNat = k := by omega
  simp only [positional, if_neg (show ¬ 0 ≤ d.exponent by omega), hafter,
    if_neg (Nat.not_lt.mpr hle)]

end Positional

theorem spells_positional (d : Decimal) (negative : Bool) (hlast : d.significand % 10 ≠ 0) :
    ∃ f, d.Spells negative d.positional f ∧ Plain f := by
  have hpos : 0 < d.significand := Nat.pos_of_ne_zero fun h => hlast (by rw [h])
  by_cases he : 0 ≤ d.exponent
  · rw [positional_whole he]
    exact ⟨_, spells_whole hpos he⟩
  · obtain ⟨k, hk⟩ : ∃ k : ℕ, d.exponent = -k := ⟨(-d.exponent).toNat, by omega⟩
    have hpositive : 0 < k := by omega
    rcases Nat.lt_or_ge k d.digits.length with hlt | hle
    · rw [positional_divided hk hpositive hlt]
      exact ⟨_, spells_divided hlast hk hpositive hlt⟩
    · rw [positional_below hk hpositive hle]
      exact ⟨_, spells_below hlast hk hle⟩

/-! ## Notation with an exponent -/

/-- The digits of the exponent are filled up with zeros in front. -/
def exponentDigits (places : ℕ) (e : ℤ) : List Char :=
  zeros (places - (Nat.toDigits 10 e.natAbs).length) ++ Nat.toDigits 10 e.natAbs

theorem isDigit_exponentDigits (places : ℕ) (e : ℤ) : ∀ c ∈ exponentDigits places e, c.isDigit :=
  fun c hc => (List.mem_append.mp hc).elim (isDigit_zeros _ c) fun h =>
    Nat.isDigit_of_mem_toDigits (by decide) (by decide) h

theorem natural_exponentDigits (places : ℕ) (e : ℤ) :
    natural (exponentDigits places e) = e.natAbs := by
  rw [exponentDigits, natural_append, natural_zeros, natural, Nat.ofDigitChars_ten_toDigits,
    zero_mul, zero_add]

/-- No zero is put in front of an exponent that has enough digits. -/
theorem length_exponentDigits (places : ℕ) (hplaces : 0 < places) (e : ℤ) :
    places ≤ (exponentDigits places e).length ∧
      (places < (exponentDigits places e).length → (exponentDigits places e).head? ≠ some '0') := by
  have hlength : (exponentDigits places e).length =
      places - (Nat.toDigits 10 e.natAbs).length + (Nat.toDigits 10 e.natAbs).length := by
    rw [exponentDigits, List.length_append, length_zeros]
  refine ⟨by omega, fun hlt => ?_⟩
  have hmore : places < (Nat.toDigits 10 e.natAbs).length := by omega
  have hpos : 0 < e.natAbs := by
    refine Nat.pos_of_ne_zero fun h => ?_
    rw [h, Nat.toDigits_zero, List.length_singleton] at hmore
    omega
  rw [exponentDigits, Nat.sub_eq_zero_of_le hmore.le, zeros, List.replicate_zero, List.nil_append]
  exact head?_toDigits_ne hpos

theorem scale_exponentDigits (places : ℕ) (e : ℤ) :
    scale (some (decide (e < 0), exponentDigits places e)) = e := by
  simp only [scale, natural_exponentDigits, decide_eq_true_eq]
  split <;> omega

theorem spells_scientific (d : Decimal) (negative : Bool) (hlast : d.significand % 10 ≠ 0)
    {places : ℕ} (hplaces : 0 < places) :
    ∃ f, d.Spells negative (d.scientific places) f ∧ Scaled places d.leading f := by
  have hpos : 0 < d.significand := Nat.pos_of_ne_zero fun h => hlast (by rw [h])
  obtain ⟨c, cs, hdigits⟩ : ∃ c cs, d.digits = c :: cs :=
    List.exists_cons_of_ne_nil Nat.toDigits_ne_nil
  have hc : c ≠ '0' := by
    rintro rfl
    exact head?_digits_ne hpos (by rw [hdigits]; rfl)
  have hisDigit := d.isDigit_digits
  rw [hdigits] at hisDigit
  have hlead : d.leading = d.exponent + cs.length := by
    rw [leading, hdigits, List.length_cons]
    push_cast
    ring
  refine ⟨⟨negative, [c], cs, some (decide (d.leading < 0), exponentDigits places d.leading)⟩,
    ⟨?_, rfl, ⟨by simp, ?_, ?_, ?_⟩, ?_, ?_⟩, ⟨c, rfl, hc⟩, _, rfl, ?_⟩
  · simp [Form.text, scientific, powerText, exponentDigits, fractionText, hdigits]
  · exact fun x hx => List.mem_singleton.mp hx ▸ hisDigit c List.mem_cons_self
  · exact fun x hx => hisDigit x (List.mem_cons_of_mem _ hx)
  · intro p hp
    cases hp
    refine ⟨fun h => ?_, isDigit_exponentDigits places _⟩
    change exponentDigits places d.leading = [] at h
    have hlength := (length_exponentDigits places hplaces d.leading).1
    rw [h, List.length_nil] at hlength
    omega
  · rw [Form.size, scale_exponentDigits, List.singleton_append, ← hdigits, natural_digits, rational,
      hlead, zpow_add₀ (by norm_num), zpow_natCast]
    field_simp
  · have hend := getLast?_digits_ne hlast
    rw [hdigits] at hend
    cases cs with
    | nil => simp
    | cons c' cs => rwa [List.getLast?_cons_cons] at hend
  · exact ⟨natural_exponentDigits places _, length_exponentDigits places hplaces _⟩

end Decimal

end FiberMachine
