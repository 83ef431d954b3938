import FiberMachine.Decimal.Magnitude

/-!
# Decimal numerals

A decimal is a whole number of units of a power of ten. This module finds the
decimals near a fraction, removes trailing zeros, and lays the digits out in
positional notation or in notation with an exponent.
-/

namespace FiberMachine

/-- The number `significand * 10 ^ exponent`. -/
structure Decimal where
  significand : Nat
  exponent : Int
deriving DecidableEq, Repr

namespace Decimal

/-- The exponent of the greatest power of ten that is at most `n`; zero for zero. -/
def log10 (n : Nat) : Nat :=
  if n < 10 then 0 else log10 (n / 10) + 1
termination_by n

theorem pow_log10_le {n : Nat} (h : 0 < n) : Nat.pow 10 (log10 n) ≤ n := by
  induction n using Nat.strongRecOn with
  | ind n ih =>
    rw [log10]
    split
    · simpa using Nat.succ_le_of_lt h
    · have hrest := ih (n / 10) (by omega) (by omega)
      have hpow : Nat.pow 10 (log10 (n / 10) + 1) = Nat.pow 10 (log10 (n / 10)) * 10 := rfl
      omega

theorem lt_pow_log10_succ (n : Nat) : n < Nat.pow 10 (log10 n + 1) := by
  induction n using Nat.strongRecOn with
  | ind n ih =>
    rw [log10]
    split
    · simpa using by assumption
    · have hrest := ih (n / 10) (by omega)
      have hpow : Nat.pow 10 (log10 (n / 10) + 1 + 1) = Nat.pow 10 (log10 (n / 10) + 1) * 10 := rfl
      omega

/-- The power of ten at which the digits of a positive fraction begin. -/
def leadingExponent (num den : Nat) : Int :=
  if den ≤ num then log10 (num / den)
  else -(log10 ((den + num - 1) / num - 1) + 1 : Int)

/-- A fraction in units of a power of ten, as a fraction again. -/
def scaled (num den : Nat) (unit : Int) : Nat × Nat :=
  (num * Nat.pow 10 (-unit).toNat, den * Nat.pow 10 unit.toNat)

/-- The multiple of a power of ten nearest to a fraction. -/
def nearest (tie : Tie) (num den : Nat) (unit : Int) : Decimal :=
  let f := scaled num den unit
  ⟨roundQuotient tie f.1 f.2, unit⟩

/-- Removes trailing zeros; the second argument bounds their number. -/
def dropZeros : Decimal → Nat → Decimal
  | d, 0 => d
  | d, fuel + 1 =>
    if d.significand % 10 = 0 then dropZeros ⟨d.significand / 10, d.exponent + 1⟩ fuel
    else d

def normalize (d : Decimal) : Decimal :=
  if d.significand = 0 then d else dropZeros d (log10 d.significand)

/-- A positive fraction rounded to a number of significant digits. -/
def significant (places : Nat) (num den : Nat) : Decimal :=
  nearest .toEven num den (leadingExponent num den + 1 - places)

def digits (d : Decimal) : List Char := Nat.toDigits 10 d.significand

theorem isDigit_digits (d : Decimal) : ∀ c ∈ d.digits, c.isDigit := fun _ hc =>
  Nat.isDigit_of_mem_toDigits (by decide) (by decide) hc

/-- Only zero begins with the digit zero. -/
theorem head?_toDigits_ne {n : Nat} (h : 0 < n) : (Nat.toDigits 10 n).head? ≠ some '0' := by
  have hdigit : ∀ n < 10, 0 < n → [n.digitChar].head? ≠ some '0' := by decide
  induction n using Nat.strongRecOn with
  | ind n ih =>
    obtain hlt | hle := Nat.lt_or_ge n 10
    · rw [Nat.toDigits_of_lt_base hlt]
      exact hdigit n hlt h
    · have hinit := ih (n / 10) (by omega) (by omega)
      obtain ⟨c, cs, hcons⟩ : ∃ c cs, Nat.toDigits 10 (n / 10) = c :: cs :=
        List.exists_cons_of_ne_nil Nat.toDigits_ne_nil
      rw [Nat.toDigits_of_base_le (by decide) hle, hcons]
      rwa [hcons] at hinit

theorem getLast?_toDigits (n : Nat) :
    (Nat.toDigits 10 n).getLast? = some (n % 10).digitChar := by
  obtain hlt | hle := Nat.lt_or_ge n 10
  · rw [Nat.toDigits_of_lt_base hlt, Nat.mod_eq_of_lt hlt]
    rfl
  · rw [Nat.toDigits_of_base_le (by decide) hle, List.getLast?_concat]

/-- The power of ten that the first digit counts. -/
def leading (d : Decimal) : Int := d.exponent + d.digits.length - 1

def zeros (n : Nat) : List Char := List.replicate n '0'

/-- The digits with a point at the place of the units, and zeros as far as it. -/
def positional (d : Decimal) : List Char :=
  if 0 ≤ d.exponent then d.digits ++ zeros d.exponent.toNat
  else
    let after := (-d.exponent).toNat
    if after < d.digits.length then
      d.digits.take (d.digits.length - after) ++ '.' :: d.digits.drop (d.digits.length - after)
    else '0' :: '.' :: zeros (after - d.digits.length) ++ d.digits

/-- One digit before the point, then the exponent with its sign and at least the
given number of digits. -/
def scientific (d : Decimal) (exponentDigits : Nat) : List Char :=
  let tail := d.digits.drop 1
  let fraction := if tail.isEmpty then [] else '.' :: tail
  let e := Nat.toDigits 10 d.leading.natAbs
  d.digits.take 1 ++ fraction ++ 'e' :: (if d.leading < 0 then '-' else '+') ::
    (zeros (exponentDigits - e.length) ++ e)

end Decimal

end FiberMachine
