import FiberMachine.Decimal.Digits

/-!
# The shortest decimal of a double

A decimal reads back as a double when it lies in the interval of numbers that
round to it. The search goes through the decimal grids from one digit to
seventeen; on each it looks at the two neighbours of the exact value, and it
takes the first grid with a neighbour in the interval.
-/

namespace FiberMachine

namespace Magnitude

/-- The value and the two ends of its rounding interval, in quarters of the
value's unit. The gap below a power of two is half the gap above it. -/
def quarters (m : Magnitude) : Nat × Nat × Nat :=
  let below := if m.mantissa = 0x10000000000000 ∧ 0 < m.shift then 1 else 2
  (4 * m.mantissa, 4 * m.mantissa - below, 4 * m.mantissa + 2)

/-- Whether the fraction `num / den` rounds to this double. -/
def reads (m : Magnitude) (num den : Nat) : Bool :=
  let (_, low, high) := m.quarters
  let x := (num * 4) <<< (unitPlaces - m.shift)
  let unit := den <<< (m.shift - unitPlaces)
  if m.mantissa % 2 = 0 then low * unit ≤ x && x ≤ high * unit
  else low * unit < x && x < high * unit

end Magnitude

namespace Decimal

/-- Whether a decimal rounds to the given double. -/
def reads (d : Decimal) (m : Magnitude) : Bool :=
  m.reads (d.significand * Nat.pow 10 d.exponent.toNat) (Nat.pow 10 (-d.exponent).toNat)

/-- The better of the two neighbours of a double on one grid, if one reads back. -/
def onGrid (tie : Tie) (m : Magnitude) (unit : Int) : Option Decimal :=
  let f := scaled m.numerator m.denominator unit
  let near : Decimal := ⟨roundQuotient tie f.1 f.2, unit⟩
  let low : Decimal := ⟨f.1 / f.2, unit⟩
  let high : Decimal := ⟨f.1 / f.2 + 1, unit⟩
  if near.reads m then some near
  else if low.reads m then some low
  else if high.reads m then some high
  else none

/-- Seventeen digits always read back, so the last grid needs no test. -/
def maxDigits : Nat := 17

def shortest (tie : Tie) (m : Magnitude) : Decimal :=
  let lead := leadingExponent m.numerator m.denominator
  let grids := (List.range (maxDigits - 1)).map fun (i : Nat) => lead - i
  let found := grids.findSome? (onGrid tie m)
  (found.getD (nearest tie m.numerator m.denominator (lead + 1 - maxDigits))).normalize

end Decimal

end FiberMachine
