import FiberMachine.Decimal.Magnitude

/-!
# Durations

A duration is a number of nanoseconds. The longest one has as many whole seconds
as a 64-bit word can count.
-/

namespace FiberMachine

abbrev Duration := Nat

namespace Duration

def perSecond : Nat := 1000000000

def perMillisecond : Nat := 1000000

def longest : Duration := 0xffffffffffffffff * perSecond + (perSecond - 1)

/-- Times beyond the longest duration are as late as it. -/
def addSaturating (a b : Duration) : Duration := min (a + b) longest

/-- The seconds as a double: whole seconds and the rest are rounded apart. -/
def toSeconds (d : Duration) : Float :=
  Float.ofNat (d / perSecond) + Float.ofNat (d % perSecond) / Float.ofNat perSecond

/-- A number of seconds to the nearest nanosecond. A negative number, one that
is not finite and one beyond the longest duration have none. -/
def ofSeconds? (x : Float) : Option Duration :=
  match Double.ofFloat x with
  | .finite negative m =>
    if negative && m.mantissa ≠ 0 then none
    else
      let d := roundQuotient .toEven (m.numerator * perSecond) m.denominator
      if d / perSecond < 0x10000000000000000 then some d else none
  | _ => none

def ofMilliseconds? (x : Float) : Option Duration := ofSeconds? (x / 1000.0)

end Duration

end FiberMachine
