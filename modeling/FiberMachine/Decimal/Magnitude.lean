/-!
# Doubles as fractions

A finite double is a sign and a natural number of units, each unit a power of
two counted from the least one, 2 ^ (-1074). All later arithmetic on digits is
exact arithmetic on the numerator and denominator of that fraction.
-/

namespace FiberMachine

/-- The size of a finite double: `mantissa * 2 ^ shift / 2 ^ 1074`. -/
structure Magnitude where
  mantissa : Nat
  shift : Nat
deriving DecidableEq, Repr

namespace Magnitude

def unitPlaces : Nat := 1074

def numerator (m : Magnitude) : Nat := m.mantissa <<< (m.shift - unitPlaces)

def denominator (m : Magnitude) : Nat := 1 <<< (unitPlaces - m.shift)

theorem denominator_pos (m : Magnitude) : 0 < m.denominator := by
  rw [denominator, Nat.one_shiftLeft]
  exact Nat.two_pow_pos _

/-- The fraction is the mantissa in units of `2 ^ shift / 2 ^ 1074`. -/
theorem numerator_mul (m : Magnitude) :
    m.numerator <<< unitPlaces = m.mantissa <<< m.shift * m.denominator := by
  simp only [numerator, denominator, Nat.shiftLeft_eq, Nat.one_mul]
  rcases Nat.le_total m.shift unitPlaces with h | h
  · rw [Nat.sub_eq_zero_of_le h, Nat.pow_zero, Nat.mul_one, Nat.mul_assoc, ← Nat.pow_add,
      Nat.add_sub_cancel' h]
  · rw [Nat.sub_eq_zero_of_le h, Nat.pow_zero, Nat.mul_one, Nat.mul_assoc, ← Nat.pow_add,
      Nat.sub_add_cancel h]

def isIntegral (m : Magnitude) : Bool := m.numerator % m.denominator == 0

end Magnitude

/-- What a 64-bit pattern means as a double. -/
inductive Double where
  | nan
  | infinite (negative : Bool)
  | finite (negative : Bool) (size : Magnitude)
deriving DecidableEq, Repr

namespace Double

def fractionBits : Nat := 52

def ofBits (w : UInt64) : Double :=
  let negative := 0x8000000000000000 ≤ w.toNat
  let exponent := w.toNat >>> fractionBits % 2048
  let fraction := w.toNat % 1 <<< fractionBits
  if exponent = 2047 then
    if fraction = 0 then .infinite negative else .nan
  else if exponent = 0 then .finite negative ⟨fraction, 0⟩
  else .finite negative ⟨1 <<< fractionBits + fraction, exponent - 1⟩

def ofFloat (x : Float) : Double := ofBits x.toBits

def withSign (negative : Bool) (x : Float) : Float := if negative then -x else x

/-- The double with the given fraction of units, for a mantissa of at most
fifty-three bits after its trailing zeros are moved into the shift. -/
def exactly (negative : Bool) (mantissa shift : Nat) : Float :=
  if mantissa = 0 then withSign negative 0.0
  else
    let extra := mantissa.log2 - fractionBits
    let m := mantissa >>> extra
    let s := shift + extra
    let spare := min (fractionBits - m.log2) s
    withSign negative
      (Float.ofBits (UInt64.ofNat ((s - spare) <<< fractionBits + m <<< spare)))

end Double

/-- How a quotient that is not whole becomes a whole number. -/
inductive Tie where
  | toEven
  | upward

/-- The whole number nearest to a quotient. -/
def roundQuotient (tie : Tie) (num den : Nat) : Nat :=
  let q := num / den
  let twice := 2 * (num % den)
  if twice < den then q
  else if den < twice then q + 1
  else match tie with
    | .toEven => if q % 2 = 0 then q else q + 1
    | .upward => q + 1

/-- Rounding moves a quotient by half a unit at most. -/
theorem roundQuotient_near (tie : Tie) (num den : Nat) (h : 0 < den) :
    2 * (roundQuotient tie num den * den) ≤ 2 * num + den ∧
      2 * num ≤ 2 * (roundQuotient tie num den * den) + den := by
  have hd : den * (num / den) + num % den = num := Nat.div_add_mod num den
  have hm : num % den < den := Nat.mod_lt _ h
  have hc : den * (num / den) = num / den * den := Nat.mul_comm _ _
  have hs : (num / den + 1) * den = num / den * den + den := Nat.succ_mul _ _
  unfold roundQuotient
  dsimp only
  split
  · omega
  · split
    · rw [hs]; omega
    · cases tie with
      | upward => dsimp only; rw [hs]; omega
      | toEven =>
        dsimp only
        split
        · omega
        · rw [hs]; omega

namespace Double

/-- The ways a fractional part is dropped. -/
inductive Rounding where
  | down
  | up
  | towardZero
  | nearest

def roundMagnitude (r : Rounding) (negative : Bool) (m : Magnitude) : Nat :=
  let whole := m.numerator / m.denominator
  let ceiling := if m.isIntegral then whole else whole + 1
  match r with
  | .down => if negative then ceiling else whole
  | .up => if negative then whole else ceiling
  | .towardZero => whole
  | .nearest => roundQuotient .upward m.numerator m.denominator

/-- Rounds to a whole double and keeps the sign, also of a result that is zero. -/
def round (r : Rounding) (x : Float) : Float :=
  match ofFloat x with
  | .finite negative m =>
    if m.isIntegral then x else withSign negative (Float.ofNat (roundMagnitude r negative m))
  | _ => x

/-- The whole number a double denotes, if it denotes one. -/
def toInt? (x : Float) : Option Int :=
  match ofFloat x with
  | .finite negative m =>
    if m.isIntegral then
      let n : Int := m.numerator / m.denominator
      some (if negative then -n else n)
    else none
  | _ => none

/-- The double without its fractional part, saturated to the bounds; not a
number counts as zero. -/
def clamp (x : Float) (low high : Int) : Int :=
  match ofFloat x with
  | .nan => 0
  | .infinite negative => if negative then low else high
  | .finite negative m =>
    let n : Int := m.numerator / m.denominator
    max low (min high (if negative then -n else n))

/-- The remainder of a division that rounds toward zero; its sign is that of the
dividend. -/
def remainder (x y : Float) : Float :=
  match ofFloat x, ofFloat y with
  | .finite negative a, .finite _ b =>
    if b.mantissa = 0 then Float.ofBits 0x7ff8000000000000
    else if a.mantissa = 0 then x
    else
      let shift := min a.shift b.shift
      let dividend := a.mantissa <<< (a.shift - shift)
      let divisor := b.mantissa <<< (b.shift - shift)
      exactly negative (dividend % divisor) shift
  | .finite .., .infinite _ => x
  | _, _ => Float.ofBits 0x7ff8000000000000

end Double

end FiberMachine
