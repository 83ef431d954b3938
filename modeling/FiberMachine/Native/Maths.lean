import FiberMachine.Builtin
import FiberMachine.Decimal.Magnitude

/-!
# Mathematical functions

The functions on doubles. Those that the processor or the system library does not
have are written with the others; they are good to a dozen digits.
-/

namespace FiberMachine

namespace UnaryMath

/-- The logarithm of `1 + x`, also for an `x` near zero. -/
def logOnePlus (x : Float) : Float :=
  let y := 1.0 + x
  if y == 1.0 then x
  else if y == x then Float.log y
  else Float.log y * (x / (y - 1.0))

/-- The exponential less one, also for an `x` near zero. -/
def expLessOne (x : Float) : Float :=
  let y := Float.exp x
  if y == 1.0 then x
  else if y - 1.0 == -1.0 then -1.0
  else if y.isInf then y
  else (y - 1.0) * (x / Float.log y)

/-- The length of the hypotenuse over legs of one and of a length. -/
def hypotenuse (x : Float) : Float :=
  if 1.0 < x then x * Float.sqrt (1.0 + (1.0 / x) * (1.0 / x)) else Float.sqrt (1.0 + x * x)

/-- From here on one is lost beside the square of a double. -/
def large : Float := 268435456.0

/-- The logarithm of twice a double, which may be too large to be doubled. -/
def logDouble (x : Float) : Float := Float.log x + Float.log 2.0

/-- Carries an odd function over from the doubles that are not negative. -/
def odd (f : Float → Float) (x : Float) : Float :=
  Double.withSign (x < 0.0 || (x == 0.0 && 1.0 / x < 0.0)) (f (Float.abs x))

def inverseSinh : Float → Float := odd fun x =>
  if large ≤ x then logDouble x
  else
    let r := 1.0 / x
    logOnePlus (x + x / (hypotenuse r + r))

def inverseCosh (x : Float) : Float :=
  if x < 1.0 then Float.ofBits 0x7ff8000000000000
  else if large ≤ x then logDouble x
  else Float.log (x + Float.sqrt (x - 1.0) * Float.sqrt (x + 1.0))

def inverseTanh : Float → Float := odd fun x => 0.5 * logOnePlus (2.0 * x / (1.0 - x))

def apply : UnaryMath → Float → Float
  | sin => Float.sin
  | cos => Float.cos
  | tan => Float.tan
  | asin => Float.asin
  | acos => Float.acos
  | atan => Float.atan
  | sinh => Float.sinh
  | cosh => Float.cosh
  | tanh => Float.tanh
  | asinh => inverseSinh
  | acosh => inverseCosh
  | atanh => inverseTanh
  | exp => Float.exp
  | exp2 => Float.exp2
  | expm1 => expLessOne
  | log => Float.log
  | log2 => Float.log2
  | log10 => Float.log10
  | floor => Double.round .down
  | ceil => Double.round .up
  | round => Double.round .nearest
  | sqrt => Float.sqrt
  | cbrt => Float.cbrt
  | abs => Float.abs

end UnaryMath

namespace BinaryMath

def apply : BinaryMath → Float → Float → Float
  | atan2 => Float.atan2
  | pow => Float.pow

end BinaryMath

end FiberMachine
