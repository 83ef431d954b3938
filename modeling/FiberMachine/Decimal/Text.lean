import FiberMachine.Decimal.Shortest

/-!
# Numbers as text

Three formats. What a program prints has six significant digits: it is formatted
with an exponent first, and again in positional notation where the exponent is
small, and zeros at its end are dropped. A number inside a message has the fewest
digits that read back and no exponent. A number in a JSON text has the fewest
digits that read back, a point or an exponent, and no form for what is not finite.
-/

namespace FiberMachine

namespace Double

def signed (negative : Bool) (cs : List Char) : String :=
  String.ofList (if negative then '-' :: cs else cs)

def signText (negative : Bool) : List Char := if negative then ['-'] else []

/-! ## Formats with a number of decimals -/

/-- A whole number in decimal digits. -/
def integerText (n : Int) : List Char := signText (n < 0) ++ Nat.toDigits 10 n.natAbs

/-- One digit, a point with the decimals behind it, and the exponent. A number that is rounded up
to a power of ten has a digit more than it needs, a zero. -/
def exponential (decimals : Nat) (negative : Bool) (m : Magnitude) : List Char :=
  let d := Decimal.significant (decimals + 1) m.numerator m.denominator
  signText negative ++ d.digits.take 1 ++ '.' :: (d.digits.drop 1).take decimals ++
    'e' :: integerText d.leading

/-- The digits in positional notation, as far as a number of decimals. -/
def fixedPoint (decimals : Nat) (negative : Bool) (m : Magnitude) : List Char :=
  signText negative ++ (Decimal.nearest .toEven m.numerator m.denominator (-decimals)).positional

/-! ## What a program prints -/

/-- The significant digits of a number that is printed. -/
def printedDigits : Nat := 6

/-- Drops the zeros at the end of a text with a point, and then a point at its end. -/
def stripZeros (cs : List Char) : List Char :=
  if cs.contains '.' then
    match cs.reverse.dropWhile (· == '0') with
    | '.' :: kept => kept.reverse
    | kept => kept.reverse
  else cs

/-- The texts before and behind the first `e`. -/
def splitExponent (cs : List Char) : List Char × List Char :=
  (cs.takeWhile (· != 'e'), (cs.dropWhile (· != 'e')).drop 1)

def readInteger : List Char → Int
  | '-' :: ds => -(Nat.ofDigitChars 10 ds 0 : Nat)
  | ds => (Nat.ofDigitChars 10 ds 0 : Nat)

/-- Positional notation holds for the exponents from -4 to 5. -/
def isPrintedPlain (exponent : Int) : Bool := -4 ≤ exponent && exponent < printedDigits

/-- The exponent with its sign and two digits at least. -/
def paddedExponent (exponent : Int) : List Char :=
  let e := Nat.toDigits 10 exponent.natAbs
  'e' :: (if exponent < 0 then '-' else '+') :: (Decimal.zeros (2 - e.length) ++ e)

def printed (x : Float) : String :=
  match ofFloat x with
  | .nan => "nan"
  | .infinite negative => signed negative ['i', 'n', 'f']
  | .finite negative m =>
    if m.mantissa = 0 then signed negative ['0']
    else
      let (mantissa, ds) := splitExponent (exponential (printedDigits - 1) negative m)
      let exponent := readInteger ds
      String.ofList <|
        if isPrintedPlain exponent then
          stripZeros (fixedPoint (printedDigits - 1 - exponent).toNat negative m)
        else stripZeros mantissa ++ paddedExponent exponent

def plain (x : Float) : String :=
  match ofFloat x with
  | .nan => "NaN"
  | .infinite negative => signed negative ['i', 'n', 'f']
  | .finite negative m =>
    if m.mantissa = 0 then signed negative ['0']
    else signed negative (Decimal.shortest .upward m).positional

/-- A JSON number is positional from `10 ^ (-5)` up to and without `10 ^ 16`. -/
def isJsonPlain (d : Decimal) : Bool := -5 ≤ d.leading && d.leading < 16

def json? (x : Float) : Option String :=
  match ofFloat x with
  | .nan | .infinite _ => none
  | .finite negative m =>
    if m.mantissa = 0 then some (signed negative ['0', '.', '0'])
    else
      let d := Decimal.shortest .toEven m
      let whole := if 0 ≤ d.exponent then ['.', '0'] else []
      some (signed negative
        (if isJsonPlain d then d.positional ++ whole else d.scientific 1))

end Double

end FiberMachine
