import FiberMachine.Json.Cursor
import FiberMachine.Decimal.Magnitude

/-!
# Numerals

A numeral without fraction and exponent is a whole number when it fits 64 bits.
Every other numeral is a double: its digits fill a 64-bit significand, the digits
that no longer fit only count for the exponent, and the significand is scaled by
a power of ten. A numeral too large for a double is an error.
-/

namespace FiberMachine.JsonText

inductive Numeral where
  | natural (n : Nat)
  | negative (n : Nat)
  | real (x : Float)
deriving DecidableEq, Repr

namespace Numeral

def toFloat : Numeral → Float
  | natural n => Float.ofNat n
  | negative n => -(Float.ofNat n)
  | real x => x

end Numeral

def significandLimit : Nat := 0x10000000000000000

def digitValue (c : Char) : Nat := c.toNat - '0'.toNat

/-- Appends digits to a significand while it fits, and counts those left. -/
def absorb : Nat → List Char → Nat × Nat
  | s, [] => (s, 0)
  | s, c :: cs =>
    let next := s * 10 + digitValue c
    if next < significandLimit then absorb next cs else (s, cs.length + 1)

def digits : Reader (List Char) := fun cursor =>
  .ok (cursor.rest.takeWhile Char.isDigit, ⟨cursor.rest.dropWhile Char.isDigit, cursor.line⟩)

def greatestPower : Nat := 308

def powerOfTen (n : Nat) : Float := Float.ofScientific 1 false n

/-- A double divided by a power of ten, in steps of the greatest one. -/
def scaleDown : Nat → Float → Nat → Float
  | 0, x, _ => x
  | fuel + 1, x, n =>
    if n ≤ greatestPower then x / powerOfTen n
    else if x == 0.0 then x
    else scaleDown fuel (x / powerOfTen greatestPower) (n - greatestPower)

/-- Three steps down make every 64-bit significand zero. -/
def scaleSteps : Nat := 4

def scale? (significand : Nat) (exponent : Int) : Option Float :=
  let x := Float.ofNat significand
  if exponent < 0 then some (scaleDown scaleSteps x (-exponent).toNat)
  else if exponent ≤ greatestPower then
    let y := x * powerOfTen exponent.toNat
    if y.isInf then none else some y
  else if significand = 0 then some x
  else none

def real (isNegative : Bool) (significand : Nat) (exponent : Int) : Reader Numeral :=
  match scale? significand exponent with
  | some x => pure (.real (Double.withSign isNegative x))
  | none => failHere

/-- The greatest exponent that is added up. -/
def exponentLimit : Nat := 0x80000000

def exponentPart (isNegative : Bool) (significand : Nat) (exponent : Int) : Reader Numeral := do
  discard
  let sign ← peek
  let isUp := sign ≠ some '-'
  if sign = some '+' || sign = some '-' then discard
  let ds ← digits
  if ds.isEmpty then
    discard
    failHere
  else
    let n := ds.foldl (fun n c => n * 10 + digitValue c) 0
    if exponentLimit ≤ n then
      if significand ≠ 0 && isUp then failHere else pure (.real (Double.withSign isNegative 0.0))
    else real isNegative significand (if isUp then exponent + n else exponent - n)

def startsExponent (c : Option Char) : Bool := c = some 'e' || c = some 'E'

def fractionPart (isNegative : Bool) (significand : Nat) (exponent : Int) : Reader Numeral := do
  discard
  let ds ← digits
  if ds.isEmpty then failAtNext
  else
    let (s, left) := absorb significand ds
    let exponent := exponent - (ds.length - left : Nat)
    if startsExponent (← peek) then exponentPart isNegative s exponent
    else real isNegative s exponent

def whole (isNegative : Bool) (n : Nat) : Numeral :=
  if !isNegative then .natural n
  else if 0 < n && n ≤ 0x8000000000000000 then .negative n
  else .real (-(Float.ofNat n))

/-- A numeral whose sign has been taken. A leading zero stands alone. -/
def unsigned (isNegative : Bool) : Reader Numeral := do
  let ds ← digits
  match ds with
  | [] => do
    discard
    failHere
  | '0' :: _ :: _ => failHere
  | _ =>
    let (s, left) := absorb 0 ds
    let next ← peek
    if next = some '.' then fractionPart isNegative s left
    else if startsExponent next then exponentPart isNegative s left
    else if left = 0 then pure (whole isNegative s)
    else real isNegative s left

/-- The numeral that begins with a character, if one does. -/
def numeral? (c : Char) : Option (Reader Numeral) :=
  if c = '-' then some (do discard; unsigned true)
  else if c.isDigit then some (unsigned false)
  else none

end FiberMachine.JsonText
