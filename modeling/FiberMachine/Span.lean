import FiberMachine.Fault

/-!
# Spans of numbers

A span goes from one number toward another and leaves the end out. Its values
come from repeated addition of the step, so a step that is lost to rounding is a
failure and not an endless span.
-/

namespace FiberMachine

structure Span where
  start : Float
  stop : Float
  step : Float
deriving DecidableEq, Repr

namespace Span

/-- The most values a span is written out with. -/
def maxLength : Nat := 0x1000000

def unitStep (start stop : Float) : Span := ⟨start, stop, 1.0⟩

/-- Whether a cursor has not yet reached the end. -/
def contains (s : Span) (cursor : Float) : Bool :=
  if 0.0 < s.step then cursor < s.stop else s.stop < cursor

def advance (s : Span) (cursor : Float) : Except Fault Float :=
  let next := cursor + s.step
  if next == cursor then .error (.failed (.stuckRange s.start s.stop s.step cursor))
  else .ok next

def tooLong (s : Span) : Fault := .failed (.longRange s.start s.stop s.step maxLength)

/-- The number of values as the quotient of the distance by the step says it. -/
def length (s : Span) : Except Fault Nat :=
  if s.step == 0.0 || !s.step.isFinite then .ok 0
  else
    let count := Double.round .up ((s.stop - s.start) / s.step)
    if count.isNaN || count ≤ 0.0 then .ok 0
    else if Float.ofNat maxLength < count then .error s.tooLong
    else .ok (Double.clamp count 0 maxLength).toNat

def isEmpty (s : Span) : Bool := s.length matches .ok 0

/-- The values from a cursor on; the number is how many there may still be. -/
def valuesFrom (s : Span) : Nat → Float → Array Float → Except Fault (Array Float)
  | 0, cursor, seen => if s.contains cursor then .error s.tooLong else .ok seen
  | room + 1, cursor, seen =>
    if s.contains cursor then
      match s.advance cursor with
      | .error fault => .error fault
      | .ok next => valuesFrom s room next (seen.push cursor)
    else .ok seen

def values (s : Span) : Except Fault (Array Float) :=
  match s.length with
  | .error fault => .error fault
  | .ok 0 => .ok #[]
  | .ok _ => s.valuesFrom maxLength s.start #[]

end Span

end FiberMachine
