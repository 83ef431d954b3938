import FiberMachine.Value
import FiberMachine.Fault

/-!
# Arithmetic

The operations on numbers. An operand of another type is a fault that names the
operation and what it got.
-/

namespace FiberMachine

namespace Value

def bothNumbers (operation : String) (a b : Value) : Except Fault (Float × Float) :=
  match a.toFloat?, b.toFloat? with
  | some x, some y => .ok (x, y)
  | _, _ => .error (.typeMismatch operation "numbers" (a.scalarKind ++ " and " ++ b.scalarKind))

def combine (operation : String) (f : Float → Float → Float) (a b : Value) :
    Except Fault Value :=
  match bothNumbers operation a b with
  | .ok (x, y) => .ok (.ofFloat (f x y))
  | .error fault => .error fault

def compare (f : Float → Float → Bool) (a b : Value) : Except Fault Value :=
  match bothNumbers "comparison" a b with
  | .ok (x, y) => .ok (.ofBool (f x y))
  | .error fault => .error fault

def subtract : Value → Value → Except Fault Value := combine "subtraction" (· - ·)

def multiply : Value → Value → Except Fault Value := combine "multiplication" (· * ·)

def divide : Value → Value → Except Fault Value := combine "division" (· / ·)

def power : Value → Value → Except Fault Value := combine "exponentiation" Float.pow

/-- The remainder has the sign of the dividend. -/
def modulo : Value → Value → Except Fault Value := combine "modulo" Double.remainder

def less : Value → Value → Except Fault Value := compare fun x y => decide (x < y)

def greater : Value → Value → Except Fault Value := compare fun x y => decide (y < x)

def change (operation : String) (f : Float → Float) (a : Value) : Except Fault Value :=
  match a.toFloat? with
  | some x => .ok (.ofFloat (f x))
  | none => .error (.typeMismatch operation "number" a.scalarKind)

def negate : Value → Except Fault Value := change "negation" fun x => -x

def step (delta : Float) : Value → Except Fault Value := change "increment" (· + delta)

/-- The negation of what counts as true. -/
def not (a : Value) : Value := .ofBool a.isFalsey

end Value

end FiberMachine
