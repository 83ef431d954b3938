import FiberMachine.Decimal.Text

/-!
# Faults

A fault is the reason why an instruction, a native function or a collection of
source text failed. The wording of every reason is in the `message` functions.
-/

namespace FiberMachine

structure Diagnostic where
  line : Nat
  message : String
deriving DecidableEq, Repr

namespace Diagnostic

def text (d : Diagnostic) : String := s!"[line {d.line}] Error: {d.message}"

end Diagnostic

/-- The reports that kept a source text from becoming code. -/
structure Rejection where
  diagnostics : List Diagnostic
deriving DecidableEq, Repr

namespace Rejection

def single (line : Nat) (message : String) : Rejection := ⟨[⟨line, message⟩]⟩

def message (r : Rejection) : String := "\n".intercalate (r.diagnostics.map Diagnostic.text)

end Rejection

/-- What is wrong with a stretch of code. -/
inductive Malformation where
  | endOfCode
  | notName (index : Nat)
  | jumpTarget (offset : Nat)
  | localSlot (index : Nat)
deriving DecidableEq, Repr

namespace Malformation

def message : Malformation → String
  | endOfCode => "unexpected end of code"
  | notName index => s!"constant {index} is not a name"
  | jumpTarget offset => s!"jump target out of range at offset {offset}"
  | localSlot index => s!"local slot {index} is past the stack top"

end Malformation

/-- Mistakes of a machine in its own books, which have no result to go on with: a
difference below zero, a place outside a sequence, an instruction that came to a family
it does not belong to. -/
inductive Crash where
  | underflow (whole part : Nat)
  | badIndex (index size : Nat)
  | badSlice (first last size : Nat)
  | strangeInstruction (family : String)
deriving DecidableEq, Repr

namespace Crash

def message : Crash → String
  | underflow whole part => s!"cannot take {part} from {whole}"
  | badIndex index size => s!"no place {index} in a sequence of {size}"
  | badSlice first last size => s!"no slice from {first} to {last} in a sequence of {size}"
  | strangeInstruction family => s!"strange instruction among those of {family}"

end Crash

/-- Failures of a computation whose operands have the right types. -/
inductive Failure where
  | stuckRange (start stop step cursor : Float)
  | longRange (start stop step : Float) (limit : Nat)
  | rangeStep
  | noFiber
  | notResumable
  | nothingRunnable
  | missingArgument (callee : String) (needed got : Nat)
  | jsonSyntax (line : Nat)
  | jsonDepth
  | beforeEpoch
  | host (reason : String)
  | crashed (cause : Crash)
deriving DecidableEq, Repr

namespace Failure

def message : Failure → String
  | stuckRange start stop step cursor =>
    "range " ++ Double.plain start ++ ".." ++ Double.plain stop ++ " cannot advance by "
      ++ Double.plain step ++ " past " ++ Double.plain cursor
  | longRange start stop step limit =>
    "range " ++ Double.plain start ++ ".." ++ Double.plain stop ++ " step "
      ++ Double.plain step ++ " has more than " ++ toString limit ++ " elements"
  | rangeStep => "range step must be a non-zero finite number"
  | noFiber => "no fiber is running"
  | notResumable => "fiber cannot be resumed"
  | nothingRunnable => "no runnable fiber and no pending timers"
  | missingArgument callee needed got =>
    s!"{callee}() expects at least {needed} arguments, got {got}"
  | jsonSyntax line => s!"JSON parse error: not JSON in line {line}"
  | jsonDepth => "JSON stringify error: value nests too deeply"
  | beforeEpoch => "system clock before epoch: second time provided was later than self"
  | host reason => reason
  | crashed cause => cause.message

end Failure

inductive Fault where
  | frameLimit (frames : Nat)
  | operandLimit
  | operandMissing
  | unknownOpcode (byte : UInt8)
  | malformed (cause : Malformation)
  | unknownConstant (index : Nat)
  | typeMismatch (operation expected found : String)
  | undefinedVariable (name : String)
  | undefinedProperty (name : String)
  | unknownKey (key : String)
  | outOfBounds (index : Int) (length : Nat)
  | argumentCount (callee : String) (expected got : Nat)
  | notCallable (found : String)
  | dangling
  | unknownModule (path : String)
  | rejectedModule (name : String) (cause : Rejection)
  | failed (cause : Failure)
deriving DecidableEq, Repr

namespace Fault

def crash (cause : Crash) : Fault := .failed (.crashed cause)

/-- The machine failed, not the program. -/
def isCrash : Fault → Bool
  | .failed (.crashed _) => true
  | _ => false

def message : Fault → String
  | frameLimit frames => s!"Stack overflow: call depth exceeded {frames} frames"
  | operandLimit => "Operand stack overflow"
  | operandMissing => "Stack underflow"
  | unknownOpcode byte => "Invalid opcode: " ++ toString byte.toNat
  | malformed cause => "Malformed bytecode: " ++ cause.message
  | unknownConstant index => s!"Invalid constant index: {index}"
  | typeMismatch operation expected found =>
    s!"Type error in {operation}: expected {expected}, got {found}"
  | undefinedVariable name => "Undefined variable '" ++ name ++ "'"
  | undefinedProperty name => "Undefined property '" ++ name ++ "'"
  | unknownKey key => "Key not found: " ++ key
  | outOfBounds index length => s!"Index {index} out of bounds for length {length}"
  | argumentCount callee expected got =>
    s!"{callee} expected {expected} arguments but got {got}"
  | notCallable found => "Can only call functions and classes, got " ++ found
  | dangling => "Dangling object reference"
  | unknownModule path => "Cannot read file for module '" ++ path ++ "'"
  | rejectedModule name cause =>
    "Failed to compile module '" ++ name ++ "': " ++ cause.message
  | failed cause => "Runtime error: " ++ cause.message

end Fault

/-- A run ends early in one of two ways: the text is no program, or the program
failed in some place of the calls listed innermost first. -/
inductive Halt where
  | rejected (cause : Rejection)
  | faulted (cause : Fault) (backtrace : List String)
deriving DecidableEq, Repr

namespace Halt

def message : Halt → String
  | rejected cause => cause.message
  | faulted cause _ => cause.message

end Halt

end FiberMachine
