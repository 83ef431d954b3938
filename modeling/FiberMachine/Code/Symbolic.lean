import FiberMachine.Code.Assembler

/-!
# Symbolic code

Symbolic code is a list of items with labels in place of distances and with the
texts of names in place of their indices. Assembling it runs through the items
once. A label closes the forward jumps that wait for it, and a backward jump
looks for a label that is already there.
-/

namespace FiberMachine.Symbolic

/-- A two-byte index into the pool, or the text that is to be found there. -/
inductive Operand where
  | text (s : String)
  | index (n : UInt16)

mutual

inductive Item where
  | constant (c : Constant)
  | function (f : Source)
  | line (n : UInt32)
  | byte (b : UInt8)
  | short (n : UInt16)
  | repeated (count : Nat) (items : List Item)
  | label (name : String)
  | op (o : Opcode)
  | opByte (o : Opcode) (operand : UInt8)
  | opShort (o : Opcode) (operand : Operand)
  | jumpTo (o : Opcode) (label : String)
  | loopTo (label : String)
  | invoke (method : Operand) (arguments : UInt8)
  | importAs (module : Operand) (other : Operand)

structure Source where
  name : String
  arity : UInt8
  isAsync : Bool
  hasLines : Bool
  items : List Item

end

structure State where
  assembler : Assembler
  /-- Where each label is, the latest first. -/
  labels : List (String × Nat)
  /-- The operands of the jumps that wait for a label, in the order written. -/
  waiting : List (String × Nat)

namespace State

def map (f : Assembler → Assembler) (s : State) : State :=
  { s with assembler := f s.assembler }

def index (s : State) : Operand → State × UInt16
  | .index n => (s, n)
  | .text t =>
    let (assembler, n) := s.assembler.nameIndex t
    ({ s with assembler }, n)

def label (s : State) (name : String) : State :=
  let here := s.waiting.filter (·.1 == name)
  { assembler := here.foldl (fun a w => a.patch w.2) s.assembler
    labels := (name, s.assembler.offset) :: s.labels
    waiting := s.waiting.filter (·.1 != name) }

def jumpTo (s : State) (o : Opcode) (name : String) : State :=
  let (assembler, operand) := s.assembler.jump o
  { s with assembler, waiting := s.waiting ++ [(name, operand)] }

end State

def unknownLabel (s : State) (name : String) : Rejection :=
  .single s.assembler.line.toNat s!"unknown label {name}"

/-- Applies a step a number of times. -/
def iterate (step : State → Except Rejection State) : Nat → State → Except Rejection State
  | 0, s => .ok s
  | n + 1, s =>
    match step s with
    | .ok s => iterate step n s
    | .error e => .error e

mutual

def assembleItem : Item → State → Except Rejection State
  | .constant c, s => .ok (s.map (·.constant c))
  | .function f, s =>
    match assemble f with
    | .ok p => .ok (s.map (·.constant (.function p)))
    | .error e => .error e
  | .line n, s => .ok (s.map (·.setLine n))
  | .byte b, s => .ok (s.map (·.byte b))
  | .short n, s => .ok (s.map (·.short n))
  | .repeated count items, s => iterate (assembleItems items) count s
  | .label name, s => .ok (s.label name)
  | .op o, s => .ok (s.map (·.op o))
  | .opByte o operand, s => .ok (s.map (·.opByte o operand))
  | .opShort o operand, s =>
    let (s, n) := s.index operand
    .ok (s.map (·.opShort o n))
  | .jumpTo o name, s => .ok (s.jumpTo o name)
  | .loopTo name, s =>
    match s.labels.lookup name with
    | some target => .ok (s.map (·.loopTo target))
    | none => .error (unknownLabel s name)
  | .invoke method arguments, s =>
    let (s, n) := s.index method
    .ok (s.map fun a => (a.opShort .invoke n).byte arguments)
  | .importAs module other, s =>
    let (s, m) := s.index module
    let (s, n) := (s.map (·.opShort .importModuleAs m)).index other
    .ok (s.map (·.short n))

def assembleItems : List Item → State → Except Rejection State
  | [], s => .ok s
  | item :: items, s =>
    match assembleItem item s with
    | .ok s => assembleItems items s
    | .error e => .error e

def assemble : Source → Except Rejection Prototype
  | ⟨name, arity, isAsync, hasLines, items⟩ =>
    match assembleItems items ⟨.start name arity isAsync, [], []⟩ with
    | .error e => .error e
    | .ok s =>
      match s.assembler.finish with
      | .error e => .error e
      | .ok p => .ok (if hasLines then p else { p with lines := #[] })

end

end FiberMachine.Symbolic
