import FiberMachine.Code.Prototype
import FiberMachine.Fault

/-!
# Assembling a prototype

An assembler holds the code written so far and the line in force. Constants are
loaded by the short form while their index fits a byte. A forward jump is
written with a placeholder and patched when its target is reached. What cannot
be encoded is remembered, and the finished function is refused for it.
-/

namespace FiberMachine

inductive AssemblyError where
  | constantLimit
  | jumpDistance
  | loopDistance
deriving DecidableEq, Repr

namespace AssemblyError

def message : AssemblyError → String
  | constantLimit => "Too many constants in one chunk (max 65536)"
  | jumpDistance => "Too much code to jump over"
  | loopDistance => "Loop body too large"

end AssemblyError

structure Assembler where
  name : String
  arity : UInt8
  isAsync : Bool
  code : Array UInt8
  constants : Array Constant
  lines : Array UInt32
  line : UInt32
  errors : Array AssemblyError

namespace Assembler

/-- The number of entries a two-byte index can reach. -/
def poolLimit : Nat := 65536

/-- The placeholder of a jump that has not been patched. -/
def unpatched : UInt16 := 0xffff

def start (name : String) (arity : UInt8) (isAsync : Bool) : Assembler :=
  ⟨name, arity, isAsync, #[], #[], #[], 1, #[]⟩

def offset (a : Assembler) : Nat := a.code.size

def setLine (a : Assembler) (line : UInt32) : Assembler := { a with line }

def byte (a : Assembler) (b : UInt8) : Assembler :=
  { a with code := a.code.push b, lines := a.lines.push a.line }

def short (a : Assembler) (n : UInt16) : Assembler :=
  let pair := encodeShort n
  (a.byte pair.1).byte pair.2

def op (a : Assembler) (o : Opcode) : Assembler := a.byte o.toByte

def opByte (a : Assembler) (o : Opcode) (operand : UInt8) : Assembler := (a.op o).byte operand

def opShort (a : Assembler) (o : Opcode) (operand : UInt16) : Assembler := (a.op o).short operand

def refuse (a : Assembler) (e : AssemblyError) : Assembler :=
  { a with errors := a.errors.push e }

/-- A full pool takes no entry, and the index is then the first one. -/
def addConstant (a : Assembler) (c : Constant) : Assembler × UInt16 :=
  let index := a.constants.size
  if poolLimit ≤ index then (a.refuse .constantLimit, 0)
  else ({ a with constants := a.constants.push c }, UInt16.ofNat index)

/-- The index of a text, which is in the pool once. -/
def nameIndex (a : Assembler) (s : String) : Assembler × UInt16 :=
  match a.constants.findIdx? (·.isText s) with
  | some index => (a, UInt16.ofNat index)
  | none => a.addConstant (.text s)

def constantIndex (a : Assembler) : Constant → Assembler × UInt16
  | .text s => a.nameIndex s
  | c => a.addConstant c

def constant (a : Assembler) (c : Constant) : Assembler :=
  let (a, index) := a.constantIndex c
  if index.toNat < 256 then a.opByte .constant index.toUInt8 else a.opShort .constantLong index

def named (a : Assembler) (o : Opcode) (s : String) : Assembler :=
  let (a, index) := a.nameIndex s
  a.opShort o index

/-- A jump forward to a place not yet known, and where its operand is. -/
def jump (a : Assembler) (o : Opcode) : Assembler × Nat :=
  let a := a.opShort o unpatched
  (a, a.offset - 2)

/-- Makes the jump whose operand is at the given place end here. -/
def patch (a : Assembler) (operand : Nat) : Assembler :=
  let distance := a.offset - (operand + 2)
  if distance < 65536 then
    let pair := encodeShort (UInt16.ofNat distance)
    if operand + 2 ≤ a.code.size then
      { a with code := (a.code.setIfInBounds operand pair.1).setIfInBounds (operand + 1) pair.2 }
    else a
  else a.refuse .jumpDistance

def loopTo (a : Assembler) (target : Nat) : Assembler :=
  let a := a.op .loop
  let distance := a.offset + 2 - target
  if distance < 65536 then a.short (UInt16.ofNat distance)
  else (a.refuse .loopDistance).short 0

/-- All errors are reported on the line in force at the end. -/
def finish (a : Assembler) : Except Rejection Prototype :=
  if a.errors.isEmpty then
    .ok ⟨a.name, a.arity, a.isAsync, a.code, a.constants.toList, a.lines⟩
  else .error ⟨a.errors.toList.map fun e => ⟨a.line.toNat, e.message⟩⟩

@[simp] theorem offset_byte (a : Assembler) (b : UInt8) : (a.byte b).offset = a.offset + 1 := by
  simp [byte, offset]

@[simp] theorem offset_short (a : Assembler) (n : UInt16) :
    (a.short n).offset = a.offset + 2 := by
  simp [short]

end Assembler

end FiberMachine
