/-!
# Opcodes

An instruction is an opcode byte and the operand bytes that its layout calls
for. The byte of an opcode is its place in `Opcode.all`. Two-byte operands have
the high byte first.
-/

namespace FiberMachine

inductive Opcode where
  | ret | constant | constantLong | negate | add | subtract | multiply | divide | power
  | modulo | pushFalse | pushTrue | pushNil | not | increment | decrement | equal
  | greater | less | pop | defineGlobal | getGlobal | exportGlobal | setGlobal
  | getLocal | setLocal | jumpIfFalse | jump | loop | call | createList | subscriptRead
  | subscriptWrite | sliceArray | newClass | getProperty | setProperty | method | raise
  | invoke | interpolate | importModule | importModuleAs | iterate | createRange
  | await
deriving DecidableEq, Repr

/-- How the bytes after an opcode are read. A jump holds a distance from the end
of its operand; the two-byte operands of the other layouts are mostly indices
into the constant pool. -/
inductive Layout where
  | none | byte | short | jump | shortShort | shortByte
deriving DecidableEq, Repr

namespace Layout

def width : Layout → Nat
  | .none => 0
  | .byte => 1
  | .short | .jump => 2
  | .shortByte => 3
  | .shortShort => 4

end Layout

namespace Opcode

/-- Every opcode, in the order of their bytes. -/
def all : Array Opcode := #[
  .ret, .constant, .constantLong, .negate, .add, .subtract, .multiply, .divide, .power,
  .modulo, .pushFalse, .pushTrue, .pushNil, .not, .increment, .decrement, .equal,
  .greater, .less, .pop, .defineGlobal, .getGlobal, .exportGlobal, .setGlobal,
  .getLocal, .setLocal, .jumpIfFalse, .jump, .loop, .call, .createList, .subscriptRead,
  .subscriptWrite, .sliceArray, .newClass, .getProperty, .setProperty, .method, .raise,
  .invoke, .interpolate, .importModule, .importModuleAs, .iterate, .createRange, .await]

def toByte (op : Opcode) : UInt8 := UInt8.ofNat op.ctorIdx

def ofByte? (b : UInt8) : Option Opcode := all[b.toNat]?

theorem ofByte?_toByte (op : Opcode) : ofByte? op.toByte = some op := by
  cases op <;> rfl

def layout : Opcode → Layout
  | .constant | .call | .interpolate => .byte
  | .constantLong | .defineGlobal | .getGlobal | .exportGlobal | .setGlobal | .getLocal
  | .setLocal | .createList | .newClass | .getProperty | .setProperty | .method
  | .importModule => .short
  | .jumpIfFalse | .jump | .loop | .iterate => .jump
  | .importModuleAs => .shortShort
  | .invoke => .shortByte
  | _ => .none

/-- The number of bytes of an instruction. -/
def size (op : Opcode) : Nat := 1 + op.layout.width

def mnemonic : Opcode → String
  | .ret => "RETURN"
  | .constant => "CONSTANT"
  | .constantLong => "CONSTANT_LONG"
  | .negate => "NEGATE"
  | .add => "ADD"
  | .subtract => "SUBTRACT"
  | .multiply => "MULTIPLY"
  | .divide => "DIVIDE"
  | .power => "POWER"
  | .modulo => "MODULO"
  | .pushFalse => "FALSE"
  | .pushTrue => "TRUE"
  | .pushNil => "NIL"
  | .not => "NOT"
  | .increment => "INCREMENT"
  | .decrement => "DECREMENT"
  | .equal => "EQUAL"
  | .greater => "GREATER"
  | .less => "LESS"
  | .pop => "POP"
  | .defineGlobal => "DEFINE_GLOBAL"
  | .getGlobal => "GET_GLOBAL"
  | .exportGlobal => "EXPORT_GLOBAL"
  | .setGlobal => "SET_GLOBAL"
  | .getLocal => "GET_LOCAL"
  | .setLocal => "SET_LOCAL"
  | .jumpIfFalse => "JUMP_IF_FALSE"
  | .jump => "JUMP"
  | .loop => "LOOP"
  | .call => "CALL"
  | .createList => "CREATE_LIST"
  | .subscriptRead => "SUBSCRIPT_READ"
  | .subscriptWrite => "SUBSCRIPT_WRITE"
  | .sliceArray => "SLICE_ARRAY"
  | .newClass => "CLASS"
  | .getProperty => "GET_PROPERTY"
  | .setProperty => "SET_PROPERTY"
  | .method => "METHOD"
  | .raise => "THROW"
  | .invoke => "INVOKE"
  | .interpolate => "STRING_INTERP"
  | .importModule => "IMPORT_MODULE"
  | .importModuleAs => "IMPORT_MODULE_AS"
  | .iterate => "ITER"
  | .createRange => "CREATE_RANGE"
  | .await => "AWAIT"

/-- Whether a two-byte operand is an index into the constant pool; the others are
a local slot or a number of elements. -/
def namesConstant : Opcode → Bool
  | .getLocal | .setLocal | .createList => false
  | _ => true

end Opcode

def encodeShort (n : UInt16) : UInt8 × UInt8 := ((n / 256).toUInt8, n.toUInt8)

def decodeShort (high low : UInt8) : UInt16 := high.toUInt16 * 256 + low.toUInt16

/-- The two-byte operand at an offset, if both bytes are there. -/
def decodeShort? (code : Array UInt8) (offset : Nat) : Option UInt16 :=
  match code[offset]?, code[offset + 1]? with
  | some high, some low => some (decodeShort high low)
  | _, _ => none

theorem decodeShort_encodeShort (n : UInt16) :
    decodeShort (encodeShort n).1 (encodeShort n).2 = n := by
  apply UInt16.toNat.inj
  have h := n.toNat_lt
  have h1 : (256 : UInt16).toNat = 256 := rfl
  simp only [decodeShort, encodeShort, UInt16.toNat_add, UInt16.toNat_mul, UInt8.toNat_toUInt16,
    UInt16.toNat_toUInt8, UInt16.toNat_div, h1]
  omega

end FiberMachine
