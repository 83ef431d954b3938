import FiberMachine.Code.Prototype
import FiberMachine.Decimal.Text

/-!
# Listings

A listing shows each instruction with its offset, its mnemonic, its operands and
the constants they name. It reads an instruction by the layout of its opcode,
and it goes on behind a byte that is no opcode.
-/

namespace FiberMachine.Listing

def alignLeft (width : Nat) (s : String) : String :=
  s ++ String.ofList (List.replicate (width - s.length) ' ')

def alignRight (width : Nat) (fill : Char) (s : String) : String :=
  String.ofList (List.replicate (width - s.length) fill) ++ s

def offsetText (offset : Nat) : String := alignRight 4 '0' (toString offset)

def operandText (n : Nat) : String := alignRight 4 ' ' (toString n)

def mnemonicWidth : Nat := 16

def quoted (s : String) : String := "'" ++ s ++ "'"

def shortAt (code : Array UInt8) (offset : Nat) : Nat :=
  ((decodeShort? code offset).getD 0).toNat

/-- The target of a jump whose operand ends at `next`. -/
def jumpTarget (op : Opcode) (next distance : Nat) : Nat :=
  if op = .loop then next - distance else next + distance

/-- The operands of an instruction that lies within the code. -/
def operands (code : Array UInt8) (describe : Nat → String) (op : Opcode) (offset : Nat)
    (within : offset + op.size ≤ code.size) : String :=
  let first := offset + 1
  match hl : op.layout with
  | .none => ""
  | .byte =>
    have hsize : op.size = 2 := by rw [Opcode.size, hl, Layout.width]
    let n := code[offset + 1].toNat
    if op = .constant then operandText n ++ " " ++ quoted (describe n) else operandText n
  | .short =>
    let n := shortAt code first
    if op.namesConstant then operandText n ++ " " ++ quoted (describe n) else operandText n
  | .jump =>
    let distance := shortAt code first
    operandText distance ++ " -> " ++ toString (jumpTarget op (first + 2) distance)
  | .shortShort =>
    let n := shortAt code first
    let other := shortAt code (first + 2)
    operandText n ++ " " ++ quoted (describe n) ++ " as " ++ toString other ++ " "
      ++ quoted (describe other)
  | .shortByte =>
    have hsize : op.size = 4 := by rw [Opcode.size, hl, Layout.width]
    let n := shortAt code first
    "(" ++ toString code[offset + 3].toNat ++ " args) " ++ operandText n ++ " "
      ++ quoted (describe n)

/-- The text of the instruction at an offset and the offset of the next one. -/
def instruction (code : Array UInt8) (describe : Nat → String) (offset : Nat) : String × Nat :=
  match code[offset]? with
  | none => (offsetText offset ++ " <end of code>", offset + 1)
  | some byte =>
    match Opcode.ofByte? byte with
    | none => (offsetText offset ++ " UNKNOWN " ++ toString byte.toNat, offset + 1)
    | some op =>
      let next := offset + op.size
      let head := offsetText offset ++ " " ++ alignLeft mnemonicWidth op.mnemonic ++ " "
      if h : code.size < next then (head ++ "<truncated>", code.size)
      else if op.layout = .none then (offsetText offset ++ " " ++ op.mnemonic, next)
      else (head ++ operands code describe op offset (Nat.not_lt.mp h), next)

theorem offset_lt_instruction {code : Array UInt8} {offset : Nat} (h : offset < code.size)
    (describe : Nat → String) : offset < (instruction code describe offset).2 := by
  simp only [instruction, Array.getElem?_eq_getElem h]
  split
  · simp
  · split
    · exact h
    · split <;> (simp only [Opcode.size]; omega)

def describeConstant : Constant → String
  | .nil => "nil"
  | .bool b => toString b
  | .number x => Double.printed x
  | .text s => s
  | .function p => "<fn " ++ p.name ++ ">"

/-- A line number is written once for the instructions that share it. -/
def lineColumn (previous line : Option UInt32) : String :=
  match line with
  | none => "   ?"
  | some n => if previous = some n then "   |" else operandText n.toNat

/-- The lines of the instructions from an offset on. -/
def instructionsFrom (code : Array UInt8) (lines : Array UInt32) (describe : Nat → String)
    (offset : Nat) (previous : Option UInt32) (text : String) : String :=
  if h : offset < code.size then
    let line := lines[offset]?
    let shown := instruction code describe offset
    have := offset_lt_instruction h describe
    instructionsFrom code lines describe shown.2 line
      (text ++ lineColumn previous line ++ " " ++ shown.1 ++ "\n")
  else text
termination_by code.size - offset

mutual

/-- The listing of a function and, behind it, those of the functions in its pool. -/
def function : Prototype → String
  | ⟨name, _, _, code, constants, lines⟩ =>
    let described := constants.toArray.map describeConstant
    let describe (i : Nat) : String := described[i]?.getD "?"
    instructionsFrom code lines describe 0 none ("== " ++ name ++ " ==\n") ++ nested constants

def nested : List Constant → String
  | [] => ""
  | c :: cs => nestedIn c ++ nested cs

def nestedIn : Constant → String
  | .function p => "\n" ++ function p
  | _ => ""

end

end FiberMachine.Listing
