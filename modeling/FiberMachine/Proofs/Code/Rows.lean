import FiberMachine.Code.Listing
import Mathlib.Data.List.Basic

/-!
# Rows of a listing

A row of a listing shows what its bytes say: an instruction with the numbers behind its opcode,
an opcode with too few bytes behind it, or a byte that is no opcode. The rows of a function begin
at offset zero, each one begins where the one before it ends, and the last one ends with the code.
-/

namespace FiberMachine.Listing

/-- What a row shows behind a mnemonic. -/
inductive Shown where
  | nothing
  | number (n : Nat)
  | constant (index : Nat)
  | jump (distance target : Nat)
  | pair (name other : Nat)
  | member (name argc : Nat)
deriving DecidableEq, Repr

/-- What a listing finds at an offset. -/
inductive Row where
  | endOfCode
  | unknown (byte : UInt8)
  | truncated (op : Opcode)
  | instruction (op : Opcode) (shown : Shown)
deriving DecidableEq, Repr

def byteAt (code : Array UInt8) (offset : Nat) : Nat := (code[offset]?.map UInt8.toNat).getD 0

/-- The numbers behind an opcode, as its layout says. -/
def shownAt (code : Array UInt8) (op : Opcode) (offset : Nat) : Shown :=
  let first := offset + 1
  match op.layout with
  | .none => .nothing
  | .byte =>
    let n := byteAt code first
    if op = .constant then .constant n else .number n
  | .short =>
    let n := shortAt code first
    if op.namesConstant then .constant n else .number n
  | .jump =>
    let distance := shortAt code first
    .jump distance (jumpTarget op (first + 2) distance)
  | .shortShort => .pair (shortAt code first) (shortAt code (first + 2))
  | .shortByte => .member (shortAt code first) (byteAt code (first + 2))

def rowAt (code : Array UInt8) (offset : Nat) : Row :=
  match code[offset]? with
  | none => .endOfCode
  | some byte =>
    match Opcode.ofByte? byte with
    | none => .unknown byte
    | some op =>
      if code.size < offset + op.size then .truncated op
      else .instruction op (shownAt code op offset)

namespace Shown

def text (describe : Nat → String) : Shown → String
  | .nothing => ""
  | .number n => operandText n
  | .constant index => operandText index ++ " " ++ quoted (describe index)
  | .jump distance target => operandText distance ++ " -> " ++ toString target
  | .pair name other =>
    operandText name ++ " " ++ quoted (describe name) ++ " as " ++ toString other ++ " "
      ++ quoted (describe other)
  | .member name argc =>
    "(" ++ toString argc ++ " args) " ++ operandText name ++ " " ++ quoted (describe name)

/-- The place that a row shows for a jump. -/
def target? : Shown → Option Nat
  | .jump _ target => some target
  | _ => none

end Shown

namespace Row

def head (op : Opcode) (offset : Nat) : String :=
  offsetText offset ++ " " ++ alignLeft mnemonicWidth op.mnemonic ++ " "

def text (describe : Nat → String) (offset : Nat) : Row → String
  | .endOfCode => offsetText offset ++ " <end of code>"
  | .unknown byte => offsetText offset ++ " UNKNOWN " ++ toString byte.toNat
  | .truncated op => head op offset ++ "<truncated>"
  | .instruction op .nothing => offsetText offset ++ " " ++ op.mnemonic
  | .instruction op shown => head op offset ++ shown.text describe

/-- Where the row behind one at an offset begins, in code of a size. -/
def next (offset size : Nat) : Row → Nat
  | .endOfCode | .unknown _ => offset + 1
  | .truncated _ => size
  | .instruction op _ => offset + op.size

end Row

variable {code : Array UInt8} {offset : Nat} {op : Opcode} {shown : Shown}

theorem byteAt_of_lt (h : offset < code.size) : byteAt code offset = code[offset].toNat := by
  simp [byteAt, h]

theorem within_of_rowAt (h : rowAt code offset = .instruction op shown) :
    offset + op.size ≤ code.size ∧ shown = shownAt code op offset := by
  simp only [rowAt] at h
  repeat' split at h
  all_goals cases h
  exact ⟨Nat.not_lt.mp (by assumption), rfl⟩

theorem opcode_of_rowAt (h : rowAt code offset = .instruction op shown) :
    code[offset]?.bind Opcode.ofByte? = some op := by
  simp only [rowAt] at h
  repeat' split at h
  all_goals simp_all

theorem short_of_rowAt (h : rowAt code offset = .truncated op) : offset < code.size ∧
    code.size < offset + op.size ∧ code[offset]?.bind Opcode.ofByte? = some op := by
  simp only [rowAt] at h
  repeat' split at h
  all_goals cases h
  rename_i byte hbyte _ hop hlt
  exact ⟨(Array.getElem?_eq_some_iff.mp hbyte).1, hlt, by rw [hbyte, Option.bind_some, hop]⟩

theorem byte_of_rowAt {byte : UInt8} (h : rowAt code offset = .unknown byte) :
    code[offset]? = some byte ∧ Opcode.ofByte? byte = none := by
  simp only [rowAt] at h
  repeat' split at h
  all_goals cases h
  exact ⟨by assumption, by assumption⟩

theorem rowAt_eq_endOfCode : rowAt code offset = .endOfCode ↔ code[offset]? = none := by
  simp only [rowAt]
  repeat' split
  all_goals simp_all

/-- The operands of an instruction are the text of what its row shows. -/
theorem operands_eq (describe : Nat → String) (within : offset + op.size ≤ code.size) :
    operands code describe op offset within = (shownAt code op offset).text describe := by
  have hwidth : op.size = 1 + op.layout.width := rfl
  simp only [operands]
  split
  all_goals
    rename_i hl
    rw [hl, Layout.width] at hwidth
    simp only [shownAt, hl]
  case h_1 => rfl
  case h_2 =>
    rw [byteAt_of_lt (by omega : offset + 1 < code.size)]
    split <;> rfl
  case h_3 => split <;> rfl
  case h_4 => rfl
  case h_5 => rfl
  case h_6 => rw [Shown.text, byteAt_of_lt (by omega : offset + 1 + 2 < code.size)]

theorem shownAt_eq_nothing_iff (code : Array UInt8) (op : Opcode) (offset : Nat) :
    shownAt code op offset = .nothing ↔ op.layout = .none := by
  simp only [shownAt]
  cases op.layout <;> simp <;> split <;> simp

/-- A listing is made of rows: their texts, and where the next one begins. -/
theorem instruction_eq (code : Array UInt8) (describe : Nat → String) (offset : Nat) :
    instruction code describe offset =
      ((rowAt code offset).text describe offset, (rowAt code offset).next offset code.size) := by
  simp only [instruction, rowAt]
  cases code[offset]? with
  | none => rfl
  | some byte =>
    dsimp only
    cases Opcode.ofByte? byte with
    | none => rfl
    | some op =>
      dsimp only
      split
      · rfl
      · simp only [operands_eq, ← shownAt_eq_nothing_iff code op offset]
        cases shownAt code op offset <;> rfl

/-! ## The rows of a function -/

theorem lt_next (h : offset < code.size) : offset < (rowAt code offset).next offset code.size := by
  have hlt := offset_lt_instruction h fun _ => ""
  rwa [instruction_eq] at hlt

theorem next_le (h : offset < code.size) :
    (rowAt code offset).next offset code.size ≤ code.size := by
  cases hr : rowAt code offset with
  | endOfCode => exact h
  | unknown => exact h
  | truncated => exact Nat.le_refl _
  | instruction op shown => exact (within_of_rowAt hr).1

/-- Where the rows from an offset on begin. -/
def startsFrom (code : Array UInt8) (offset : Nat) : List Nat :=
  if h : offset < code.size then
    have := lt_next h
    offset :: startsFrom code ((rowAt code offset).next offset code.size)
  else []
termination_by code.size - offset

/-- Where the rows of a function begin. -/
def starts (code : Array UInt8) : List Nat := startsFrom code 0

/-- The rows that begin at some offsets, each with its line number. -/
def rowLines (code : Array UInt8) (lines : Array UInt32) (describe : Nat → String) :
    Option UInt32 → List Nat → String
  | _, [] => ""
  | previous, offset :: rest =>
    lineColumn previous lines[offset]? ++ " " ++ (rowAt code offset).text describe offset ++ "\n"
      ++ rowLines code lines describe lines[offset]? rest

theorem startsFrom_of_lt (h : offset < code.size) : startsFrom code offset =
    offset :: startsFrom code ((rowAt code offset).next offset code.size) := by
  rw [startsFrom, dif_pos h]

theorem startsFrom_of_le (h : code.size ≤ offset) : startsFrom code offset = [] := by
  rw [startsFrom, dif_neg (Nat.not_lt.mpr h)]

theorem instructionsFrom_eq (lines : Array UInt32) (describe : Nat → String) (offset : Nat)
    (previous : Option UInt32) (text : String) :
    instructionsFrom code lines describe offset previous text =
      text ++ rowLines code lines describe previous (startsFrom code offset) := by
  induction offset, previous, text using instructionsFrom.induct code lines describe with
  | case1 offset previous text h line shown hlt ih =>
    rw [instructionsFrom, dif_pos h, startsFrom_of_lt h]
    refine ih.trans ?_
    simp only [shown, line, instruction_eq, rowLines, String.append_assoc]
  | case2 offset previous text h =>
    rw [instructionsFrom, dif_neg h, startsFrom_of_le (Nat.not_lt.mp h), rowLines,
      String.append_empty]

theorem le_of_mem_startsFrom {start : Nat} (h : start ∈ startsFrom code offset) :
    offset ≤ start ∧ start < code.size := by
  induction offset using startsFrom.induct code with
  | case1 offset hlt hnext ih =>
    rw [startsFrom_of_lt hlt, List.mem_cons] at h
    obtain rfl | h := h
    · exact ⟨Nat.le_refl _, hlt⟩
    · exact ⟨Nat.le_trans (Nat.le_of_lt hnext) (ih h).1, (ih h).2⟩
  | case2 offset hle => simp [startsFrom_of_le (Nat.not_lt.mp hle)] at h

theorem pairwise_startsFrom : (startsFrom code offset).Pairwise (· < ·) := by
  induction offset using startsFrom.induct code with
  | case1 offset hlt hnext ih =>
    rw [startsFrom_of_lt hlt]
    exact .cons (fun start h => Nat.lt_of_lt_of_le hnext (le_of_mem_startsFrom h).1) ih
  | case2 offset hle => simp [startsFrom_of_le (Nat.not_lt.mp hle)]

/-- The listing of a function has its rows, one behind the other. -/
theorem function_eq (name : String) (arity : UInt8) (isAsync : Bool) (code : Array UInt8)
    (constants : List Constant) (lines : Array UInt32) :
    function ⟨name, arity, isAsync, code, constants, lines⟩ = "== " ++ name ++ " ==\n"
      ++ rowLines code lines (fun i => (constants[i]?.map describeConstant).getD "?") none
        (starts code) ++ nested constants := by
  rw [function, instructionsFrom_eq, starts]
  simp

/-- The offsets of the bytes of a row. -/
def span (code : Array UInt8) (offset : Nat) : List Nat :=
  List.range' offset ((rowAt code offset).next offset code.size - offset)

theorem flatMap_span_startsFrom :
    (startsFrom code offset).flatMap (span code) = List.range' offset (code.size - offset) := by
  induction offset using startsFrom.induct code with
  | case1 offset hlt hnext ih =>
    have hle := next_le hlt
    rw [startsFrom_of_lt hlt, List.flatMap_cons, ih, span]
    generalize (rowAt code offset).next offset code.size = next at hnext hle
    have hlength : next - offset + (code.size - next) = code.size - offset := by omega
    have happend := List.range'_append_1 (s := offset) (m := next - offset) (n := code.size - next)
    rwa [Nat.add_sub_cancel' (Nat.le_of_lt hnext), hlength] at happend
  | case2 offset hle =>
    have hsize : code.size - offset = 0 := by omega
    simp [startsFrom_of_le (Nat.not_lt.mp hle), hsize]

end FiberMachine.Listing
