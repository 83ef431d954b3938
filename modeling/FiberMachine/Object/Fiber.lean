import FiberMachine.Value
import FiberMachine.Checked

/-!
# Fibers

A fiber is one line of execution: its operands, its frames with the innermost
one first, and the fiber that goes on when it is done. Operands live on a stack
of bounded height, counted from the bottom by index and from the top by distance.
-/

namespace FiberMachine

structure OperandStack where
  values : Array Value
  limit : Nat
deriving DecidableEq, Repr

namespace OperandStack

def empty (limit : Nat) : OperandStack := ⟨#[], limit⟩

def size (s : OperandStack) : Nat := s.values.size

def isEmpty (s : OperandStack) : Bool := s.values.isEmpty

@[inline] def push (s : OperandStack) (v : Value) : Except Fault OperandStack :=
  if s.limit ≤ s.values.size then .error .operandLimit
  else .ok { s with values := s.values.push v }

@[inline] def pop (s : OperandStack) : Except Fault (Value × OperandStack) :=
  match s.values.back? with
  | some v => .ok (v, { s with values := s.values.pop })
  | none => .error .operandMissing

/-- The index of the operand at a distance from the top. -/
@[inline] def indexFromTop (s : OperandStack) (distance : Nat) : Except Fault Nat :=
  if s.values.size ≤ distance then .error .operandMissing
  else do Checked.minus (← Checked.minus s.values.size 1) distance

@[inline] def peek (s : OperandStack) (distance : Nat) : Except Fault Value := do
  Checked.item s.values (← s.indexFromTop distance)

@[inline] def poke (s : OperandStack) (distance : Nat) (v : Value) : Except Fault OperandStack := do
  return { s with values := ← Checked.setItem s.values (← s.indexFromTop distance) v }

def get? (s : OperandStack) (index : Nat) : Option Value := s.values[index]?

def set? (s : OperandStack) (index : Nat) (v : Value) : Option OperandStack :=
  if index < s.values.size then some { s with values := s.values.setIfInBounds index v } else none

/-- Drops everything at and above an index. -/
def truncate (s : OperandStack) (size : Nat) : OperandStack :=
  { s with values := s.values.shrink size }

/-- The topmost operands, the lowest first. -/
def top (s : OperandStack) (count : Nat) : Except Fault (Array Value) :=
  if s.values.size < count then .error .operandMissing
  else do Checked.slice s.values (← Checked.minus s.values.size count) s.values.size

/-- Puts one value in place of the topmost ones, which must be there. -/
@[inline] def replaceTop (s : OperandStack) (count : Nat) (v : Value) :
    Except Fault OperandStack := do
  (s.truncate (← Checked.minus s.size count)).push v

def pushAll (s : OperandStack) : List Value → Except Fault OperandStack
  | [] => .ok s
  | v :: rest => do pushAll (← s.push v) rest

/-! ### What the operations come to -/

variable {s : OperandStack} {distance count : Nat} {v : Value}

theorem indexFromTop_of_lt (h : distance < s.values.size) :
    s.indexFromTop distance = .ok (s.values.size - 1 - distance) := by
  simp only [indexFromTop, Nat.not_le.mpr h, ↓reduceIte, Checked.minus_of_le (Nat.one_le_of_lt h),
    Bind.bind, Except.bind, Checked.minus_of_le (Nat.le_sub_one_of_lt h)]

theorem indexFromTop_of_le (h : s.values.size ≤ distance) :
    s.indexFromTop distance = .error .operandMissing := if_pos h

theorem peek_of_lt (h : distance < s.values.size) :
    s.peek distance = .ok s.values[s.values.size - 1 - distance] := by
  simp only [peek, indexFromTop_of_lt h, Bind.bind, Except.bind]
  exact Checked.item_of_lt (by omega)

theorem peek_of_le (h : s.values.size ≤ distance) : s.peek distance = .error .operandMissing := by
  simp only [peek, indexFromTop_of_le h, Bind.bind, Except.bind]

theorem poke_of_lt (h : distance < s.values.size) : s.poke distance v =
    .ok { s with values := s.values.setIfInBounds (s.values.size - 1 - distance) v } := by
  have hi : s.values.size - 1 - distance < s.values.size := by omega
  simp only [poke, indexFromTop_of_lt h, Bind.bind, Except.bind, Checked.setItem_of_lt hi, Pure.pure,
    Except.pure]

theorem poke_of_le (h : s.values.size ≤ distance) : s.poke distance v = .error .operandMissing := by
  simp only [poke, indexFromTop_of_le h, Bind.bind, Except.bind]

theorem top_of_le (h : count ≤ s.values.size) :
    s.top count = .ok (s.values.extract (s.values.size - count) s.values.size) := by
  simp only [top, Nat.not_lt.mpr h, ↓reduceIte, Checked.minus_of_le h, Bind.bind, Except.bind]
  exact Checked.slice_of_le (Nat.sub_le ..) (Nat.le_refl _)

theorem top_of_lt (h : s.values.size < count) : s.top count = .error .operandMissing := if_pos h

theorem replaceTop_of_le (h : count ≤ s.size) :
    s.replaceTop count v = (s.truncate (s.size - count)).push v := by
  simp only [replaceTop, Checked.minus_of_le h, Bind.bind, Except.bind]

theorem replaceTop_of_lt (h : s.size < count) :
    s.replaceTop count v = .error (.crash (.underflow s.size count)) := by
  simp only [replaceTop, Checked.minus_of_lt h, Bind.bind, Except.bind]

end OperandStack

/-- The code of a function whose constants have become values. -/
structure Chunk where
  code : Array UInt8
  constants : Array Value
  lines : Array UInt32
deriving DecidableEq, Repr

structure Frame where
  function : Handle
  chunk : Chunk
  /-- The next byte to read. -/
  ip : Nat
  /-- The operand index of local slot zero. -/
  base : Nat
  /-- The module whose globals the code sees, or none for those of the machine. -/
  scope : Option Handle
  /-- Whether the call yields the object in slot zero instead of its result. -/
  constructs : Bool
deriving DecidableEq, Repr

namespace Frame

def enter (function : Handle) (chunk : Chunk) (base : Nat) (scope : Option Handle) : Frame :=
  ⟨function, chunk, 0, base, scope, false⟩

/-- The source line of the byte read last. -/
def line (f : Frame) : Option UInt32 := f.chunk.lines[f.ip - 1]?

end Frame

/-- What a fiber runs. -/
inductive FiberKind where
  | root
  | async
  | module
deriving DecidableEq, Repr

inductive FiberState where
  | ready
  | running
  | waiting
  | suspended
  | done
deriving DecidableEq, Repr

structure Fiber where
  stack : OperandStack
  frames : List Frame
  caller : Option Handle
  kind : FiberKind
  state : FiberState
  /-- The module that the fiber loads. -/
  module : Option Handle
deriving DecidableEq, Repr

namespace Fiber

def fresh (kind : FiberKind) (limit : Nat) : Fiber :=
  ⟨.empty limit, [], none, kind, .ready, none⟩

/-- The handles in the operands, the frames and the links of a fiber. -/
def references (f : Fiber) : List Handle :=
  f.caller.toList ++ f.module.toList ++ f.stack.values.toList.filterMap Value.toHandle?
    ++ f.frames.flatMap fun frame => frame.function :: frame.scope.toList

end Fiber

end FiberMachine
