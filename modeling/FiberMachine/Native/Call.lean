import FiberMachine.Heap.Basic

/-!
# Native calls

The arguments that a native function got. A host may call one directly with any
arguments, so each is looked for when it is used.
-/

namespace FiberMachine

structure NativeCall where
  /-- The name of the function, for the faults. -/
  name : String
  args : List Value

namespace NativeCall

open Heap (Act)

def value (c : NativeCall) (i : Nat) : Except Fault Value :=
  match c.args[i]? with
  | some v => .ok v
  | none => .error (.failed (.missingArgument c.name (i + 1) c.args.length))

def mismatch (c : NativeCall) (h : Heap) (expected : String) (v : Value) : Fault :=
  .typeMismatch c.name expected (h.typeName v)

def number (c : NativeCall) (i : Nat) : Act Float := do
  let v ← c.value i
  match v.toFloat? with
  | some x => return x
  | none => throw (c.mismatch (← get) "number" v)

def text (c : NativeCall) (i : Nat) : Act String := do
  let v ← c.value i
  let h ← get
  match h.textOf? v with
  | some s => return s
  | none => throw (c.mismatch h "string" v)

/-- The handle of an argument that is an object of a kind. -/
def object (c : NativeCall) (i : Nat) (kind : Kind) : Act Handle := do
  let v ← c.value i
  let h ← get
  match v.toHandle? with
  | none => throw (c.mismatch h kind.name v)
  | some r => if (← h.get r).kind = kind then return r else throw (c.mismatch h kind.name v)

def greatestNatural : Int := 0xffffffffffffffff

/-- A natural number; one beyond 64 bits counts as the largest. -/
def natural (c : NativeCall) (i : Nat) : Act Nat := do
  let x ← c.number i
  match Double.toInt? x with
  | some (.ofNat n) => return min n greatestNatural.toNat
  | _ => throw (.typeMismatch c.name "non-negative integer" (Double.plain x))

end NativeCall

end FiberMachine
