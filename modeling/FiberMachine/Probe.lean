import FiberMachine.Machine.Embedding

/-!
# A probing host

Native functions that look at a machine from inside a program: how deep it is in
calls, whether two values are one word, what a collection leaves. A class counts
in a field of its instances, and boxes hold a number of the host.
-/

namespace FiberMachine

inductive Probe where
  | count | depth | frames | fail | collect | postCollect | tick | same | display | keep
  | box | unbox | bump | construct | add | me | answer
deriving DecidableEq, Repr

namespace Probe

open Machine (Act)

/-- Every probe, in the order of their numbers. -/
def all : Array Probe := #[
  .count, .depth, .frames, .fail, .collect, .postCollect, .tick, .same, .display, .keep,
  .box, .unbox, .bump, .construct, .add, .me, .answer]

def ofId? (id : Nat) : Option Probe := all[id]?

def native (name : String) (arity : Arity) (p : Probe) : Native :=
  ⟨name, arity, .host p.ctorIdx⟩

def number (n : Nat) : Value := NativeCall.ofNat n

def addToField (c : NativeCall) : Act Value := do
  let me ← c.value 0
  let x ← c.number 1
  let old := ((← get).field? me "n").bind Value.toFloat?
  let sum := Value.ofFloat (old.getD 0.0 + x)
  Machine.bindField me "n" sum
  return sum

/-- Adds one to the number in a box. -/
def bumpBox (v : Value) : Act Value := do
  match v.toHandle?, (← get).userData? v with
  | some r, some _ =>
    Machine.change r (Machine.changeUserData fun data => { data with content := data.content + 1.0 })
    return .ofBool true
  | _, _ => return .ofBool false

def run (p : Probe) (args : List Value) : Act Value :=
  let call (name : String) : NativeCall := ⟨name, args⟩
  match p with
  | .count => return number args.length
  | .depth => return number (← get).stackDepth
  | .frames => return number (← get).frameDepth
  | .fail => throw (.failed (.host "host refused"))
  | .collect => do
    discard Machine.collect
    return .nil
  | .postCollect => do
    modify (·.post .collect)
    return .nil
  | .tick => do
    let ms ← (call "tick").natural 0
    modify (·.advance (ms * Duration.perMillisecond))
    return .nil
  | .same => do return .ofBool ((← (call "same").value 0) = (← (call "same").value 1))
  | .display => do
    let v ← (call "show").value 0
    let m ← get
    return .ofHandle (← Machine.intern (m.display v))
  | .keep => return args.getLast?.getD .nil
  | .box => do
    let x ← (call "box").number 0
    return .ofHandle (← Machine.alloc (.userData ⟨x, true⟩))
  | .unbox => do
    let v ← (call "unbox").value 0
    return (((← get).userData? v).map fun data => Value.ofFloat data.content).getD .nil
  | .bump => do bumpBox (← (call "bump").value 0)
  | .construct => do
    let me ← (call "construct").value 0
    Machine.bindField me "n" (← (call "construct").value 1)
    return .ofFloat 99.0
  | .add => addToField (call "add")
  | .me => do (call "me").value 0
  | .answer => return .ofFloat 42.0

def host : HostFunctions where
  call id args :=
    match ofId? id with
    | some p => p.run args
    | none => HostFunctions.none.call id args

def functions : List Native := [
  native "count" .any .count,
  native "depth" (.exactly 0) .depth,
  native "frames" (.exactly 0) .frames,
  native "fail" .any .fail,
  native "gc" (.exactly 0) .collect,
  native "postgc" (.exactly 0) .postCollect,
  native "tick" (.exactly 1) .tick,
  native "same" (.exactly 2) .same,
  native "show" (.exactly 1) .display,
  native "keep" .any .keep,
  native "box" (.exactly 1) .box,
  native "unbox" (.exactly 1) .unbox,
  native "bump" (.exactly 1) .bump]

def counterMethods : List Native := [
  native "construct" (.exactly 1) .construct,
  native "add" (.exactly 1) .add,
  native "me" (.exactly 0) .me,
  native "count" .any .count]

def application : NativeModule :=
  ⟨[native "answer" (.exactly 0) .answer, native "argc" .any .count], [("limit", 3.0)]⟩

/-- Brings all of it into a machine. -/
def install : Act Unit := do
  functions.forM Machine.addFunction
  discard (Machine.addClass "Counter" counterMethods)
  modify (Machine.addModule "host:app" application)

end Probe

end FiberMachine
