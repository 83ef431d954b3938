import FiberMachine.Machine.Fibers
import FiberMachine.Native.Run

/-!
# Calls

The callee and the arguments of a call are the topmost operands. The place of
the callee becomes local slot zero: it holds the function itself in a plain
call, the receiver in a call of a method and the new instance in a call of a
class.
-/

namespace FiberMachine

namespace Machine

def object (r : Handle) : Act Object := do (← get).heap.get r

def frameLimitCheck : Act Unit := do
  let limit := (← get).config.maxFrames
  if limit ≤ (← fiber).frames.length then throw (.frameLimit limit)

/-- Calls a function, or spawns it if it is async. The flag says whether the
call yields slot zero. -/
def callFunction (r : Handle) (argc : Nat) (constructs : Bool) : Act Unit := do
  let f ← (← get).heap.function r
  if argc ≠ f.arity.toNat then
    throw (.argumentCount ((← get).nameText f.name) f.arity.toNat argc)
  if f.isAsync then spawn r argc
  else
    frameLimitCheck
    let base ← Checked.minus (← Checked.minus (← fiber).stack.size argc) 1
    changeFiber fun fiber =>
      { fiber with
        frames := { Frame.enter r f.chunk base f.module with constructs } :: fiber.frames }

/-- The number of arguments that a function wants, if it does not take as many. -/
def refused (arity : Arity) (argc : Nat) : Option Nat :=
  match arity with
  | .exactly n => if n = argc then none else some n
  | .any => none

variable (host : HostFunctions)

def runNative (n : Native) (args : List Value) : Act Value :=
  match n.code with
  | .builtin b => b.run args
  | .host id => host.call id args

/-- Runs a native function and puts its result in place of the call. A receiver
stands before the arguments and is not counted. -/
def callNative (n : Native) (argc : Nat) (receiver : Option Value) : Act Unit := do
  match refused n.arity argc with
  | some expected => throw (.argumentCount n.name expected argc)
  | none =>
    let args ← top argc
    let result ← runNative host n (receiver.toList ++ args.toList)
    replaceTop (argc + 1) result

/-- Puts a new instance of a class in place of it and runs `construct`. -/
def callClass (cls : Handle) (argc : Nat) : Act Unit := do
  let instanceValue := Value.ofHandle (← Heap.newInstance cls)
  poke argc instanceValue
  let construct ← intern "construct"
  let o ← object cls
  match (o.members.find? construct).bind Value.toHandle? with
  | some r =>
    match (← object r).body with
    | .function _ => callFunction r argc true
    | .native n =>
      callNative host n argc (some instanceValue)
      poke 0 instanceValue
    | body => throw (.notCallable body.kind.name)
  | none =>
    if argc ≠ 0 then
      let name ← match o.body with
        | .classObject name => pure ((← get).nameText name)
        | _ => pure ""
      throw (.argumentCount name 0 argc)

/-- Calls what takes no receiver and is no function, in place of the receiver. Only a function or
a native function is ever bound to a receiver, so there is no bound method to go on with. -/
def callUnbound (r : Handle) (argc : Nat) : Act Unit := do
  poke argc (.ofHandle r)
  match (← object r).body with
  | .classObject _ => callClass host r argc
  | body => throw (.notCallable body.kind.name)

/-- Calls a function or a native function for a receiver that is in slot zero.
The members of modules are plain functions and get no receiver. -/
def callBound (receiver : Value) (r : Handle) (argc : Nat) : Act Unit := do
  match (← object r).body with
  | .function _ => callFunction r argc false
  | .native n =>
    match (← get).heap.kindOf? receiver with
    | some .module => callNative host n argc none
    | _ => callNative host n argc (some receiver)
  | _ => callUnbound host r argc

def callValue (callee : Value) (argc : Nat) : Act Unit := do
  match callee.toHandle? with
  | none => throw (.notCallable callee.scalarKind)
  | some r =>
    match (← object r).body with
    | .function _ => callFunction r argc false
    | .native n => callNative host n argc none
    | .classObject _ => callClass host r argc
    | .boundMethod receiver method =>
      poke argc receiver
      callBound host receiver method argc
    | body => throw (.notCallable body.kind.name)

/-- Calls a member that was found as a method of a receiver. -/
def callMethod (receiver method : Value) (argc : Nat) : Act Unit := do
  match method.toHandle? with
  | none => throw (.notCallable method.scalarKind)
  | some r =>
    match (← object r).kind with
    | .function | .native => callBound host receiver r argc
    | _ =>
      poke argc method
      callValue host method argc

/-- Returns from the innermost call, or ends the fiber with the outermost one. -/
def returnFromCall : Act Unit := do
  let result ← pop
  let done ← frame
  changeFiber fun fiber => { fiber with frames := fiber.frames.tail }
  let result ← if done.constructs then
      match (← fiber).stack.get? done.base with
      | some v => pure v
      | none => throw .operandMissing
    else pure result
  changeFiber fun fiber => { fiber with stack := fiber.stack.truncate done.base }
  if (← fiber).frames.isEmpty then finish else push result

end Machine

end FiberMachine
