import FiberMachine.Machine.Scope

/-!
# Fibers at work

A switch moves the body of one fiber back into the heap and takes the body of
another one out. A fiber that hands control to another one waits for it and goes
on when that fiber parks or is done.
-/

namespace FiberMachine

namespace Machine

/-- A new fiber that will call a function. -/
def newFiber (kind : FiberKind) (function : Handle) (args : List Value)
    (caller module : Option Handle) : Act Handle := do
  let m ← get
  let f ← m.heap.function function
  let stack ← (OperandStack.empty m.config.stackSlots).pushAll (.ofHandle function :: args)
  alloc (.fiber (some
    ⟨stack, [.enter function f.chunk 0 f.module], caller, kind, .ready, module⟩))

/-- The state of a fiber whose body is in the heap. -/
def parkedState? (h : Heap) (id : Handle) : Option FiberState :=
  match h.get? id with
  | some ⟨_, _, .fiber (some fiber)⟩ => some fiber.state
  | _ => none

def stateOf? (m : Machine) (id : Handle) : Option FiberState :=
  match m.running with
  | some running =>
    if running.id = id then some running.fiber.state else parkedState? m.heap id
  | none => parkedState? m.heap id

def withFiber (fiber : Option Fiber) (o : Object) : Object :=
  match o.body with
  | .fiber _ => { o with body := .fiber fiber }
  | _ => o

/-- Takes the body of a fiber out of the heap and lets it run. -/
def enter (id : Handle) : Act Unit := do
  match (← (← get).heap.get id).body with
  | .fiber (some fiber) =>
    change id (withFiber none)
    modify fun m => { m with running := some ⟨id, { fiber with state := .running }⟩ }
  | _ => throw (.failed .notResumable)

def park (state : FiberState) (fiber : Fiber) : Fiber :=
  match state with
  | .done => { fiber with stack := fiber.stack.truncate 0, frames := [], state }
  | _ => { fiber with state }

/-- Puts the body of the running fiber, if there is one, back into the heap. -/
def leave (state : FiberState) : Act Unit := do
  match (← get).running with
  | none => pure ()
  | some ⟨id, fiber⟩ =>
    modify fun m => { m with running := none }
    change id (withFiber (some (park state fiber)))

/-- Runs a fiber that is ready or suspended; the running one waits for it. Other
fibers cannot be resumed, and nothing happens. -/
def resume (target : Handle) : Act Unit := do
  let current := (← get).running.map Running.id
  match (← get).stateOf? target with
  | some .ready | some .suspended =>
    leave .waiting
    enter target
    changeFiber fun fiber => { fiber with caller := current }
  | _ => pure ()

def returnToCaller (state : FiberState) : Act Unit := do
  let caller := (← get).running.bind fun running => running.fiber.caller
  leave state
  match caller with
  | none => pure ()
  | some caller => if (← get).stateOf? caller = some .waiting then enter caller

/-- Suspends the running fiber for a time. -/
def sleep (delay : Duration) : Act Unit := do
  let id ← runningId
  modify fun m => { m with timers := m.timers.add delay id }
  returnToCaller .suspended

/-- Ends the running fiber, whose outermost call has returned. -/
def finish : Act Unit := do
  let id ← runningId
  let done ← fiber
  match done.kind, done.module with
  | .module, some module => completeModule module
  | _, _ => pure ()
  modify fun m => { m with root := m.root.filter (· != id) }
  returnToCaller .done

/-- Puts nil in place of a call and lines up a fiber that will run it. -/
def spawn (function : Handle) (argc : Nat) : Act Unit := do
  let current ← runningId
  let args ← top argc
  replaceTop (argc + 1) .nil
  let spawned ← newFiber .async function args.toList (some current) none
  modify fun m => { m with ready := m.ready ++ [spawned] }

def startFirst : List Handle → Act Bool
  | [] => return false
  | id :: rest => do
    modify fun m => { m with ready := rest }
    if (← get).stateOf? id = some .ready then
      resume id
      return true
    else startFirst rest

/-- Starts the oldest fiber that is ready, if there is one. -/
def startReady : Act Bool := do startFirst (← get).ready

end Machine

end FiberMachine
