import FiberMachine.Config
import FiberMachine.Heap.Collect
import FiberMachine.Host
import FiberMachine.Library
import FiberMachine.Timers

/-!
# The state of a machine

One fiber runs at a time. Its body is in the machine while it runs, and its slot
in the heap holds none; the bodies of all other fibers are in the heap. An action
changes the machine and may fail; what it did before the failure stays done.
-/

namespace FiberMachine

structure Running where
  id : Handle
  fiber : Fiber

structure Machine where
  heap : Heap
  config : Config
  globals : Members
  /-- The modules that were imported, by the names they were imported under. -/
  modules : Members
  /-- The modules whose code has not ended yet. -/
  loading : List Handle
  running : Option Running
  /-- The fiber of the program, until it is done. -/
  root : Option Handle
  /-- The fibers that were spawned and have not started, the oldest first. -/
  ready : List Handle
  events : List Event
  timers : Timers
  host : Host
  library : Library
  methods : Table Kind Members
  /-- The names that a program exported, the first one first. -/
  exported : List String

namespace Machine

abbrev Act (α : Type) := EStateM Fault Machine α

instance : MonadLift (EStateM Fault Heap) (EStateM Fault Machine) where
  monadLift act := fun m =>
    match act m.heap with
    | .ok a heap => .ok a { m with heap }
    | .error fault heap => .error fault { m with heap }

variable {α : Type}

/-! ## Parts of the machine -/

def change (r : Handle) (f : Object → Object) : Act Unit := Heap.change r f

def intern (s : String) : Act Handle := Heap.run (·.intern s)

def alloc (body : Body) : Act Handle := Heap.run (·.alloc body)

def onHost (f : Host → α × Host) : Act α := fun m =>
  let (a, host) := f m.host
  .ok a { m with host }

/-- The text of a name, for a message. -/
def nameText (m : Machine) (name : Handle) : String := m.heap.nameText name "?"

/-! ## The running fiber -/

def fiber : Act Fiber := fun m =>
  match m.running with
  | some running => .ok running.fiber m
  | none => .error (.failed .noFiber) m

def runningId : Act Handle := fun m =>
  match m.running with
  | some running => .ok running.id m
  | none => .error (.failed .noFiber) m

@[inline] def changeFiber (f : Fiber → Fiber) : Act Unit := fun m =>
  match m.running with
  | some ⟨id, fiber⟩ => .ok () { m with running := some ⟨id, f fiber⟩ }
  | none => .error (.failed .noFiber) m

@[inline] def changeStack (f : OperandStack → Except Fault OperandStack) : Act Unit := fun m =>
  match m.running with
  | some ⟨id, ⟨stack, frames, caller, kind, state, module⟩⟩ =>
    match f stack with
    | .ok stack =>
      .ok () { m with running := some ⟨id, ⟨stack, frames, caller, kind, state, module⟩⟩ }
    | .error fault => .error fault m
  | none => .error (.failed .noFiber) m

def push (v : Value) : Act Unit := changeStack (·.push v)

def poke (distance : Nat) (v : Value) : Act Unit := changeStack (·.poke distance v)

def peek (distance : Nat) : Act Value := fun m =>
  match m.running with
  | some running =>
    match running.fiber.stack.peek distance with
    | .ok v => .ok v m
    | .error fault => .error fault m
  | none => .error (.failed .noFiber) m

def pop : Act Value := fun m =>
  match m.running with
  | some ⟨id, ⟨stack, frames, caller, kind, state, module⟩⟩ =>
    match stack.pop with
    | .ok (v, stack) =>
      .ok v { m with running := some ⟨id, ⟨stack, frames, caller, kind, state, module⟩⟩ }
    | .error fault => .error fault m
  | none => .error (.failed .noFiber) m

/-- The topmost operands, the lowest first. -/
def top (count : Nat) : Act (Array Value) := do (← fiber).stack.top count

/-- Puts one value in place of the topmost operands. -/
def replaceTop (count : Nat) (v : Value) : Act Unit := changeStack (·.replaceTop count v)

def frame : Act Frame := do
  match (← fiber).frames with
  | frame :: _ => return frame
  | [] => throw .operandMissing

end Machine

end FiberMachine
