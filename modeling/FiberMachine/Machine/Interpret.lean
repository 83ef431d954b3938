import FiberMachine.Machine.Step

/-!
# Running programs

A new machine knows its library. Running a program ends with every fiber done or
with a fault, which gives all fibers up; globals and imported modules stay, and
the machine can run another program.
-/

namespace FiberMachine

/-- How a run ended. -/
inductive Outcome where
  | finished
  | halted (cause : Halt)
  | unfinished
deriving DecidableEq, Repr

namespace Machine

/-! ## A new machine -/

/-- Adds native functions to members under their names. -/
def withNatives (h : Heap) (members : Members) : List Native → Heap × Members
  | [] => (h, members)
  | n :: rest =>
    let (h, name) := h.intern n.name
    let (h, r) := h.alloc (.native n)
    withNatives h (members.insert name (.ofHandle r)) rest

def withMethods (h : Heap) (methods : Table Kind Members) :
    List (Kind × NativeModule) → Heap × Table Kind Members
  | [] => (h, methods)
  | (kind, natives) :: rest =>
    let (h, members) := withNatives h .empty natives.functions
    withMethods h (methods.insert kind members) rest

def new (config : Config) : Machine :=
  let h := Heap.withThreshold (UInt64.ofNat config.collectAt) (UInt64.ofNat config.collectGrowth)
  let (h, methods) := withMethods h .empty Library.methods
  let (heap, globals) := withNatives h .empty Library.globals.functions
  { heap, config, globals, methods
    modules := .empty
    loading := []
    running := none
    root := none
    ready := []
    events := []
    timers := .start
    host := .empty
    library := Library.standard
    exported := [] }

instance : Inhabited Machine := ⟨new {}⟩

/-! ## Backtraces -/

/-- The name of the function of a frame; the code of a program has none. -/
def functionName? (h : Heap) (r : Handle) : Option String :=
  match h.function r with
  | .error _ => none
  | .ok f =>
    match h.nameText f.name "" with
    | "" | "script" => none
    | name => some name

def frameLine (h : Heap) (f : Frame) : String :=
  let line := (f.line.map fun n => toString n.toNat).getD "?"
  match functionName? h f.function with
  | none => s!"[line {line}] in script"
  | some name => s!"[line {line}] in {name}()"

/-- The calls of the running fiber, the innermost first. -/
def backtrace (m : Machine) : List String :=
  match m.running with
  | none => []
  | some running => running.fiber.frames.map (frameLine m.heap)

/-! ## Programs -/

/-- Gives up all fibers. A module whose code has not ended is forgotten. -/
def reset (m : Machine) : Machine :=
  { m with
    running := none
    modules := m.modules.filter fun _ v => !(m.loading.map Value.ofHandle).contains v
    loading := []
    root := none
    ready := []
    events := []
    timers := m.timers.clear }

/-- Loads a program and switches to a fiber for it. -/
def start (p : Prototype) : Act Unit := do
  let function ← Heap.run (·.load none p)
  let root ← newFiber .root function [] none none
  modify fun m => { m with root := some root }
  resume root

/-- What a run ended with, and the machine after it. -/
def settle : EStateM.Result Fault Machine Bool → Outcome × Machine
  | .ok true m => (.finished, m)
  | .ok false m => (.unfinished, m)
  | .error fault m => (.halted (.faulted fault m.backtrace), m.reset)

def interpret (host : HostFunctions) (steps : Nat) (p : Prototype) (m : Machine) :
    Outcome × Machine :=
  settle ((do start p; run host steps : Act Bool) m)

/-- Runs the program in the text of a code file. -/
def interpretText (host : HostFunctions) (steps : Nat) (text : String) (m : Machine) :
    Outcome × Machine :=
  match m.host.json.compile text with
  | .error cause => (.halted (.rejected cause), m)
  | .ok p => m.interpret host steps p

end Machine

end FiberMachine
