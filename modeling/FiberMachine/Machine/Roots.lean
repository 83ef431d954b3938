import FiberMachine.Machine.Basic

/-!
# Roots

The handles from which a machine can reach objects, and the collections that
keep what they reach.
-/

namespace FiberMachine

namespace Running

def references (r : Running) : List Handle := r.id :: r.fiber.references

end Running

namespace Machine

def methodHandles (methods : Table Kind Members) : List Handle :=
  methods.toList.flatMap fun e => Body.memberHandles e.2

def roots (m : Machine) : List Handle :=
  (m.running.map Running.references).getD [] ++ m.root.toList ++ m.ready
    ++ m.events.filterMap Event.fiber? ++ m.timers.fibers ++ m.loading
    ++ Body.memberHandles m.globals ++ Body.memberHandles m.modules ++ methodHandles m.methods

def collect : Act Heap.Stats := do
  let handles := (← get).roots
  Heap.run (·.collect handles)

/-- Whether a collection is due before the next instruction. -/
def collectionDue (m : Machine) : Bool := m.config.collectAlways || m.heap.pending

def collectIfDue : Act Unit := do
  if (← get).collectionDue then discard collect

end Machine

end FiberMachine
