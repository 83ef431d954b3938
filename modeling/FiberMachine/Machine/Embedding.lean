import FiberMachine.Machine.Interpret

/-!
# Embedding

What a host does with a machine between runs: it looks at values, sets globals
and fields, brings native functions, classes and modules along, posts events and
moves the clock.
-/

namespace FiberMachine

namespace Machine

/-! ## Values -/

def display (m : Machine) (v : Value) : String := m.heap.display v

def global? (m : Machine) (name : String) : Option Value :=
  (m.heap.findText? name).bind m.globals.find?

def bindGlobal (name : String) (v : Value) : Act Unit := do
  let key ← intern name
  define none key v

/-- A field of an instance, or a member of any object. -/
def field? (m : Machine) (target : Value) (name : String) : Option Value :=
  match m.heap.findText? name, target.toHandle?.bind m.heap.get? with
  | some key, some o =>
    match fieldOf? o key with
    | some v => some v
    | none => o.members.find? key
  | _, _ => none

def bindField (target : Value) (name : String) (v : Value) : Act Unit := do
  match target.toHandle? with
  | none => throw (.typeMismatch "set field" "instance" target.scalarKind)
  | some _ => setField "set field" target (← intern name) v

/-- The number of operands of the running fiber. -/
def stackDepth (m : Machine) : Nat :=
  (m.running.map fun running => running.fiber.stack.size).getD 0

/-- The number of calls of the running fiber. -/
def frameDepth (m : Machine) : Nat :=
  (m.running.map fun running => running.fiber.frames.length).getD 0

/-! ## Data of the host -/

def userData? (m : Machine) (v : Value) : Option UserData :=
  match v.toHandle?.bind m.heap.get? with
  | some ⟨_, _, .userData data⟩ => some data
  | _ => none

def changeUserData (f : UserData → UserData) (o : Object) : Object :=
  match o.body with
  | .userData data => { o with body := .userData (f data) }
  | _ => o

/-! ## Functions, classes and modules of the host -/

def addFunction (n : Native) : Act Unit := do bindGlobal n.name (← newNative n)

/-- A global class whose methods are native. -/
def addClass (name : String) (methods : List Native) : Act Handle := do
  let key ← intern name
  let cls ← alloc (.classObject key)
  define none key (.ofHandle cls)
  defineFunctions (some cls) methods
  return cls

def addModule (name : String) (module : NativeModule) (m : Machine) : Machine :=
  { m with library := m.library.insert name module }

/-! ## Events and time -/

/-- Posts an event for the next safe point. -/
def post (event : Event) (m : Machine) : Machine := { m with events := m.events ++ [event] }

def advance (d : Duration) (m : Machine) : Machine := { m with timers := m.timers.advance d }

def withHost (host : Host) (m : Machine) : Machine := { m with host }

/-- Moves the clock to a time, unless it is later already. -/
def advanceTo (now : Duration) (m : Machine) : Machine :=
  { m with timers := { m.timers with now := max m.timers.now now } }

/-- The opcode that the running fiber comes to next. -/
def nextOpcode? (m : Machine) : Option Opcode :=
  match m.running with
  | some ⟨_, ⟨_, frame :: _, _, _, _, _⟩⟩ => frame.chunk.code[frame.ip]?.bind Opcode.ofByte?
  | _ => none

/-- Whether the next step can ask the host for a file, a line or the time. -/
def mayAsk (m : Machine) : Bool :=
  match m.nextOpcode? with
  | none | some .call | some .invoke | some .importModule | some .importModuleAs => true
  | some _ => 0 < m.timers.active || !m.events.isEmpty

/-- Takes the text that was printed since it was taken last. -/
def takeOutput (m : Machine) : String × Machine :=
  (m.host.output, { m with host := { m.host with output := "" } })

end Machine

end FiberMachine
