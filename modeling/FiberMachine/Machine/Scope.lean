import FiberMachine.Machine.Basic

/-!
# Scopes

A name is looked up in the module that the running code belongs to and then
among the globals of the machine. A definition goes into the module, if there
is one; an assignment goes to the definition that a lookup finds.
-/

namespace FiberMachine

namespace Machine

def scope : Act (Option Handle) := return (← frame).scope

/-- Defines a name in a module, or among the globals of the machine. -/
def define (scope : Option Handle) (name : Handle) (v : Value) : Act Unit :=
  match scope with
  | some module => change module (Heap.insertMember name v)
  | none => modify fun m => { m with globals := m.globals.insert name v }

/-- The members of the module that the running code belongs to. -/
def scopeMembers : Act Members := do
  match ← scope with
  | some module => return (← (← get).heap.get module).members
  | none => return .empty

def global (name : Handle) : Act Value := do
  let members ← scopeMembers
  let m ← get
  match members.find? name, m.globals.find? name with
  | some v, _ => return v
  | none, some v => return v
  | none, none => throw (.undefinedVariable (m.nameText name))

def assignGlobal (name : Handle) (v : Value) : Act Unit := do
  let members ← scopeMembers
  let m ← get
  if members.contains name then define (← scope) name v
  else if m.globals.contains name then define none name v
  else throw (.undefinedVariable (m.nameText name))

/-- Notes the name of an export, once. -/
def recordExport (name : Handle) : Act Unit := modify fun m =>
  let text := m.nameText name
  if m.exported.contains text then m else { m with exported := m.exported ++ [text] }

/-- The code of a module has ended: the module gets its name in the scope of its
importer and among the globals of the machine. -/
def completeModule (module : Handle) : Act Unit := do
  modify fun m => { m with loading := m.loading.filter (· != module) }
  let (name, importer) ← (← get).heap.module module
  define importer name (.ofHandle module)
  define none name (.ofHandle module)

end Machine

end FiberMachine
