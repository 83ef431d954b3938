import FiberMachine.Heap.Load
import FiberMachine.Machine.Fibers

/-!
# Imports

A native module gives its functions and numbers to the importer, or to a module
object under an alias. Any other module is a file: its code runs on a fiber of
its own, and the module is there when that fiber is done.
-/

namespace FiberMachine

namespace Machine

/-- The module object that was imported under a name. -/
def importedModule (m : Machine) (name : Handle) : Option Handle :=
  match m.modules.find? name with
  | some v => if m.heap.kindOf? v = some .module then v.toHandle? else none
  | none => none

def newModule (name : Handle) (importer : Option Handle) : Act Handle := do
  let module ← alloc (.module name importer)
  modify fun m => { m with modules := m.modules.insert name (.ofHandle module) }
  return module

/-- The module object for an alias, defined in the scope of the importer. -/
def aliasModule (name : Handle) (importer : Option Handle) : Act Handle := do
  let module ← match (← get).importedModule name with
    | some module => pure module
    | none => newModule name importer
  define importer name (.ofHandle module)
  return module

def newNative (n : Native) : Act Value := return .ofHandle (← alloc (.native n))

def defineFunctions (target : Option Handle) : List Native → Act Unit
  | [] => pure ()
  | n :: rest => do
    let native ← newNative n
    define target (← intern n.name) native
    defineFunctions target rest

def defineNumbers (target : Option Handle) : List (String × Float) → Act Unit
  | [] => pure ()
  | (name, x) :: rest => do
    define target (← intern name) (.ofFloat x)
    defineNumbers target rest

def importNative (native : NativeModule) (as : Option Handle) : Act Unit := do
  let importer ← scope
  let target ← match as with
    | some name => some <$> aliasModule name importer
    | none => pure importer
  defineFunctions target native.functions
  defineNumbers target native.constants

/-- Loads the code of a module and switches to the fiber that runs it. -/
def startModule (key : Handle) (code : Prototype) : Act Unit := do
  let module ← newModule key (← scope)
  modify fun m => { m with loading := m.loading ++ [module] }
  let function ← Heap.run (·.load (some module) code)
  resume (← newFiber .module function [] none (some module))

def importFile (name : String) (key : Handle) : Act Unit := do
  let m ← get
  if m.modules.contains key then pure ()
  else
    let path := name ++ m.config.moduleExtension
    let contents ← onHost (·.fetch path)
    if contents.isEmpty then throw (.unknownModule path)
    match m.host.json.compile contents with
    | .error cause => throw (.rejectedModule name cause)
    | .ok code => startModule key code

def importModule (name : Handle) (as : Option Handle) : Act Unit := do
  let m ← get
  let text := m.nameText name
  match m.library.find? text with
  | some native => importNative native as
  | none => importFile text (as.getD name)

end Machine

end FiberMachine
