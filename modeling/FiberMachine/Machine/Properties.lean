import FiberMachine.Machine.Calls

/-!
# Properties and methods

A name behind an object is looked up among its members, then among the methods
of its kind, then among the fields of an instance. A function found among the
members becomes a method of the object, except behind modules and classes.
-/

namespace FiberMachine

namespace Machine

/-- The member of an object or the method of its kind. -/
def findMethod (m : Machine) (o : Object) (name : Handle) : Option Value :=
  match o.members.find? name with
  | some v => some v
  | none => (m.methods.find? o.kind).bind (·.find? name)

def fieldOf? (o : Object) (name : Handle) : Option Value :=
  match o.body with
  | .instanceOf _ fields => fields.find? name
  | _ => none

/-- Whether the members of an object are plain values. -/
def holdsPlainMembers (kind : Kind) : Bool := kind = .module || kind = .classObject

def property (receiver : Value) (name : Handle) : Act Value := do
  match receiver.toHandle? with
  | none => throw (.typeMismatch "property access" "object" receiver.scalarKind)
  | some r =>
    let o ← object r
    let m ← get
    match m.findMethod o name with
    | some method =>
      match method.toHandle?, m.heap.kindOf? method with
      | some f, some .function | some f, some .native =>
        if holdsPlainMembers o.kind then return method
        else return .ofHandle (← alloc (.boundMethod receiver f))
      | _, _ => return method
    | none =>
      match fieldOf? o name with
      | some v => return v
      | none => throw (.undefinedProperty (m.nameText name))

def setFieldChange (name : Handle) (v : Value) : Object → Object :=
  Heap.changeFields (·.insert name v)

/-- Sets a field of an instance, for an operation that a fault names. -/
def setField (operation : String) (target : Value) (name : Handle) (v : Value) : Act Unit := do
  match target.toHandle? with
  | none => throw (.typeMismatch operation "instance" target.scalarKind)
  | some r =>
    match (← object r).body with
    | .instanceOf .. => change r (setFieldChange name v)
    | body => throw (.typeMismatch operation "instance" body.kind.name)

/-- Gives the class below the top the method at the top. -/
def defineMethod (name : Handle) : Act Unit := do
  let method ← peek 0
  let cls ← peek 1
  let h := (← get).heap
  match cls.toHandle?, h.kindOf? cls with
  | some r, some .classObject =>
    change r (Heap.insertMember name method)
    discard pop
  | _, _ => throw (.typeMismatch "method definition" "class" (h.typeName cls))

variable (host : HostFunctions)

/-- Looks a method up and calls it, without an object for the bound method. -/
def invoke (name : Handle) (argc : Nat) : Act Unit := do
  let receiver ← peek argc
  match receiver.toHandle? with
  | none => throw (.typeMismatch "method call" "object" receiver.scalarKind)
  | some r =>
    let o ← object r
    match (← get).findMethod o name with
    | some method =>
      if holdsPlainMembers o.kind || (← get).heap.kindOf? method = some .classObject then
        poke argc method
        callValue host method argc
      else callMethod host receiver method argc
    | none =>
      match fieldOf? o name with
      | some v =>
        poke argc v
        callValue host v argc
      | none => throw (.undefinedProperty ((← get).nameText name))

end Machine

end FiberMachine
