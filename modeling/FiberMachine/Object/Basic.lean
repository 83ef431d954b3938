import FiberMachine.Builtin
import FiberMachine.Table
import FiberMachine.Span
import FiberMachine.Object.Fiber

/-!
# Objects

An object is a mark, a table of named members and a body. Bodies refer to other
objects by handle only. Texts are never changed, the body of a running fiber is
elsewhere, and every object that refers to another one lists it in `references`.
-/

namespace FiberMachine

/-- Named values; the names are handles of texts. -/
abbrev Members := Table Handle Value

structure Function where
  name : Handle
  arity : UInt8
  isAsync : Bool
  chunk : Chunk
  /-- The module whose globals the function sees, or none for those of the machine. -/
  module : Option Handle

inductive Kind where
  | text | array | span | dictionary | function | native | classObject | instanceOf | boundMethod
  | module | fiber | userData
deriving DecidableEq, Repr

namespace Kind

def name : Kind → String
  | text => "string"
  | array => "array"
  | span => "range"
  | dictionary => "dictionary"
  | function => "function"
  | native => "native function"
  | classObject => "class"
  | instanceOf => "instance"
  | boundMethod => "bound method"
  | module => "module"
  | fiber => "fiber"
  | userData => "userdata"

end Kind

/-- Data of the host. Some of it wants to know when it is given up. -/
structure UserData where
  content : Float
  hasDestructor : Bool
deriving DecidableEq, Repr

inductive Body where
  | text (s : String)
  | array (items : Array Value)
  | span (s : Span)
  | dictionary (entries : Table Value Value)
  | function (f : Function)
  | native (n : Native)
  | classObject (name : Handle)
  | instanceOf (cls : Handle) (fields : Members)
  | boundMethod (receiver : Value) (method : Handle)
  | module (name : Handle) (caller : Option Handle)
  | fiber (body : Option Fiber)
  | userData (data : UserData)

namespace Body

def kind : Body → Kind
  | text _ => .text
  | array _ => .array
  | span _ => .span
  | dictionary _ => .dictionary
  | function _ => .function
  | native _ => .native
  | classObject _ => .classObject
  | instanceOf .. => .instanceOf
  | boundMethod .. => .boundMethod
  | module .. => .module
  | fiber _ => .fiber
  | userData _ => .userData

def valueHandles (values : List Value) : List Handle := values.filterMap Value.toHandle?

def memberHandles (members : Members) : List Handle :=
  members.toList.flatMap fun e => e.1 :: e.2.toHandle?.toList

/-- The handles a body holds. -/
def references : Body → List Handle
  | text _ | native _ | span _ | userData _ | fiber none => []
  | array items => valueHandles items.toList
  | dictionary entries => valueHandles (entries.toList.flatMap fun e => [e.1, e.2])
  | function f => f.name :: valueHandles f.chunk.constants.toList ++ f.module.toList
  | classObject name => [name]
  | instanceOf cls fields => cls :: memberHandles fields
  | boundMethod receiver method => receiver.toHandle?.toList ++ [method]
  | module name caller => name :: caller.toList
  | fiber (some f) => f.references

def valueBytes : Nat := 8

def entryBytes : Nat := 16

/-- Arrays are counted with room for growth to the next power of two. -/
def arrayRoom (size : Nat) : Nat := if size = 0 then 0 else max 4 size.nextPowerOfTwo

def bytes : Body → Nat
  | text s => s.utf8ByteSize
  | array items => arrayRoom items.size * valueBytes
  | dictionary entries => entries.size * entryBytes
  | function f => f.chunk.code.size + f.chunk.constants.size * valueBytes
  | native n => n.name.utf8ByteSize
  | instanceOf _ fields => fields.size * entryBytes
  | _ => 0

end Body

structure Object where
  marked : Bool
  members : Members
  body : Body

namespace Object

def ofBody (body : Body) : Object := ⟨false, .empty, body⟩

def kind (o : Object) : Kind := o.body.kind

/-- Every handle an object holds. -/
def references (o : Object) : List Handle := Body.memberHandles o.members ++ o.body.references

/-- The bytes that every object takes. -/
def baseBytes : Nat := 128

/-- The bytes an object is counted with. -/
def bytes (o : Object) : Nat := baseBytes + o.members.size * Body.entryBytes + o.body.bytes

end Object

end FiberMachine
