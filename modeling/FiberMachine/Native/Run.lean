import FiberMachine.Machine.Basic
import FiberMachine.Native.Containers
import FiberMachine.Native.Json
import FiberMachine.Native.Maths

/-!
# Built-in functions at work

What each built-in function does when it is called. The functions of a host are
given by their numbers.
-/

namespace FiberMachine

/-- The functions that a host brings along. -/
structure HostFunctions where
  call : Nat → List Value → Machine.Act Value

namespace HostFunctions

/-- A host without functions. -/
def none : HostFunctions := ⟨fun _ _ => throw (.failed (.host "no such function"))⟩

end HostFunctions

namespace NativeCall

open Machine (Act)

/-- The texts of all arguments with blanks between them. -/
def line (c : NativeCall) (h : Heap) : String := " ".intercalate (c.args.map h.display)

def print (c : NativeCall) (ending : String) : Act Value := do
  let text := c.line (← get).heap ++ ending
  Machine.onHost fun host => ((), host.print text)
  return .nil

def input : Act Value := do
  let line ← Machine.onHost Host.readLine
  return .ofHandle (← Machine.intern line)

/-- A file that is empty or missing does not exist. -/
def fileExists (c : NativeCall) : Act Value := do
  let path ← c.text 0
  let contents ← Machine.onHost (·.fetch path)
  return .ofBool !contents.isEmpty

def fileText (c : NativeCall) : Act Value := do
  let path ← c.text 0
  let contents ← Machine.onHost (·.fetch path)
  if contents.isEmpty then return .nil else return .ofHandle (← Machine.intern contents)

/-- Seconds since the machine began. -/
def clock : Act Value := return .ofFloat (Duration.toSeconds (← get).timers.now)

/-- The time of day, as the wall clock shows it. -/
def now : Act Value := do
  let time ← Machine.onHost Host.readClock
  if time < 0 then throw (.failed .beforeEpoch) else return .ofFloat (Duration.toSeconds time.toNat)

end NativeCall

namespace Builtin

open NativeCall

def run (b : Builtin) (args : List Value) : Machine.Act Value :=
  let c : NativeCall := ⟨b.name, args⟩
  match b with
  | newDictionary => return .ofHandle (← Machine.alloc (.dictionary .empty))
  | newList => return .ofHandle (← Machine.alloc (.array #[]))
  | .arrayLength => c.arrayLength
  | .arrayAppend => c.arrayAppend
  | .arrayPop => c.arrayPop
  | .spanExpand => c.spanExpand
  | .spanStep => c.spanStep
  | .dictPut => c.dictPut
  | .dictGet => c.dictGet
  | .dictHas => c.dictHas
  | .dictRemove => c.dictRemove
  | .dictSize => c.dictSize
  | .dictKeys => c.dictKeys
  | .textLength => c.textLength
  | .print => c.print ""
  | .printLine => c.print "\n"
  | .input => NativeCall.input
  | .now => NativeCall.now
  | .clock => NativeCall.clock
  | .jsonParse => do c.jsonParse (← get).host.json
  | .jsonStringify => do c.jsonStringify (← get).host.json
  | .fileExists => c.fileExists
  | .fileText => c.fileText
  | unary f => return .ofFloat (f.apply (← c.number 0))
  | binary f => return .ofFloat (f.apply (← c.number 0) (← c.number 1))

end Builtin

end FiberMachine
