import FiberMachine.Code.File
import FiberMachine.Fault
import FiberMachine.Json.Value

/-!
# The library for JSON

A machine reads and writes JSON values and code files with a library that it is given. The
standard one is made of the readers and writers of this project; nothing else in a machine
knows which one it has.
-/

namespace FiberMachine

open JsonText

structure JsonLibrary where
  parse : String → Except SyntaxError JsonValue
  render : JsonText.Layout → JsonValue → String
  readCode : String → Except SyntaxError Prototype
  writeCode : JsonText.Layout → Prototype → String

namespace JsonLibrary

def standard : JsonLibrary where
  parse := JsonValue.parse
  render := JsonValue.render
  readCode := CodeFile.parse
  writeCode layout p := (CodeFile.tree p).render layout

def rejection (e : SyntaxError) : Rejection :=
  .single e.line s!"invalid bytecode: no code file, by line {e.line}"

/-- The code in the text of a code file. -/
def compile (lib : JsonLibrary) (text : String) : Except Rejection Prototype :=
  (lib.readCode text).mapError rejection

end JsonLibrary

namespace CodeFile

def read (text : String) : Except Rejection Prototype := JsonLibrary.standard.compile text

def write (p : Prototype) : String := JsonLibrary.standard.writeCode .compact p

end CodeFile

end FiberMachine
