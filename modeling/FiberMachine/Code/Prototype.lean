import FiberMachine.Opcode

/-!
# Prototypes

A prototype is the code of one function before a machine has loaded it. Its
constants hold no handles: text stands for itself, and a nested function is
another prototype.
-/

namespace FiberMachine

mutual

inductive Constant where
  | nil
  | bool (b : Bool)
  | number (x : Float)
  | text (s : String)
  | function (p : Prototype)

structure Prototype where
  name : String
  arity : UInt8
  isAsync : Bool
  code : Array UInt8
  constants : List Constant
  /-- The source line of each byte of the code; later bytes have none. -/
  lines : Array UInt32

end

instance : Inhabited Constant := ⟨.nil⟩

instance : Inhabited Prototype := ⟨⟨"", 0, false, #[], [], #[]⟩⟩

namespace Constant

def isText (c : Constant) (s : String) : Bool :=
  match c with
  | .text t => t == s
  | _ => false

theorem isText_iff (c : Constant) (s : String) : c.isText s = true ↔ c = .text s := by
  cases c <;> simp [isText]

end Constant

end FiberMachine
