import FiberMachine.Code.Prototype
import FiberMachine.Heap.Basic

/-!
# Loading

A prototype becomes a function object: its texts are interned, the prototypes
among its constants become functions of the same module, and the constants keep
their places.
-/

namespace FiberMachine

namespace Heap

mutual

def loadConstant (module : Option Handle) (h : Heap) : Constant → Heap × Value
  | .nil => (h, .nil)
  | .bool b => (h, .ofBool b)
  | .number x => (h, .ofFloat x)
  | .text s =>
    let (h, r) := h.intern s
    (h, .ofHandle r)
  | .function p =>
    let (h, r) := load module h p
    (h, .ofHandle r)

def loadConstants (module : Option Handle) (h : Heap) : List Constant → Heap × List Value
  | [] => (h, [])
  | c :: rest =>
    let (h, v) := loadConstant module h c
    let (h, vs) := loadConstants module h rest
    (h, v :: vs)

def load (module : Option Handle) (h : Heap) : Prototype → Heap × Handle
  | ⟨name, arity, isAsync, code, constants, lines⟩ =>
    let (h, values) := loadConstants module h constants
    let (h, name) := h.intern name
    h.alloc (.function ⟨name, arity, isAsync, ⟨code, values.toArray, lines⟩, module⟩)

end

end Heap

end FiberMachine
