import FiberMachine.Heap.Display
import FiberMachine.Native.Call

/-!
# Methods of containers

The methods of arrays, ranges, dictionaries and texts. The receiver is the first
argument.
-/

namespace FiberMachine

namespace NativeCall

open Heap (Act)

def ofNat (n : Nat) : Value := .ofFloat (Float.ofNat n)

/-! ## Arrays -/

def arrayLength (c : NativeCall) : Act Value := do
  let r ← c.object 0 .array
  return ofNat (← (← get).array r).size

def arrayAppend (c : NativeCall) : Act Value := do
  let r ← c.object 0 .array
  Heap.pushItem r (← c.value 1)
  return .nil

/-- Takes the last item away; an empty array gives nil. -/
def arrayPop (c : NativeCall) : Act Value := do
  let r ← c.object 0 .array
  let last := (← (← get).array r).back?
  Heap.change r (Heap.changeArray Array.pop)
  return last.getD .nil

/-! ## Ranges -/

def spanExpand (c : NativeCall) : Act Value := do
  let r ← c.object 0 .span
  let xs ← (← (← get).span r).values
  return .ofHandle (← Heap.run (·.alloc (.array (xs.map .ofFloat))))

def spanStep (c : NativeCall) : Act Value := do
  let r ← c.object 0 .span
  let step ← c.number 1
  if step == 0.0 || !step.isFinite then throw (.failed .rangeStep)
  let s ← (← get).span r
  return .ofHandle (← Heap.run (·.alloc (.span { s with step })))

/-! ## Dictionaries -/

def dictPut (c : NativeCall) : Act Value := do
  let r ← c.object 0 .dictionary
  let key ← c.value 1
  let v ← c.value 2
  Heap.change r (Heap.changeDictionary (·.insert key v))
  return .nil

def dictGet (c : NativeCall) : Act Value := do
  let r ← c.object 0 .dictionary
  let key ← c.value 1
  let h ← get
  match (← h.dictionary r).find? key with
  | some v => return v
  | none => throw (.unknownKey (h.display key))

def dictHas (c : NativeCall) : Act Value := do
  let r ← c.object 0 .dictionary
  let key ← c.value 1
  return .ofBool ((← (← get).dictionary r).contains key)

/-- Takes an entry away and gives its value; without an entry it gives nil. -/
def dictRemove (c : NativeCall) : Act Value := do
  let r ← c.object 0 .dictionary
  let key ← c.value 1
  let old := (← (← get).dictionary r).find? key
  Heap.change r (Heap.changeDictionary (·.erase key))
  return old.getD .nil

def dictSize (c : NativeCall) : Act Value := do
  let r ← c.object 0 .dictionary
  return ofNat (← (← get).dictionary r).size

/-- The keys in the order of their texts. -/
def dictKeys (c : NativeCall) : Act Value := do
  let r ← c.object 0 .dictionary
  let h ← get
  let keys := Heap.sortEntries ((← h.dictionary r).keys.map fun key => (h.display key, key))
  return .ofHandle (← Heap.run (·.alloc (.array (keys.map Prod.snd).toArray)))

/-! ## Texts -/

def textLength (c : NativeCall) : Act Value := do
  let r ← c.object 0 .text
  return ofNat (← (← get).text r).length

end NativeCall

end FiberMachine
