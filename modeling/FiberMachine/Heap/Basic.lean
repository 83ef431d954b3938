import FiberMachine.Object.Basic

/-!
# The heap

The heap is an array of slots. A slot is empty or holds an object, and it counts
how often it has been emptied; a handle is good only for the generation it was
issued in. The texts in the heap are all different, and a table finds the handle
of each. Bytes are counted in 64-bit words, and a growth beyond the threshold
asks for a collection.
-/

namespace FiberMachine

instance {σ : Type} : MonadLift (Except Fault) (EStateM Fault σ) where
  monadLift
    | .ok a => pure a
    | .error fault => throw fault

structure Slot where
  generation : Generation
  /-- The bytes that the object in the slot is counted with. -/
  bytes : UInt64
  object : Option Object

structure Heap where
  slots : Array Slot
  /-- The empty slots, the next to be filled first. -/
  free : List UInt32
  /-- The handle of every text in the heap. -/
  texts : Table String Handle
  bytes : UInt64
  threshold : UInt64
  growth : UInt64
  leastThreshold : UInt64
  pending : Bool
  /-- The number of objects. -/
  count : Nat
  /-- The number of destructors that have run. -/
  drops : Nat

namespace Heap

def defaultThreshold : UInt64 := 524288

def defaultGrowth : UInt64 := 2

def withThreshold (threshold growth : UInt64) : Heap where
  slots := #[]
  free := []
  texts := .empty
  bytes := 0
  threshold := threshold
  growth := max growth 1
  leastThreshold := threshold
  pending := false
  count := 0
  drops := 0

def empty : Heap := withThreshold defaultThreshold defaultGrowth

instance : Inhabited Heap := ⟨empty⟩

/-- Counts a change of size. Only growth can ask for a collection. -/
def reallocate (h : Heap) (old new : UInt64) : Heap :=
  let sum := h.bytes + new
  let bytes := if old ≤ sum then sum - old else 0
  { h with bytes, pending := h.pending || (old < new && h.threshold < bytes) }

def slot? (h : Heap) (r : Handle) : Option Slot :=
  match h.slots[r.index.toNat]? with
  | some slot => if slot.generation = r.generation then some slot else none
  | none => none

def get? (h : Heap) (r : Handle) : Option Object := (h.slot? r).bind Slot.object

def isLive (h : Heap) (r : Handle) : Bool := (h.get? r).isSome

protected def get (h : Heap) (r : Handle) : Except Fault Object :=
  match h.get? r with
  | some o => .ok o
  | none => .error .dangling

/-- Puts an object into a new slot. -/
def fillNew (h : Heap) (object : Object) (bytes : UInt64) : Heap × Handle :=
  let index := UInt32.ofNat h.slots.size
  ({ h with slots := h.slots.push ⟨.zero, bytes, some object⟩, count := h.count + 1 },
    ⟨index, .zero⟩)

/-- Puts an object into the empty slot at the head of the free list. -/
def fillFree (h : Heap) (index : UInt32) (generation : Generation) (object : Object)
    (bytes : UInt64) : Heap × Handle :=
  ({ h with
    slots := h.slots.setIfInBounds index.toNat ⟨generation, bytes, some object⟩
    free := h.free.tail
    count := h.count + 1 }, ⟨index, generation⟩)

/-- Puts an object into the slot emptied last, or into a new one. -/
def alloc (h : Heap) (body : Body) : Heap × Handle :=
  let object := Object.ofBody body
  let bytes := UInt64.ofNat object.bytes
  match h.free with
  | [] => (h.reallocate 0 bytes).fillNew object bytes
  | index :: _ =>
    match h.slots[index.toNat]? with
    | none => (h.reallocate 0 bytes).fillNew object bytes
    | some slot => (h.reallocate 0 bytes).fillFree index slot.generation object bytes

def dropsOf (o : Object) : Nat :=
  match o.body with
  | .userData data => if data.hasDestructor then 1 else 0
  | _ => 0

/-- Empties the slot of an object, which ends the generation. A stale handle changes nothing. -/
def release (h : Heap) (r : Handle) : Heap :=
  match h.slot? r with
  | some ⟨generation, bytes, some object⟩ =>
    let h := { h with
      slots := h.slots.setIfInBounds r.index.toNat ⟨generation.next, 0, none⟩
      free := r.index :: h.free
      count := h.count - 1
      drops := h.drops + dropsOf object }
    h.reallocate bytes 0
  | _ => h

def changeSlot (f : Object → Object) (slot : Slot) : Slot :=
  { slot with object := slot.object.map f }

/-- Changes an object without counting its size again. -/
def modify (h : Heap) (r : Handle) (f : Object → Object) : Heap :=
  { h with slots := h.slots.modify r.index.toNat fun slot =>
      if slot.generation = r.generation then changeSlot f slot else slot }

/-- Brings the count of a slot's bytes up to date. -/
def recount (h : Heap) (r : Handle) : Heap :=
  match h.slot? r with
  | some ⟨_, old, some object⟩ =>
    let new := UInt64.ofNat object.bytes
    if new = old then h
    else
      let h := { h with
        slots := h.slots.modify r.index.toNat fun slot => { slot with bytes := new } }
      h.reallocate old new
  | _ => h

/-- Changes an object and counts its size; a stale handle changes nothing. -/
def update (h : Heap) (r : Handle) (f : Object → Object) : Heap := (h.modify r f).recount r

/-- The kind of an object, for a value that has one. -/
def kindOf? (h : Heap) (v : Value) : Option Kind :=
  (v.toHandle?.bind h.get?).map Object.kind

def typeName (h : Heap) (v : Value) : String :=
  match h.kindOf? v with
  | some kind => kind.name
  | none => v.scalarKind

/-! ## Texts -/

def findText? (h : Heap) (s : String) : Option Handle := h.texts.find? s

/-- The handle of a text, which is put into the heap on its first use. -/
def intern (h : Heap) (s : String) : Heap × Handle :=
  match h.findText? s with
  | some r => (h, r)
  | none =>
    let (h, r) := h.alloc (.text s)
    ({ h with texts := h.texts.insert s r }, r)

def text (h : Heap) (r : Handle) : Except Fault String :=
  match h.get r with
  | .error fault => .error fault
  | .ok o =>
    match o.body with
    | .text s => .ok s
    | body => .error (.typeMismatch "string access" "string" body.kind.name)

def textOf? (h : Heap) (v : Value) : Option String :=
  match v.toHandle? with
  | some r => (h.text r).toOption
  | none => none

/-- The text of a name for a message. -/
def nameText (h : Heap) (r : Handle) (unknown : String) : String :=
  match h.text r with
  | .ok s => s
  | .error _ => unknown

/-! ## Objects of one kind -/

def array (h : Heap) (r : Handle) : Except Fault (Array Value) :=
  match h.get r with
  | .error fault => .error fault
  | .ok o =>
    match o.body with
    | .array items => .ok items
    | body => .error (.typeMismatch "array access" "array" body.kind.name)

def arrayOf? (h : Heap) (v : Value) : Option (Array Value) :=
  match v.toHandle? with
  | some r => (h.array r).toOption
  | none => none

def span (h : Heap) (r : Handle) : Except Fault Span :=
  match h.get r with
  | .error fault => .error fault
  | .ok o =>
    match o.body with
    | .span s => .ok s
    | body => .error (.typeMismatch "range access" "range" body.kind.name)

def dictionary (h : Heap) (r : Handle) : Except Fault (Table Value Value) :=
  match h.get r with
  | .error fault => .error fault
  | .ok o =>
    match o.body with
    | .dictionary entries => .ok entries
    | body => .error (.typeMismatch "dictionary access" "dictionary" body.kind.name)

def function (h : Heap) (r : Handle) : Except Fault Function :=
  match h.get r with
  | .error fault => .error fault
  | .ok o =>
    match o.body with
    | .function f => .ok f
    | body => .error (.typeMismatch "call" "function" body.kind.name)

def fields (h : Heap) (r : Handle) : Except Fault Members :=
  match h.get r with
  | .error fault => .error fault
  | .ok o =>
    match o.body with
    | .instanceOf _ fields => .ok fields
    | body => .error (.typeMismatch "property access" "instance" body.kind.name)

/-- The name of a module and the module that imported it. -/
def module (h : Heap) (r : Handle) : Except Fault (Handle × Option Handle) :=
  match h.get r with
  | .error fault => .error fault
  | .ok o =>
    match o.body with
    | .module name caller => .ok (name, caller)
    | body => .error (.typeMismatch "module access" "module" body.kind.name)

def withMembers (members : Members) (o : Object) : Object := { o with members }

def insertMember (name : Handle) (v : Value) (o : Object) : Object :=
  { o with members := o.members.insert name v }

def changeArray (f : Array Value → Array Value) (o : Object) : Object :=
  match o with
  | ⟨marked, members, .array items⟩ => ⟨marked, members, .array (f items)⟩
  | o => o

def changeDictionary (f : Table Value Value → Table Value Value) (o : Object) : Object :=
  match o with
  | ⟨marked, members, .dictionary entries⟩ => ⟨marked, members, .dictionary (f entries)⟩
  | o => o

def changeFields (f : Members → Members) (o : Object) : Object :=
  match o with
  | ⟨marked, members, .instanceOf cls fields⟩ => ⟨marked, members, .instanceOf cls (f fields)⟩
  | o => o

/-! ## Actions -/

/-- What changes a heap and may fail. -/
abbrev Act (α : Type) := EStateM Fault Heap α

@[inline] def run {α : Type} (f : Heap → Heap × α) : Act α := fun h =>
  let (h, a) := f h
  .ok a h

/-- Changes an object that must be live. -/
def change (r : Handle) (f : Object → Object) : Act Unit := fun h =>
  if h.isLive r then .ok () (h.update r f) else .error .dangling h

/-- A new instance, with the members that the class has at this moment. -/
def newInstance (cls : Handle) : Act Handle := do
  let o ← (← get).get cls
  let r ← run (·.alloc (.instanceOf cls .empty))
  change r (withMembers o.members)
  return r

def pushItem (r : Handle) (v : Value) : Act Unit := do
  match (← (← get).get r).kind with
  | .array => change r (changeArray (·.push v))
  | kind => throw (.typeMismatch "append" "array" kind.name)

/-! ## All objects -/

/-- The handles of all objects, in the order of their slots. -/
def handles (h : Heap) : List Handle :=
  (List.range h.slots.size).filterMap fun i =>
    h.slots[i]?.bind fun slot =>
      slot.object.map fun _ => ⟨UInt32.ofNat i, slot.generation⟩

theorem mem_handles_of_isLive {h : Heap} {r : Handle} (hr : h.isLive r) : r ∈ h.handles := by
  obtain ⟨o, ho⟩ := Option.isSome_iff_exists.mp hr
  obtain ⟨slot, hslot, hobject⟩ := Option.bind_eq_some_iff.mp ho
  simp only [slot?] at hslot
  split at hslot
  · rename_i slot' hs
    split at hslot
    · rename_i hg
      cases hslot
      obtain ⟨hi, -⟩ := Array.getElem?_eq_some_iff.mp hs
      refine List.mem_filterMap.mpr ⟨r.index.toNat, List.mem_range.mpr hi, ?_⟩
      simp [hs, hobject, hg]
    · cases hslot
  · cases hslot

/-- A search that marks what it has met comes to an end. -/
theorem length_filter_lt {α : Type} {p q : α → Bool} {l : List α} (hle : ∀ a, p a → q a) {a : α}
    (ha : a ∈ l) (hq : q a) (hp : ¬ p a) : (l.filter p).length < (l.filter q).length := by
  have hfilter : l.filter p = (l.filter q).filter p := by
    rw [List.filter_filter]
    refine List.filter_congr fun b _ => ?_
    by_cases hb : p b <;> simp [hb, hle]
  rw [hfilter]
  refine List.length_filter_lt_length_iff_exists.mpr ⟨a, ?_, hp⟩
  exact List.mem_filter.mpr ⟨ha, hq⟩

end Heap

end FiberMachine
