import FiberMachine.Heap.Basic

/-!
# Collection

A collection marks what the roots reach, forgets the texts without a mark,
empties the slots without a mark and takes the marks away. Marking ends because
an object is put on the list of things to follow only when it gets its mark.
-/

namespace FiberMachine

namespace Heap

def isMarked (h : Heap) (r : Handle) : Bool :=
  match h.get? r with
  | some o => o.marked
  | none => false

def setMark (o : Object) : Object := { o with marked := true }

def clearMark (o : Object) : Object := { o with marked := false }

/-- Marks an object that has no mark yet and lists it as to be followed. -/
def mark (state : Heap × List Handle) (r : Handle) : Heap × List Handle :=
  let (h, grey) := state
  match h.get? r with
  | some o => if o.marked then (h, grey) else (h.modify r setMark, r :: grey)
  | none => (h, grey)

def lacksMark (slot : Slot) : Bool :=
  match slot.object with
  | some o => !o.marked
  | none => false

/-- The number of objects that have no mark yet. -/
def unmarked (h : Heap) : Nat := h.slots.countP lacksMark

theorem get?_eq_some_iff {h : Heap} {r : Handle} {o : Object} :
    h.get? r = some o ↔ ∃ slot, h.slots[r.index.toNat]? = some slot ∧
      slot.generation = r.generation ∧ slot.object = some o := by
  simp only [get?, slot?]
  cases h.slots[r.index.toNat]? with
  | none => simp
  | some slot => by_cases hg : slot.generation = r.generation <;> simp [hg]

theorem unmarked_modify_setMark {h : Heap} {r : Handle} {o : Object} (ho : h.get? r = some o)
    (hm : o.marked = false) : (h.modify r setMark).unmarked + 1 = h.unmarked := by
  obtain ⟨slot, hs, hg, hb⟩ := get?_eq_some_iff.mp ho
  obtain ⟨hi, rfl⟩ := Array.getElem?_eq_some_iff.mp hs
  have hset : (h.modify r setMark).slots =
      h.slots.set r.index.toNat (changeSlot setMark h.slots[r.index.toNat]) := by
    apply Array.ext
    · simp [modify]
    · intro i _ _
      simp only [modify, Array.getElem_modify, Array.getElem_set]
      split <;> simp_all
  have hpos : 0 < h.slots.countP lacksMark :=
    Array.countP_pos_iff.mpr ⟨_, Array.getElem_mem hi, by simp [lacksMark, hb, hm]⟩
  simp only [unmarked, hset, Array.countP_set hi]
  simp only [lacksMark, changeSlot, setMark, hb, hm, Option.map_some, Bool.not_true, Bool.not_false,
    Bool.false_eq_true, ↓reduceIte]
  omega

/-- What is listed and what may still be listed only shrinks when something is taken
from the list. -/
theorem mark_measure (state : Heap × List Handle) (r : Handle) :
    (mark state r).1.unmarked + (mark state r).2.length =
      state.1.unmarked + state.2.length := by
  obtain ⟨h, grey⟩ := state
  simp only [mark]
  cases ho : h.get? r with
  | none => rfl
  | some o =>
    by_cases hm : o.marked
    · simp [hm]
    · have := unmarked_modify_setMark ho (by simpa using hm)
      simp only [hm, Bool.false_eq_true, ↓reduceIte, List.length_cons]
      omega

theorem foldl_mark_measure (references : List Handle) (state : Heap × List Handle) :
    (references.foldl mark state).1.unmarked + (references.foldl mark state).2.length =
      state.1.unmarked + state.2.length := by
  induction references generalizing state with
  | nil => rfl
  | cons r rest ih => rw [List.foldl_cons, ih, mark_measure]

def followed (h : Heap) (r : Handle) : List Handle :=
  match h.get? r with
  | some o => o.references
  | none => []

/-- Follows the listed objects, each with all its references. -/
def trace (h : Heap) (grey : List Handle) : Heap :=
  match grey with
  | [] => h
  | r :: rest =>
    let state := (h.followed r).foldl mark (h, rest)
    trace state.1 state.2
termination_by h.unmarked + grey.length
decreasing_by
  rw [foldl_mark_measure]
  simp

def markFrom (h : Heap) (roots : List Handle) : Heap :=
  let state := roots.foldl mark (h, [])
  trace state.1 state.2

def forgetTexts (h : Heap) : Heap :=
  { h with texts := h.texts.filter fun _ r => h.isMarked r }

/-- Clears the mark of a slot's object, or empties the slot and counts it if there is no mark. -/
def sweepSlot (state : Heap × Nat) (i : Nat) : Heap × Nat :=
  let (h, freed) := state
  match h.slots[i]? with
  | some ⟨generation, _, some o⟩ =>
    if o.marked then ({ h with slots := h.slots.modify i (changeSlot clearMark) }, freed)
    else (h.release ⟨UInt32.ofNat i, generation⟩, freed + 1)
  | _ => (h, freed)

/-- Goes through all slots, and tells how many of them it has emptied. -/
def sweep (h : Heap) : Heap × Nat := (List.range h.slots.size).foldl sweepSlot (h, 0)

/-- The bytes that survive set the next threshold. -/
def settle (h : Heap) : Heap :=
  { h with threshold := max (h.bytes * h.growth) h.leastThreshold, pending := false }

structure Stats where
  bytesBefore : UInt64
  bytesAfter : UInt64
  freed : Nat
  live : Nat
  threshold : UInt64
deriving DecidableEq, Repr

def collect (h : Heap) (roots : List Handle) : Heap × Stats :=
  let swept := (h.markFrom roots).forgetTexts.sweep
  let settled := swept.1.settle
  (settled, {
    bytesBefore := h.bytes
    bytesAfter := settled.bytes
    freed := swept.2
    live := settled.count
    threshold := settled.threshold })

end Heap

end FiberMachine
