import FiberMachine.Proofs.Machine.Provenance

/-!
# Views of objects

A view bears a part of an object. What builds objects leaves all views as they are of those that
were there before, and a change bears only in the views of what it changes. So what an action does
to a view is said once for all views that do not show what machines write all the time: items,
fields, data of the host and fibers.
-/

namespace FiberMachine

open Relation (ReflTransGen)

namespace Heap

variable {α β : Type} {view : Object → β} {h h₁ h' : Heap} {r : Handle}

/-- What a view bears of an object that is there. -/
def seen (view : Object → β) (h : Heap) (r : Handle) : Option β := (h.get? r).map view

theorem seen_eq_some {c : β} : h.seen view r = some c ↔ ∃ o, h.get? r = some o ∧ view o = c :=
  Option.map_eq_some_iff

theorem seen_of_get? {o : Object} (ho : h.get? r = some o) : h.seen view r = some (view o) :=
  seen_eq_some.mpr ⟨o, ho, rfl⟩

/-- A change that a view does not show. -/
class Hidden (view : Object → β) (f : Object → Object) : Prop where
  same : ∀ o, view (f o) = view o

/-- A view that bears neither items nor fields, no data of the host and nothing of a fiber. -/
class Coarse (view : Object → β) : Prop where
  items : ∀ f, Hidden view (changeArray f)
  fields : ∀ f, Hidden view (changeFields f)
  userData : ∀ f, Hidden view (Machine.changeUserData f)
  fiber : ∀ b, Hidden view (Machine.withFiber b)

instance [hv : Coarse view] (f : Array Value → Array Value) : Hidden view (changeArray f) := hv.items f

instance [hv : Coarse view] (f : Members → Members) : Hidden view (changeFields f) := hv.fields f

instance [hv : Coarse view] (f : UserData → UserData) : Hidden view (Machine.changeUserData f) :=
  hv.userData f

instance [hv : Coarse view] (b : Option Fiber) : Hidden view (Machine.withFiber b) := hv.fiber b

theorem seen_update (r s : Handle) {f : Object → Object}
    (hf : ∀ o, h.get? r = some o → view (f o) = view o) :
    (h.update r f).seen view s = h.seen view s := by
  simp only [seen, get?_update]
  split
  · rename_i hs
    rw [hs, Option.map_map]
    exact Option.map_congr fun o ho => hf o ho
  · rfl

theorem seen_update_ne {s : Handle} (f : Object → Object) (hs : s ≠ r) :
    (h.update r f).seen view s = h.seen view s := by
  simp only [seen, get?_update, if_neg hs]

/-- The objects that are there stay, and no view of them changes. -/
def Bears (view : Object → β) (h h' : Heap) : Prop :=
  ∀ r c, h.seen view r = some c → h'.seen view r = some c

theorem Bears.trans (hs : Bears view h h₁) (hs' : Bears view h₁ h') : Bears view h h' :=
  fun r c hc => hs' r c (hs r c hc)

theorem Remains.bears (hr : Remains h h') : Bears view h h' := by
  intro r c hc
  obtain ⟨o, ho, rfl⟩ := seen_eq_some.mp hc
  exact seen_of_get? (hr r o ho)

/-- An object that is new may be changed. -/
theorem Bears.update (hs : Bears view h h₁) (hnew : h.get? r = none) (f : Object → Object) :
    Bears view h (h₁.update r f) := by
  intro s c hc
  rw [seen_update_ne f fun hr => by simp [hr, seen, hnew] at hc]
  exact hs s c hc

variable (view) in
/-- A heap grows, and all views of its objects stay as they are. -/
structure Upholds (h h' : Heap) : Prop where
  size_le : h.slots.size ≤ h'.slots.size
  wellFormed : h.WellFormed → h'.slots.size ≤ slotLimit → h'.WellFormed
  bears : h.WellFormed → h'.slots.size ≤ slotLimit → Bears view h h'

namespace Upholds

theorem refl (h : Heap) : Upholds view h h := ⟨Nat.le_refl _, fun hw _ => hw, fun _ _ _ _ => id⟩

theorem trans (hu : Upholds view h h₁) (hu' : Upholds view h₁ h') : Upholds view h h' where
  size_le := hu.size_le.trans hu'.size_le
  wellFormed hw hfit := hu'.wellFormed (hu.wellFormed hw (hu'.size_le.trans hfit)) hfit
  bears hw hfit := by
    have hfit₁ := hu'.size_le.trans hfit
    exact (hu.bears hw hfit₁).trans (hu'.bears (hu.wellFormed hw hfit₁) hfit)

instance : IsPreorder Heap (Upholds view) where
  refl := refl
  trans _ _ _ := trans

theorem of_row (hr : ReflTransGen Move h h')
    (hs : h.WellFormed → h'.slots.size ≤ slotLimit → Bears view h h') : Upholds view h h' :=
  ⟨row_size_le hr, row_wellFormed hr, hs⟩

/-- A change may depend on what the object is. -/
theorem of_update {f : Object → Object} [Plain f]
    (hf : ∀ o, h.get? r = some o → view (f o) = view o) : Upholds view h (h.update r f) :=
  .of_row (.single (.update h r f)) fun _ _ s _ hc => (seen_update r s hf).trans hc

theorem intern (h : Heap) (s : String) : Upholds view h (h.intern s).1 :=
  .of_row (.single (.intern h s)) fun hw hfit => (Remains.intern hw.toArena s hfit).bears

theorem alloc (h : Heap) {b : Body} (ht : b.kind ≠ .text) : Upholds view h (h.alloc b).1 where
  size_le := size_le_alloc h b
  wellFormed hw := hw.alloc fun _ hs => ht (hs ▸ rfl)
  bears hw hfit := (Remains.alloc hw.toArena b hfit).bears

/-- What is new may be changed, whatever else has been made since. -/
theorem update_new (hu : Upholds view h h₁)
    (hnew : h.WellFormed → h₁.slots.size ≤ slotLimit → h.get? r = none) (f : Object → Object)
    [Plain f] : Upholds view h (h₁.update r f) where
  size_le := hu.size_le.trans (Nat.le_of_eq (size_update ..).symm)
  wellFormed hw hfit := by
    rw [size_update] at hfit
    exact (Move.update h₁ r f).wellFormed (hu.wellFormed hw hfit) ((size_update ..).trans_le hfit)
  bears hw hfit := by
    rw [size_update] at hfit
    exact (hu.bears hw hfit).update (hnew hw hfit) f

end Upholds

theorem get?_alloc_snd {b : Body} (hw : h.WellFormed)
    (hfit : (h.alloc b).1.slots.size ≤ slotLimit) : h.get? (h.alloc b).2 = none :=
  (alloc_allocated hw.toArena b hfit).fresh

/-! ## Actions on the heap -/

instance (s : String) : Makes (Upholds view) (run (·.intern s)) := .single fun h => .intern h s

theorem upholds_alloc {b : Body} (ht : b.kind ≠ .text) : Makes (Upholds view) (run (·.alloc b)) :=
  .single fun h => .alloc h ht

instance (items : Array Value) : Makes (Upholds view) (run (·.alloc (.array items))) :=
  upholds_alloc nofun

instance (span : Span) : Makes (Upholds view) (run (·.alloc (.span span))) := upholds_alloc nofun

instance (r : Handle) (f : Object → Object) [Plain f] [hf : Hidden view f] :
    Makes (Upholds view) (change r f) := by
  refine .single fun h => ?_
  simp only [after, change]
  by_cases hr : h.isLive r <;> simp only [hr, ↓reduceIte, Bool.false_eq_true]
  · exact .of_update fun o _ => hf.same o
  · exact .refl h

instance (cls : Handle) : Makes (Upholds view) (newInstance cls) := by
  unfold newInstance
  refine .bind .get fun _ => .bind (.except _) fun o => ⟨fun h => ?_⟩
  rw [after_bind]
  simp only [run, after_bind, change]
  split
  · rename_i heq
    split at heq <;> cases heq
    have hmade : Upholds view h (h.alloc (.instanceOf cls .empty)).1 := .alloc h nofun
    exact .single (hmade.update_new get?_alloc_snd _)
  · rename_i heq
    split at heq <;> cases heq
    exact .single (.alloc h nofun)

instance (index : Value) (b : Body) : Makes (Upholds view) (itemOf index b) := by
  unfold itemOf
  exact .parts

instance (target index : Value) : Makes (Upholds view) (item target index) := by
  unfold item
  exact .parts

instance (target start stop : Value) : Makes (Upholds view) (slice target start stop) := by
  unfold slice
  exact .parts

instance (module : Option Handle) (p : Prototype) : Makes (Upholds view) (run (·.load module p)) :=
  .single fun h => .of_row (row_load module h p) fun hw hfit =>
    (row_brings (brings_load h p) hw hfit).remains.bears

mutual

theorem upholds_ofJson (g : Heap) : ∀ j, Upholds view g (ofJson g j).1
  | .null | .bool _ | .number _ => .refl g
  | .text s => .intern g s
  | .array items => (upholds_ofJsonItems g items).trans (.alloc _ nofun)
  | .object entries =>
    upholds_ofJsonEntries _ (.alloc g (b := .dictionary .empty) nofun) get?_alloc_snd entries

theorem upholds_ofJsonItems (g : Heap) : ∀ js, Upholds view g (ofJsonItems g js).1
  | [] => .refl g
  | j :: rest => (upholds_ofJson g j).trans (upholds_ofJsonItems _ rest)

/-- The dictionary that is filled is new. -/
theorem upholds_ofJsonEntries {g : Heap} (g₁ : Heap) {s : Handle} (hu : Upholds view g g₁)
    (hnew : g.WellFormed → g₁.slots.size ≤ slotLimit → g.get? s = none) :
    ∀ js, Upholds view g (ofJsonEntries g₁ s js)
  | [] => hu
  | (key, j) :: rest => by
    have hmade := (Upholds.intern g₁ key).trans (upholds_ofJson _ j)
    have hstill : g.WellFormed → (ofJson (g₁.intern key).1 j).1.slots.size ≤ slotLimit →
        g.get? s = none := fun hw hfit => hnew hw (hmade.size_le.trans hfit)
    refine upholds_ofJsonEntries _ ((hu.trans hmade).update_new hstill _) ?_ rest
    rw [size_update]
    exact hstill

end

instance (j : JsonValue) : Makes (Upholds view) (run (·.ofJson j)) :=
  .single fun h => upholds_ofJson h j

section

variable [Coarse view]

instance (r : Handle) (v : Value) : Makes (Upholds view) (pushItem r v) := by
  unfold pushItem
  exact .parts

instance (a b : Value) : Makes (Upholds view) (append a b) := by
  unfold append
  exact .parts

instance (a b : Value) : Makes (Upholds view) (sum a b) := by
  unfold sum
  exact .parts

instance [∀ f, Hidden view (changeDictionary f)] (target index v : Value) :
    Makes (Upholds view) (setItem target index v) := by
  unfold setItem
  split
  · infer_instance
  · refine .bind .get fun h => .bind (.except _) fun o => .bind_except fun f hf => ?_
    obtain ⟨g, rfl⟩ | ⟨g, rfl⟩ := itemChange_eq_ok hf <;> infer_instance

end

end Heap

/-! ## Built-in functions -/

namespace NativeCall

open Heap (Upholds Hidden Coarse)

variable {β : Type} {view : Object → β} (c : NativeCall)

instance : Makes (Upholds view) c.arrayLength := by
  unfold arrayLength
  exact .parts

instance : Makes (Upholds view) c.spanExpand := by
  unfold spanExpand
  exact .parts

instance : Makes (Upholds view) c.spanStep := by
  unfold spanStep
  exact .parts

instance : Makes (Upholds view) c.dictGet := by
  unfold dictGet
  exact .parts

instance : Makes (Upholds view) c.dictHas := by
  unfold dictHas
  exact .parts

instance : Makes (Upholds view) c.dictSize := by
  unfold dictSize
  exact .parts

instance : Makes (Upholds view) c.dictKeys := by
  unfold dictKeys
  exact .parts

instance : Makes (Upholds view) c.textLength := by
  unfold textLength
  exact .parts

instance (lib : JsonLibrary) : Makes (Upholds view) (c.jsonParse lib) := by
  unfold jsonParse
  exact .parts

instance (lib : JsonLibrary) : Makes (Upholds view) (c.jsonStringify lib) := by
  unfold jsonStringify
  exact .parts

section

variable [Coarse view]

instance : Makes (Upholds view) c.arrayAppend := by
  unfold arrayAppend
  exact .parts

instance : Makes (Upholds view) c.arrayPop := by
  unfold arrayPop
  exact .parts

variable [∀ f, Hidden view (Heap.changeDictionary f)]

instance : Makes (Upholds view) c.dictPut := by
  unfold dictPut
  exact .parts

instance : Makes (Upholds view) c.dictRemove := by
  unfold dictRemove
  exact .parts

end

end NativeCall

end FiberMachine
