import FiberMachine.Proofs.Heap.Collection
import FiberMachine.Proofs.Machine.Effects

/-!
# Growth

A heap never gives slots back, so a bound on the slots at the end of an action holds
all through it, and the heap stays well-formed below it.
-/

namespace FiberMachine

open Relation (ReflTransGen)

namespace Heap

theorem text_plain (f : Object → Object) [hf : Plain f] (o : Object) (s : String) :
    (f o).body = .text s ↔ o.body = .text s := by
  refine ⟨fun h => ?_, hf.text o s⟩
  have hkind : o.body.kind = .text := by
    have hk := hf.kind o
    simpa [Object.kind, h, Body.kind] using hk.symm
  cases ho : o.body with
  | text t =>
    have ht := hf.text o t ho
    rw [h] at ht
    exact ht.symm
  | _ => simp [ho, Body.kind] at hkind

theorem Move.size_le {h h' : Heap} (hm : Move h h') : h.slots.size ≤ h'.slots.size := by
  cases hm with
  | intern s => exact size_le_intern h s
  | alloc _ _ => exact size_le_alloc h _
  | update r f => exact Nat.le_of_eq (size_update h r f).symm

theorem Move.wellFormed {h h' : Heap} (hm : Move h h') (hw : h.WellFormed)
    (hfit : h'.slots.size ≤ slotLimit) : h'.WellFormed := by
  cases hm with
  | intern s => exact hw.intern hfit
  | alloc ht hf =>
    refine hw.alloc (fun s hb => ht ?_) hfit
    rw [hb]
    rfl
  | update r f => exact hw.update (fun o _ => Plain.marked o) fun o _ s => text_plain f o s

theorem row_size_le {h h' : Heap} (hr : ReflTransGen Move h h') :
    h.slots.size ≤ h'.slots.size := by
  induction hr with
  | refl => exact Nat.le_refl _
  | tail _ hm ih => exact Nat.le_trans ih hm.size_le

theorem size_le_ofJson (h : Heap) (j : JsonValue) : h.slots.size ≤ (ofJson h j).1.slots.size :=
  row_size_le (row_ofJson h j)

theorem size_le_ofJsonItems (h : Heap) (items : List JsonValue) :
    h.slots.size ≤ (ofJsonItems h items).1.slots.size :=
  row_size_le (row_ofJsonItems h items)

theorem size_le_ofJsonEntries (h : Heap) (r : Handle) (entries : List (String × JsonValue)) :
    h.slots.size ≤ (ofJsonEntries h r entries).slots.size :=
  row_size_le (row_ofJsonEntries h r entries)

theorem row_wellFormed {h h' : Heap} (hr : ReflTransGen Move h h') (hw : h.WellFormed)
    (hfit : h'.slots.size ≤ slotLimit) : h'.WellFormed := by
  induction hr with
  | refl => exact hw
  | tail _ hm ih => exact hm.wellFormed (ih (Nat.le_trans hm.size_le hfit)) hfit

end Heap

namespace Machine

/-- The number of slots in the heap of a machine. -/
def room (m : Machine) : Nat := m.heap.slots.size

/-- The heap grows and stays well-formed as long as its slots can be told apart. -/
structure Tends (m m' : Machine) : Prop where
  room_le : m.room ≤ m'.room
  wellFormed : m.heap.WellFormed → m'.room ≤ Heap.slotLimit → m'.heap.WellFormed

theorem Tends.refl (m : Machine) : Tends m m := ⟨Nat.le_refl _, fun hw _ => hw⟩

theorem Tends.of_heap_eq {m m' : Machine} (h : m'.heap = m.heap) : Tends m m' :=
  ⟨by simp only [room, h, Nat.le_refl], fun hw _ => h ▸ hw⟩

theorem Tends.trans {m m' m'' : Machine} (ha : Tends m m') (hb : Tends m' m'') : Tends m m'' :=
  ⟨Nat.le_trans ha.room_le hb.room_le,
    fun hw hfit => hb.wellFormed (ha.wellFormed hw (Nat.le_trans hb.room_le hfit)) hfit⟩

theorem Move.tends {m m' : Machine} (hm : Move m m') : Tends m m' := by
  cases hm with
  | heap hh => exact ⟨hh.size_le, hh.wellFormed⟩
  | work hh _ => exact .of_heap_eq hh

theorem tends_of_row {m m' : Machine} (hr : ReflTransGen Tends m m') : Tends m m' := by
  induction hr with
  | refl => exact .refl _
  | tail _ hm ih => exact ih.trans hm

theorem tends_after {α : Type} (x : Act α) [hx : Makes Tends x] (m : Machine) :
    Tends m (after x m) := tends_of_row (hx.row m)

theorem room_le_of_row {m m' : Machine} (hr : ReflTransGen Move m m') : m.room ≤ m'.room :=
  (tends_of_row (ReflTransGen.mono (fun _ _ => Move.tends) _ _ hr)).room_le

theorem room_le_after {α : Type} (x : Act α) [Makes Tends x] (m : Machine) :
    m.room ≤ (after x m).room := (tends_after x m).room_le

instance (priority := low) {α : Type} (x : Act α) [hx : Makes Move x] : Makes Tends x :=
  hx.mono fun _ _ => Move.tends

theorem marked_withFiber (b : Option Fiber) (o : Object) : (withFiber b o).marked = o.marked := by
  simp only [withFiber]
  split <;> rfl

theorem text_withFiber (b : Option Fiber) (o : Object) (s : String) :
    (withFiber b o).body = .text s ↔ o.body = .text s := by
  simp only [withFiber]
  split
  · rename_i h
    simp [h]
  · rfl

theorem wellFormed_withFiber {h : Heap} (hw : h.WellFormed) (r : Handle) (b : Option Fiber) :
    (h.update r (withFiber b)).WellFormed :=
  hw.update (fun o _ => marked_withFiber b o) fun o _ s => text_withFiber b o s

theorem change_tends {r : Handle} {f : Object → Object} {m : Machine}
    (hw : m.heap.WellFormed → (m.heap.update r f).WellFormed) : Tends m (after (change r f) m) := by
  simp only [after, change_apply]
  by_cases hr : m.heap.isLive r
  · simp only [hr, ↓reduceIte]
    exact ⟨Nat.le_of_eq (Heap.size_update ..).symm, fun h _ => hw h⟩
  · simp only [hr, Bool.false_eq_true, ↓reduceIte]
    exact .refl m

instance (r : Handle) (b : Option Fiber) : Makes Tends (change r (withFiber b)) :=
  .single fun _ => change_tends fun hw => wellFormed_withFiber hw r b

instance (b : Option Fiber) : Makes Tends (alloc (.fiber b)) :=
  .single fun m => ⟨Heap.size_le_alloc m.heap _, fun hw hfit => hw.alloc (by simp) hfit⟩

instance (g : Fiber → Fiber) : Makes Tends (changeFiber g) := by
  refine .single fun m => ?_
  simp only [after, changeFiber]
  cases m.running <;> exact .of_heap_eq rfl

instance (running : Machine → Option Running) (root : Machine → Option Handle)
    (loading ready : Machine → List Handle) (events : Machine → List Event)
    (timers : Machine → Timers) :
    Makes Tends (modify fun m : Machine => { m with
      running := running m, root := root m, loading := loading m, ready := ready m
      events := events m, timers := timers m }) :=
  .single fun _ => .of_heap_eq rfl

instance (id : Handle) : Makes Tends (enter id) := by
  unfold enter
  exact .parts

instance (state : FiberState) : Makes Tends (leave state) := by
  unfold leave
  exact .parts

instance (kind : FiberKind) (function : Handle) (args : List Value)
    (caller module : Option Handle) : Makes Tends (newFiber kind function args caller module) := by
  unfold newFiber
  exact .parts

/-! ## Collections -/

/-- The machine after a collection. -/
def collected (m : Machine) : Machine := { m with heap := (m.heap.collect m.roots).1 }

theorem collect_apply (m : Machine) :
    Machine.collect m = .ok (m.heap.collect m.roots).2 m.collected := rfl

theorem room_collected (m : Machine) : m.collected.room = m.room := Heap.size_collect ..

theorem tends_collected (m : Machine) : Tends m m.collected :=
  ⟨Nat.le_of_eq (room_collected m).symm, fun hw _ => hw.collect _⟩

instance : Makes Tends Machine.collect := .single tends_collected

instance : Makes SameRunning Machine.collect :=
  .single fun m => by simp only [SameRunning, after, collect_apply, collected]

/-! ## Effects -/

theorem Effect.tends {m m' : Machine} (he : Effect Tends m m') : Tends m m' := by
  cases he with
  | steady hs => exact hs.move.tends
  | queues hh _ _ => exact .of_heap_eq hh
  | link caller => exact tends_after _ m
  | leave state => exact tends_after _ m
  | enter id => exact tends_after _ m
  | newFiber kind function args caller module => exact tends_after _ m
  | pushFrame _ _ => exact tends_after _ m
  | collect => exact tends_collected m
  | host h => exact h

instance (priority := low) {α : Type} (x : Act α) [hx : Makes (Effect Tends) x] : Makes Tends x :=
  hx.mono fun _ _ => Effect.tends

end Machine
end FiberMachine
