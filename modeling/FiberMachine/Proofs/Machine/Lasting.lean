import FiberMachine.Proofs.Machine.Contents
import FiberMachine.Proofs.Machine.Upkeep

/-!
# What a machine does with texts and dictionaries

Work with operands, frames and fibers leaves all texts and dictionaries as they are. What
builds objects retains those that are there, and a collection takes some of them away. Only a
subscript that is written and two of the built-in functions change a dictionary.
-/

namespace FiberMachine

namespace Machine

variable {α : Type} {m m₁ m' : Machine}

/-- The texts and the dictionaries are the same. -/
structure Stands (m m' : Machine) : Prop where
  room : m'.room = m.room
  wellFormed : m.heap.WellFormed → m'.heap.WellFormed
  contents : ∀ r, m'.heap.contents? r = m.heap.contents? r

/-- The texts and dictionaries that are there stay as they are. -/
def Lasts (m m' : Machine) : Prop := Heap.Lasts m.heap m'.heap

/-- The texts and dictionaries that are left are as they were. -/
structure Loses (m m' : Machine) : Prop extends Tends m m' where
  retains : m.heap.WellFormed → m'.room ≤ Heap.slotLimit → Heap.Retains m'.heap m.heap

/-- A text or a dictionary that is there before and afterwards is the same. -/
structure Persists (m m' : Machine) : Prop extends Tends m m' where
  agrees : m.heap.WellFormed → m'.room ≤ Heap.slotLimit → Heap.Agrees m.heap m'.heap

theorem lasts_iff : Lasts m m' ↔ Upholds Object.contents? m m' := Heap.lasts_iff

theorem persists_iff : Persists m m' ↔ Honours Object.contents? m m' :=
  ⟨fun ⟨ht, ha⟩ => ⟨ht, ha⟩, fun ⟨ht, hs⟩ => ⟨ht, hs⟩⟩

theorem Stands.of_eq (hh : m'.heap = m.heap) : Stands m m' where
  room := congrArg (·.slots.size) hh
  wellFormed hw := hh ▸ hw
  contents _ := by rw [hh]

theorem Stands.lasts (h : Stands m m') : Lasts m m' where
  size_le := Nat.le_of_eq h.room.symm
  wellFormed hw _ := h.wellFormed hw
  retains _ _ r _ hc := (h.contents r).trans hc

instance : IsPreorder Machine Lasts where
  refl m := Heap.Lasts.refl m.heap
  trans _ _ _ h h' := Heap.Lasts.trans h h'

theorem Lasts.persists (h : Lasts m m') : Persists m m' := persists_iff.mpr (lasts_iff.mp h).honours

theorem Loses.persists (h : Loses m m') : Persists m m' :=
  persists_iff.mpr (Wanes.honours ⟨h.toTends, h.retains⟩)

/-- What is there must have been there in the middle, too. -/
theorem Lasts.then (h : Lasts m m₁) (h' : Persists m₁ m') : Persists m m' :=
  persists_iff.mpr ((lasts_iff.mp h).then (persists_iff.mp h'))

theorem Persists.of_eq (hh : m'.heap = m.heap) : Persists m m' := (Stands.of_eq hh).lasts.persists

theorem Persists.congr (h : Persists m m₁) (hh : m'.heap = m₁.heap) : Persists m m' :=
  persists_iff.mpr ((persists_iff.mp h).then (.of_eq hh))

theorem Spared.persists (hs : Spared m m') (ht : Tends m m') : Persists m m' :=
  persists_iff.mpr (hs.honours ht)

/-! ## Actions -/

instance (priority := low) (x : Act α) [hx : Makes (Upholds Object.contents?) x] : Makes Lasts x :=
  hx.mono fun _ _ => lasts_iff.mpr

theorem lasts_after (x : Act α) [hx : Makes Lasts x] (m : Machine) : Lasts m (after x m) :=
  hx.preorder m

theorem loses_after (x : Act α) [hx : Makes (Wanes Object.contents?) x] (m : Machine) :
    Loses m (after x m) := by
  have hwanes : Wanes Object.contents? m (after x m) := wanes_after x m
  exact ⟨hwanes.toTends, hwanes.bears⟩

/-- Only three instructions may change a dictionary. -/
theorem lasts_execute {host : HostFunctions} {op : Opcode} (hop : op ≠ .subscriptWrite)
    (hcall : op ≠ .call ∧ op ≠ .invoke) : Makes Lasts (execute host op) := by
  have : Makes (Upholds Object.contents?) (collections op) := upholds_collections hop
  unfold execute
  cases op with
  | call => exact absurd rfl hcall.1
  | invoke => exact absurd rfl hcall.2
  | subscriptWrite => exact absurd rfl hop
  | _ => infer_instance

/-- Only two built-in functions may change a dictionary. -/
theorem lasts_builtin {b : Builtin} (hput : b ≠ .dictPut) (hremove : b ≠ .dictRemove)
    (args : List Value) : Makes Lasts (b.run args) :=
  (upholds_builtin hput hremove args).mono fun _ _ => lasts_iff.mpr

/-- All texts and dictionaries persist when the host calls, unless it runs a built-in function. -/
theorem HostCall.persists (h : HostCall m m') (hb : ∀ (b : Builtin) args,
    (∀ v ∈ args, m.heap.Keeps v) → m' ≠ after (b.run args) m) : Persists m m' := by
  cases h with
  | collect => exact (loses_after Machine.collect m).persists
  | builtin b hargs => exact absurd rfl (hb b _ hargs)
  | addModule | withHost | advance | post => exact .of_eq rfl
  | _ => exact (lasts_after _ m).persists

end Machine

end FiberMachine
