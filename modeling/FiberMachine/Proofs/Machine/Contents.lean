import FiberMachine.Proofs.Heap.Dictionaries
import FiberMachine.Proofs.Machine.Views

/-!
# What is in texts and dictionaries

A text never changes, and a dictionary changes only where it is asked to. So most of what is
done to a heap leaves both as they are, and what builds objects leaves those as they are that
were there before: what texts and dictionaries hold is a coarse view that shows no members.
-/

namespace FiberMachine

open Relation (ReflTransGen)

/-- What a text says or a dictionary holds. -/
inductive Contents where
  | text (s : String)
  | entries (t : Table Value Value)

def Body.contents? : Body → Option Contents
  | .text s => some (.text s)
  | .dictionary entries => some (.entries entries)
  | _ => none

def Object.contents? (o : Object) : Option Contents := o.body.contents?

namespace Heap

variable {α : Type} {h h₁ h' : Heap} {r d : Handle}

/-- What is in an object that is there, if it is a text or a dictionary. -/
def contents? (h : Heap) (r : Handle) : Option (Option Contents) :=
  (h.get? r).map fun o => o.body.contents?

theorem dictionary_eq_ok_iff {t : Table Value Value} :
    h.dictionary r = .ok t ↔ h.contents? r = some (some (.entries t)) := by
  rw [dictionary_eq_ok, contents?, Option.map_eq_some_iff]
  refine exists_congr fun o => and_congr_right fun _ => ?_
  cases hb : o.body <;> simp [Body.contents?]

theorem text_eq_ok_iff {s : String} : h.text r = .ok s ↔ h.contents? r = some (some (.text s)) := by
  rw [text_eq_ok, contents?, Option.map_eq_some_iff]
  refine exists_congr fun o => and_congr_right fun _ => ?_
  cases hb : o.body <;> simp [Body.contents?]

/-- The objects that are there stay, and their contents do not change. -/
def Retains (h h' : Heap) : Prop := ∀ r c, h.contents? r = some c → h'.contents? r = some c

/-- An object that is there before and afterwards has the same contents. -/
def Agrees (h h' : Heap) : Prop :=
  ∀ r c c', h.contents? r = some c → h'.contents? r = some c' → c' = c

/-- Live keys stand for the same as before. -/
theorem Agrees.key_eq (ha : Agrees h h') {v : Value} (hv : h.Keeps v) (hv' : h'.Keeps v) :
    h'.key v = h.key v := by
  refine key_eq_of_textOf? (Option.ext fun s => ?_)
  rw [textOf?_eq_some, textOf?_eq_some]
  apply exists_congr
  intro r
  apply and_congr_right
  rintro rfl
  obtain ⟨o, ho⟩ := isLive_iff.mp (hv r (Value.toHandle?_ofHandle r))
  obtain ⟨o', ho'⟩ := isLive_iff.mp (hv' r (Value.toHandle?_ofHandle r))
  have hc : h.contents? r = some o.body.contents? := by rw [contents?, ho, Option.map_some]
  have hc' : h'.contents? r = some o'.body.contents? := by rw [contents?, ho', Option.map_some]
  rw [text_eq_ok_iff, text_eq_ok_iff, hc, hc', ha r _ _ hc hc']

/-- A dictionary is the same finite map as before. -/
theorem Agrees.mapping?_eq (ha : Agrees h h') {t : Table Value Value} (ht : h.dictionary d = .ok t)
    (hkeys : ∀ k ∈ t.keys, h.Keeps k) (hd : h'.isLive d)
    (hkeys' : h'.dictionary d = .ok t → ∀ k ∈ t.keys, h'.Keeps k) :
    h'.mapping? d = h.mapping? d := by
  obtain ⟨o, ho⟩ := isLive_iff.mp hd
  have hc' : h'.contents? d = some o.body.contents? := by rw [contents?, ho, Option.map_some]
  have hsame := ha d _ _ (dictionary_eq_ok_iff.mp ht) hc'
  have ht' : h'.dictionary d = .ok t := dictionary_eq_ok_iff.mpr (hc'.trans (congrArg some hsame))
  rw [mapping?_eq_some.mpr ⟨t, ht, rfl⟩]
  refine mapping?_eq_some.mpr ⟨t, ht', mapping_congr fun e he => ?_⟩
  have hk : e.1 ∈ t.keys := List.mem_map_of_mem he
  exact ha.key_eq (hkeys _ hk) (hkeys' ht' _ hk)

/-- A change that leaves texts and dictionaries alone. -/
class Tame (f : Object → Object) : Prop where
  contents : ∀ o, (f o).body.contents? = o.body.contents?

instance (name : Handle) (v : Value) : Tame (insertMember name v) := ⟨fun _ => rfl⟩

instance (f : Array Value → Array Value) : Tame (changeArray f) := by
  constructor
  rintro ⟨marked, members, body⟩
  cases body <;> rfl

instance (f : Members → Members) : Tame (changeFields f) := by
  constructor
  rintro ⟨marked, members, body⟩
  cases body <;> rfl

instance (f : UserData → UserData) : Tame (Machine.changeUserData f) := by
  constructor
  rintro ⟨marked, members, body⟩
  cases body <;> rfl

instance (b : Option Fiber) : Tame (Machine.withFiber b) := by
  constructor
  rintro ⟨marked, members, body⟩
  cases body <;> rfl

theorem hidden_tame {f : Object → Object} [hf : Tame f] : Hidden Object.contents? f := ⟨hf.contents⟩

instance : Coarse Object.contents? where
  items _ := hidden_tame
  fields _ := hidden_tame
  userData _ := hidden_tame
  fiber _ := hidden_tame

instance (name : Handle) (v : Value) : Hidden Object.contents? (insertMember name v) := hidden_tame

/-- A heap grows and retains what it has. -/
structure Lasts (h h' : Heap) : Prop where
  size_le : h.slots.size ≤ h'.slots.size
  wellFormed : h.WellFormed → h'.slots.size ≤ slotLimit → h'.WellFormed
  retains : h.WellFormed → h'.slots.size ≤ slotLimit → Retains h h'

theorem lasts_iff : Lasts h h' ↔ Upholds Object.contents? h h' :=
  ⟨fun ⟨hsize, hw, hr⟩ => ⟨hsize, hw, hr⟩, fun ⟨hsize, hw, hs⟩ => ⟨hsize, hw, hs⟩⟩

namespace Lasts

theorem refl (h : Heap) : Lasts h h := lasts_iff.mpr (.refl h)

theorem trans (hl : Lasts h h₁) (hl' : Lasts h₁ h') : Lasts h h' :=
  lasts_iff.mpr ((lasts_iff.mp hl).trans (lasts_iff.mp hl'))

theorem of_update {f : Object → Object} [Plain f] [hf : Tame f] : Lasts h (h.update r f) :=
  lasts_iff.mpr (.of_update fun o _ => hf.contents o)

theorem update_new (hl : Lasts h h₁)
    (hnew : h.WellFormed → h₁.slots.size ≤ slotLimit → h.get? r = none) (f : Object → Object)
    [Plain f] : Lasts h (h₁.update r f) := lasts_iff.mpr ((lasts_iff.mp hl).update_new hnew f)

end Lasts

end Heap

end FiberMachine
