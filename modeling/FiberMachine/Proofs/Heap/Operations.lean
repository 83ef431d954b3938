import Mathlib.Data.Nat.ModEq
import FiberMachine.Proofs.Heap.Collection

/-!
# Rows of operations on a heap

A heap comes of a new one by a row of operations: texts are interned, objects are made and
changed, slots are emptied one by one or by collections. Whatever the row, the slots, the free
list and the number of objects fit together, and the generation of a slot says how often the
slot has been emptied, as far as its bits go.
-/

namespace FiberMachine
namespace Heap

/-- A change of what an object holds. Its mark is left to collections. -/
abbrev Mutation := Members → Body → Members × Body

def Mutation.apply (f : Mutation) (o : Object) : Object :=
  ⟨o.marked, (f o.members o.body).1, (f o.members o.body).2⟩

/-- What is done to a heap; only `update` counts the size of the object again. -/
inductive Operation where
  | intern (s : String)
  | alloc (body : Body)
  | modify (r : Handle) (f : Mutation)
  | update (r : Handle) (f : Mutation)
  | release (r : Handle)
  | collect (roots : List Handle)

def perform (h : Heap) : Operation → Heap
  | .intern s => (h.intern s).1
  | .alloc body => (h.alloc body).1
  | .modify r f => h.modify r f.apply
  | .update r f => h.update r f.apply
  | .release r => h.release r
  | .collect roots => (h.collect roots).1

def performAll (h : Heap) (ops : List Operation) : Heap := ops.foldl perform h

variable {h h' : Heap} {op : Operation} {ops : List Operation} {r : Handle} {i : Nat}

@[simp] theorem performAll_nil : h.performAll [] = h := rfl

@[simp] theorem performAll_cons : h.performAll (op :: ops) = (h.perform op).performAll ops := rfl

theorem performAll_append (ops' : List Operation) :
    h.performAll (ops ++ ops') = (h.performAll ops).performAll ops' := List.foldl_append

/-! ## Slots -/

/-- What a handle is compared with: the generation of a slot and whether it holds an object. -/
def outline (slot : Slot) : Generation × Bool := (slot.generation, isOccupied slot)

/-- The slots hold objects where they did before, in the same generations. -/
def SameSlots (h h' : Heap) : Prop := h'.slots.map outline = h.slots.map outline

theorem SameSlots.size_eq (hs : SameSlots h h') : h'.slots.size = h.slots.size := by
  simpa using congrArg Array.size hs

theorem SameSlots.trans {h₁ : Heap} (hs : SameSlots h h₁) (hs' : SameSlots h₁ h') :
    SameSlots h h' := Eq.trans hs' hs

theorem SameSlots.map_isOccupied (hs : SameSlots h h') :
    h'.slots.map isOccupied = h.slots.map isOccupied := by
  simpa [outline, Function.comp_def] using congrArg (Array.map Prod.snd) hs

theorem map_outline_modify (slots : Array Slot) (i : Nat) (f : Slot → Slot)
    (hf : ∀ slot, outline (f slot) = outline slot) :
    (slots.modify i f).map outline = slots.map outline := by
  refine Array.ext (by simp) fun j _ _ => ?_
  simp only [Array.getElem_map, Array.getElem_modify]
  split
  · exact hf _
  · rfl

theorem sameSlots_modify (h : Heap) (r : Handle) (f : Object → Object) :
    SameSlots h (h.modify r f) := by
  simp only [SameSlots, modify]
  refine map_outline_modify _ _ _ fun slot => ?_
  split
  · simp [outline, changeSlot, isOccupied]
  · rfl

theorem sameSlots_recount (h : Heap) (r : Handle) : SameSlots h (h.recount r) := by
  simp only [recount]
  split
  · split
    · rfl
    · simp only [SameSlots, reallocate_slots]
      apply map_outline_modify
      exact fun _ => rfl
  · rfl

theorem sameSlots_update (h : Heap) (r : Handle) (f : Object → Object) :
    SameSlots h (h.update r f) := (sameSlots_modify h r f).trans (sameSlots_recount _ r)

theorem Remarked.sameSlots (hm : Remarked h h') : SameSlots h h' := by
  have houtline : outline ∘ changeSlot clearMark = outline := by
    funext slot
    simp [outline, changeSlot, isOccupied]
  simpa [SameSlots, houtline] using congrArg (Array.map outline) hm.slots

/-! ## The arena -/

theorem Arena.collect (ha : h.Arena) (roots : List Handle) : (h.collect roots).1.Arena := by
  have hm : (h.markFrom roots).forgetTexts.Arena :=
    ((markFrom_remarked h roots).arena ha).congr rfl rfl rfl
  exact (foldl_sweepSlot hm _).1.congr rfl rfl rfl

theorem collect_slots (ha : h.Arena) (roots : List Handle) (i : Nat) :
    (h.collect roots).1.slots[i]? = ((h.markFrom roots).slots[i]?).map sweptSlot := by
  have hm : (h.markFrom roots).forgetTexts.Arena :=
    ((markFrom_remarked h roots).arena ha).congr rfl rfl rfl
  exact sweep_slots hm i

theorem Arena.intern (ha : h.Arena) {s : String} (hfit : (h.intern s).1.slots.size ≤ slotLimit) :
    (h.intern s).1.Arena := by
  cases hs : h.texts.find? s with
  | some r => rwa [intern_old hs]
  | none => exact (intern_allocated ha hs hfit).1.arena.congr rfl rfl rfl

/-- Only a handle that is good empties a slot. -/
theorem release_cases (h : Heap) (r : Handle) : (¬ h.isLive r ∧ h.release r = h) ∨
    ∃ slot o, h.slot? r = some slot ∧ slot.object = some o := by
  simp only [isLive, get?, release]
  split
  · rename_i hslot
    exact .inr ⟨_, _, hslot, rfl⟩
  · rename_i hnone
    refine .inl ⟨fun hl => ?_, rfl⟩
    obtain ⟨o, ho⟩ := Option.isSome_iff_exists.mp hl
    obtain ⟨slot, hslot, hobject⟩ := Option.bind_eq_some_iff.mp ho
    exact hnone slot.generation slot.bytes o (by rw [hslot, ← hobject])

theorem get?_of_get?_release {slot : Slot} {o p : Object} {s : Handle}
    (hslot : h.slot? r = some slot) (ho : slot.object = some o)
    (hp : (h.release r).get? s = some p) : h.get? s = some p := by
  rw [get?_eq_some_iff] at hp ⊢
  obtain ⟨slot', hat, hg, hobject⟩ := hp
  rw [(release_slots hslot ho).1, Array.getElem?_setIfInBounds] at hat
  split at hat
  · split at hat
    · cases hat
      simp at hobject
    · simp at hat
  · exact ⟨slot', hat, hg, hobject⟩

/-- An operation makes no more than one slot, and slots stay. -/
theorem size_perform (h : Heap) (op : Operation) : h.slots.size ≤ (h.perform op).slots.size ∧
    (h.perform op).slots.size ≤ h.slots.size + 1 := by
  cases op with
  | intern s => exact ⟨size_le_intern h s, size_intern_le h s⟩
  | alloc body => exact ⟨size_le_alloc h body, size_alloc_le h body⟩
  | modify r f =>
    have hsize : (h.perform (.modify r f)).slots.size = h.slots.size :=
      (sameSlots_modify h r f.apply).size_eq
    omega
  | update r f =>
    have hsize : (h.perform (.update r f)).slots.size = h.slots.size := size_update h r f.apply
    omega
  | release r =>
    have hsize : (h.perform (.release r)).slots.size = h.slots.size := size_release h r
    omega
  | collect roots =>
    have hsize : (h.perform (.collect roots)).slots.size = h.slots.size := size_collect h roots
    omega

theorem size_le_performAll (h : Heap) (ops : List Operation) :
    h.slots.size ≤ (h.performAll ops).slots.size := by
  induction ops generalizing h with
  | nil => exact Nat.le_refl _
  | cons op rest ih => exact (size_perform h op).1.trans (ih (h.perform op))

/-- A row of operations makes at most as many slots as it has operations. -/
theorem size_performAll_le (h : Heap) (ops : List Operation) :
    (h.performAll ops).slots.size ≤ h.slots.size + ops.length := by
  induction ops generalizing h with
  | nil => exact Nat.le_refl _
  | cons op rest ih =>
    have hfirst := (size_perform h op).2
    have hrest := ih (h.perform op)
    simp only [performAll_cons, List.length_cons]
    omega

theorem Arena.perform (ha : h.Arena) (hfit : (h.perform op).slots.size ≤ slotLimit) :
    (h.perform op).Arena := by
  cases op with
  | intern s => exact ha.intern hfit
  | alloc body => exact (alloc_allocated ha body hfit).arena
  | modify r f => exact ha.congr (sameSlots_modify h r f.apply).map_isOccupied rfl rfl
  | update r f => exact ha.update r f.apply
  | release r =>
    obtain ⟨-, he⟩ | ⟨slot, o, hslot, ho⟩ := release_cases h r
    · simp only [Heap.perform, he]
      exact ha
    · exact (ha.release hslot ho).1
  | collect roots => exact ha.collect roots

theorem Arena.performAll (ha : h.Arena) (hfit : (h.performAll ops).slots.size ≤ slotLimit) :
    (h.performAll ops).Arena := by
  induction ops generalizing h with
  | nil => exact ha
  | cons op rest ih => exact ih (ha.perform ((size_le_performAll _ rest).trans hfit)) hfit

/-! ## Generations -/

/-- Whether a slot is there and holds an object. -/
def fills (h : Heap) (i : Nat) : Bool := (h.slots[i]?).any isOccupied

/-- The generation of a slot. One that is not there yet will begin with the first. -/
def generationAt (h : Heap) (i : Nat) : Generation := (h.slots[i]?).elim .zero Slot.generation

/-- How often a slot loses its object in a row of operations. -/
def emptied (i : Nat) : Heap → List Operation → Nat
  | _, [] => 0
  | h, op :: rest =>
    (if h.fills i && !(h.perform op).fills i then 1 else 0) + emptied i (h.perform op) rest

theorem isLive_iff_fills :
    h.isLive r ↔ h.fills r.index.toNat ∧ h.generationAt r.index.toNat = r.generation := by
  simp only [isLive, get?, slot?, fills, generationAt]
  cases h.slots[r.index.toNat]? with
  | none => simp
  | some slot => by_cases hg : slot.generation = r.generation <;> simp [hg, isOccupied]

theorem SameSlots.slot (hs : SameSlots h h') (i : Nat) :
    (h'.slots[i]?).map outline = (h.slots[i]?).map outline := by
  simpa using congrArg (fun slots => slots[i]?) hs

theorem generationAt_of_outline {slot? slot'? : Option Slot}
    (hs : slot'?.map outline = slot?.map outline) :
    slot'?.elim Generation.zero Slot.generation = slot?.elim .zero Slot.generation ∧
      slot'?.any isOccupied = slot?.any isOccupied := by
  cases slot? <;> cases slot'? <;> simp_all [outline]

/-- A step of a slot: its object may come or change in a generation, and when the object goes,
the generation ends. -/
def Ages (i : Nat) (h h' : Heap) : Prop :=
  h'.generationAt i = if h.fills i && !h'.fills i then (h.generationAt i).next else h.generationAt i

/-- A slot that is filled stays filled, and the generation goes on. -/
def Spares (i : Nat) (h h' : Heap) : Prop :=
  (h.fills i → h'.fills i) ∧ h'.generationAt i = h.generationAt i

theorem Spares.ages (hh : Spares i h h') : Ages i h h' := by
  rw [Ages, if_neg, hh.2]
  simpa using hh.1

theorem SameSlots.spares (hs : SameSlots h h') : Spares i h h' := by
  obtain ⟨hg, hf⟩ := generationAt_of_outline (hs.slot i)
  exact ⟨fun hfill => hf.trans hfill, hg⟩

theorem spares_fillNew (h : Heap) (o : Object) (bytes : UInt64) :
    Spares i h (h.fillNew o bytes).1 := by
  constructor <;> simp only [fills, generationAt, fillNew, Array.getElem?_push] <;>
    by_cases hi : i = h.slots.size <;> simp [hi]

theorem spares_fillFree {slot : Slot} {j : UInt32} (hslot : h.slots[j.toNat]? = some slot)
    (o : Object) (bytes : UInt64) : Spares i h (h.fillFree j slot.generation o bytes).1 := by
  obtain ⟨hj, rfl⟩ := Array.getElem?_eq_some_iff.mp hslot
  by_cases hi : j.toNat = i
  · subst hi
    constructor <;> simp [fills, generationAt, fillFree, hj, isOccupied]
  · constructor <;> simp [fills, generationAt, fillFree, hi]

theorem spares_alloc (h : Heap) (body : Body) : Spares i h (h.alloc body).1 := by
  simp only [alloc]
  split
  · exact spares_fillNew (h.reallocate ..) _ _
  · split
    · exact spares_fillNew (h.reallocate ..) _ _
    · rename_i hslot
      exact spares_fillFree (h := h.reallocate ..) hslot _ _

theorem spares_intern (h : Heap) (s : String) : Spares i h (h.intern s).1 := by
  cases hs : h.texts.find? s with
  | some r =>
    rw [intern_old hs]
    exact SameSlots.spares rfl
  | none =>
    rw [(intern_new hs).2]
    exact spares_alloc h (.text s)

/-- Through a good handle the slot is emptied, and no other one is. -/
theorem fills_release {slot : Slot} {o : Object} (hslot : h.slot? r = some slot)
    (ho : slot.object = some o) :
    (h.release r).fills i ↔ i ≠ r.index.toNat ∧ h.fills i := by
  obtain ⟨hj, -⟩ := Array.getElem?_eq_some_iff.mp (slot?_eq_some_iff.mp hslot).1
  simp only [fills, (release_slots hslot ho).1, Array.getElem?_setIfInBounds]
  by_cases hi : r.index.toNat = i
  · subst hi
    simp [hj, isOccupied]
  · simp [hi, Ne.symm hi]

theorem ages_release (h : Heap) (r : Handle) : Ages i h (h.release r) := by
  obtain ⟨-, he⟩ | ⟨slot, o, hslot, ho⟩ := release_cases h r
  · rw [he]
    exact Spares.ages (SameSlots.spares rfl)
  · have hat := (slot?_eq_some_iff.mp hslot).1
    obtain ⟨hj, -⟩ := Array.getElem?_eq_some_iff.mp hat
    simp only [Ages, generationAt, fills, (release_slots hslot ho).1, Array.getElem?_setIfInBounds]
    by_cases hi : r.index.toNat = i
    · subst hi
      simp only [hat, hj, ↓reduceIte, isOccupied, ho, Option.elim_some, Option.any_some,
        Option.isSome_some, Option.isSome_none, Bool.not_false, Bool.and_self]
    · simp [hi]

/-- A collection empties the slots without a mark and ends their generation. -/
theorem ages_collect (ha : h.Arena) (roots : List Handle) : Ages i h (h.collect roots).1 := by
  obtain ⟨hg, hf⟩ := generationAt_of_outline ((markFrom_remarked h roots).sameSlots.slot i)
  simp only [Ages, generationAt, fills, ← hg, ← hf, collect_slots ha]
  cases (h.markFrom roots).slots[i]? with
  | none => rfl
  | some slot =>
    cases ho : slot.object with
    | none => simp [sweptSlot, ho, isOccupied]
    | some o => by_cases hm : o.marked <;> simp [sweptSlot, ho, hm, isOccupied, changeSlot]

theorem ages_perform (ha : h.Arena) (op : Operation) : Ages i h (h.perform op) := by
  cases op with
  | intern s => exact (spares_intern h s).ages
  | alloc body => exact (spares_alloc h body).ages
  | modify r f => exact (sameSlots_modify h r f.apply).spares.ages
  | update r f => exact (sameSlots_update h r f.apply).spares.ages
  | release r => exact ages_release h r
  | collect roots => exact ages_collect ha roots

/-- The object of a slot is freed: through a handle that is good, or by a collection that does
not reach it. -/
def Frees (i : Nat) (h : Heap) : Operation → Prop
  | .release r => r.index.toNat = i ∧ h.isLive r
  | .collect roots => ∃ r, r.index.toNat = i ∧ h.isLive r ∧ ¬ Reached h roots r
  | _ => False

theorem Spares.not_emptied (hh : Spares i h h') : ¬ (h.fills i ∧ ¬ h'.fills i) :=
  fun he => he.2 (hh.1 he.1)

/-- The handle of the object in a slot. -/
theorem exists_isLive (ha : h.Arena) (hf : h.fills i) :
    ∃ r, r.index.toNat = i ∧ h.isLive r := by
  have hi : i < h.slots.size := by
    by_contra hlt
    rw [fills, Array.getElem?_eq_none (Nat.not_lt.mp hlt)] at hf
    simp at hf
  have hn := toNat_ofNat_of_lt (hi.trans_le ha.size_le)
  refine ⟨⟨UInt32.ofNat i, h.generationAt i⟩, hn, ?_⟩
  rw [isLive_iff_fills]
  simpa only [hn, and_true] using hf

theorem frees_release_iff (h : Heap) (r : Handle) :
    Frees i h (.release r) ↔ h.fills i ∧ ¬ (h.release r).fills i := by
  obtain ⟨hdead, he⟩ | ⟨slot, o, hslot, ho⟩ := release_cases h r
  · rw [he]
    exact iff_of_false (fun hfree => hdead hfree.2) fun hf => hf.2 hf.1
  · have hlive : h.isLive r := by simp [isLive, get?, hslot, ho]
    rw [fills_release hslot ho]
    constructor
    · intro hfree
      have hi : r.index.toNat = i := hfree.1
      subst hi
      exact ⟨(isLive_iff_fills.mp hlive).1, fun hf => hf.1 rfl⟩
    · intro hf
      have hi : r.index.toNat = i := by
        by_contra hne
        exact hf.2 ⟨Ne.symm hne, hf.1⟩
      exact ⟨hi, hlive⟩

theorem frees_collect_iff (ha : h.Arena) (hu : h.Unmarked) (roots : List Handle) :
    Frees i h (.collect roots) ↔ h.fills i ∧ ¬ (h.collect roots).1.fills i := by
  have hage : Ages i h (h.collect roots).1 := ages_collect ha roots
  constructor
  · rintro ⟨r, rfl, hlive, hlost⟩
    obtain ⟨hf, hg⟩ := isLive_iff_fills.mp hlive
    refine ⟨hf, fun hf' => hlost ?_⟩
    -- where the slot is still filled its generation is the same, so the handle is still good
    rw [← ha.isLive_collect hu, isLive_iff_fills]
    simp only [Ages, hf', Bool.not_true, Bool.and_false, Bool.false_eq_true, ↓reduceIte] at hage
    exact ⟨hf', hage.trans hg⟩
  · rintro ⟨hf, hf'⟩
    obtain ⟨r, rfl, hlive⟩ := exists_isLive ha hf
    refine ⟨r, rfl, hlive, fun hr => hf' ?_⟩
    rw [← ha.isLive_collect hu] at hr
    exact (isLive_iff_fills.mp hr).1

/-- A slot loses its object only where the object is freed. -/
theorem frees_iff (ha : h.Arena) (hu : h.Unmarked) (op : Operation) :
    Frees i h op ↔ h.fills i ∧ ¬ (h.perform op).fills i := by
  cases op with
  | intern s => exact iff_of_false id (spares_intern h s).not_emptied
  | alloc body => exact iff_of_false id (spares_alloc h body).not_emptied
  | modify r f => exact iff_of_false id (sameSlots_modify h r f.apply).spares.not_emptied
  | update r f => exact iff_of_false id (sameSlots_update h r f.apply).spares.not_emptied
  | release r => exact frees_release_iff h r
  | collect roots => exact frees_collect_iff ha hu roots

/-! ## Marks -/

theorem Allocated.unmarked {o : Object} (hn : Allocated h h' r o) (ho : o.marked = false)
    (hu : h.Unmarked) : h'.Unmarked := by
  intro s p hp
  rw [hn.get?] at hp
  split at hp
  · cases hp
    exact ho
  · exact hu s p hp

theorem Unmarked.changed {f : Mutation} (hu : h.Unmarked)
    (hs : ∀ s, h'.get? s = if s = r then (h.get? r).map f.apply else h.get? s) : h'.Unmarked := by
  intro s p hp
  rw [hs] at hp
  split at hp
  · obtain ⟨o, ho, rfl⟩ := Option.map_eq_some_iff.mp hp
    exact hu r o ho
  · exact hu s p hp

/-- Between two operations no object is marked. -/
theorem Unmarked.perform (hu : h.Unmarked) (ha : h.Arena)
    (hfit : (h.perform op).slots.size ≤ slotLimit) : (h.perform op).Unmarked := by
  cases op with
  | intern s =>
    cases hs : h.texts.find? s with
    | some r =>
      simp only [Heap.perform, intern_old hs]
      exact hu
    | none => exact (intern_allocated ha hs hfit).1.unmarked rfl hu
  | alloc body => exact (alloc_allocated ha body hfit).unmarked rfl hu
  | modify r f => exact hu.changed fun s => get?_modify h r s f.apply
  | update r f => exact hu.changed fun s => get?_update h r s f.apply
  | release r =>
    intro s o ho
    refine hu s o ?_
    obtain ⟨-, he⟩ | ⟨slot, p, hslot, hp⟩ := release_cases h r
    · simpa only [Heap.perform, he] using ho
    · exact get?_of_get?_release hslot hp ho
  | collect roots =>
    intro s o ho
    refine hu s o ?_
    simp only [Heap.perform, ha.get?_collect hu] at ho
    split at ho
    · exact ho
    · simp at ho

theorem Unmarked.performAll (hu : h.Unmarked) (ha : h.Arena)
    (hfit : (h.performAll ops).slots.size ≤ slotLimit) : (h.performAll ops).Unmarked := by
  induction ops generalizing h with
  | nil => exact hu
  | cons op rest ih =>
    have hfirst := (size_le_performAll (h.perform op) rest).trans hfit
    exact ih (hu.perform ha hfirst) (ha.perform hfirst) hfit

/-! ## Generations of a row -/

theorem Generation.next_modEq (g : Generation) : g.next.val ≡ g.val + 1 [MOD generationCount] :=
  Nat.mod_modEq _ _

/-- The generation of a slot tells how often it has been emptied. -/
theorem generationAt_performAll (ha : h.Arena)
    (hfit : (h.performAll ops).slots.size ≤ slotLimit) (i : Nat) :
    ((h.performAll ops).generationAt i).val ≡ (h.generationAt i).val + emptied i h ops
      [MOD generationCount] := by
  induction ops generalizing h with
  | nil => exact .refl _
  | cons op rest ih =>
    have hfirst := (size_le_performAll (h.perform op) rest).trans hfit
    have hage := ages_perform (i := i) ha op
    have hrest := ih (ha.perform hfirst) hfit
    rw [Ages] at hage
    rw [hage] at hrest
    simp only [performAll_cons, emptied]
    split at hrest
    · rename_i hemptied
      rw [if_pos hemptied, ← Nat.add_assoc]
      exact hrest.trans ((Generation.next_modEq _).add_right _)
    · rename_i hkept
      rw [if_neg hkept, Nat.zero_add]
      exact hrest

theorem isEmpty_iff_fills : h.IsEmpty i ↔ i < h.slots.size ∧ ¬ h.fills i := by
  by_cases hi : i < h.slots.size <;> simp [IsEmpty, fills, isOccupied, hi]

theorem countP_fills (h : Heap) :
    (List.range h.slots.size).countP h.fills = h.slots.countP isOccupied := by
  rw [← length_handles, handles, List.length_filterMap_eq_countP]
  refine List.countP_congr fun i _ => ?_
  cases hslot : h.slots[i]? <;> simp [fills, hslot, isOccupied]

/-! ## What is guaranteed -/

/-- A handle finds an object, to be read and to be changed. -/
structure Accepts (h : Heap) (r : Handle) : Prop where
  get : ∃ o, h.get? r = some o ∧ h.get r = .ok o
  change : ∀ f, Heap.change r f h = .ok () (h.update r f) ∧
    (h.update r f).get? r = (h.get? r).map f
  modify : ∀ f, (h.modify r f).get? r = (h.get? r).map f

/-- A handle finds nothing, and nothing is changed through it. -/
structure Refuses (h : Heap) (r : Handle) : Prop where
  get : h.get r = .error .dangling
  change : ∀ f, Heap.change r f h = .error .dangling h
  modify : ∀ f s, (h.modify r f).get? s = h.get? s

theorem accepts_of_isLive (hl : h.isLive r) : h.Accepts r where
  get := by
    obtain ⟨o, ho⟩ := isLive_iff.mp hl
    exact ⟨o, ho, by simp only [Heap.get, ho]⟩
  change f := ⟨by simp only [Heap.change, hl, ↓reduceIte], by rw [get?_update, if_pos rfl]⟩
  modify f := by rw [get?_modify, if_pos rfl]

theorem refuses_of_not_isLive (hl : ¬ h.isLive r) : h.Refuses r := by
  have hnone : h.get? r = none := by simpa [isLive] using hl
  refine ⟨by simp only [Heap.get, hnone], fun f => ?_, fun f s => ?_⟩
  · simp only [Heap.change, hl, Bool.false_eq_true, ↓reduceIte]
  · rw [get?_modify]
    split
    · rename_i hs
      rw [hs, hnone]
      rfl
    · rfl

/-- The books of a heap after a row of operations. The free list holds the empty slots, each
once, the number of objects is that of the filled slots, and a new object takes the place of
none and gets a handle of its own. A slot is emptied by an operation if and only if that frees its
object. A handle is accepted if and only if its slot is filled and has been emptied as often as its
generation says, so that one of a lost object is refused until its slot has been emptied as often
as there are generations. -/
structure ArenaGuarantees (begun : Heap) (ops : List Operation) (h : Heap) : Prop where
  free_nodup : h.free.Nodup
  free : ∀ i, i ∈ h.free.map UInt32.toNat ↔ i < h.slots.size ∧ ¬ h.fills i
  count : h.count = (List.range h.slots.size).countP h.fills
  alloc : ∀ body, (h.alloc body).1.slots.size ≤ slotLimit → ¬ h.isLive (h.alloc body).2 ∧
    (h.alloc body).1.get? (h.alloc body).2 = some (.ofBody body) ∧
    ∀ r, h.isLive r → (h.alloc body).1.get? r = h.get? r
  frees : ∀ i op, Frees i h op ↔ h.fills i ∧ ¬ (h.perform op).fills i
  accepts : ∀ r, h.fills r.index.toNat →
    emptied r.index.toNat begun ops ≡ r.generation.val [MOD generationCount] → h.Accepts r
  refuses : ∀ r, ¬ (h.fills r.index.toNat ∧
    emptied r.index.toNat begun ops ≡ r.generation.val [MOD generationCount]) → h.Refuses r
  stale : ∀ before rest r, ops = before ++ rest → (begun.performAll before).isLive r →
    0 < emptied r.index.toNat (begun.performAll before) rest →
    emptied r.index.toNat (begun.performAll before) rest < generationCount → h.Refuses r

theorem arenaGuarantees (threshold growth : UInt64) (ops : List Operation)
    (hfit : ((withThreshold threshold growth).performAll ops).slots.size ≤ slotLimit) :
    ArenaGuarantees (withThreshold threshold growth) ops
      ((withThreshold threshold growth).performAll ops) := by
  have hbegun : (withThreshold threshold growth).Arena := (withThreshold_wellFormed ..).toArena
  have ha := hbegun.performAll hfit
  have hage : ∀ i, (((withThreshold threshold growth).performAll ops).generationAt i).val ≡
      emptied i (withThreshold threshold growth) ops [MOD generationCount] := fun i => by
    simpa [generationAt, withThreshold, Generation.zero] using generationAt_performAll hbegun hfit i
  have hlive : ∀ r, ((withThreshold threshold growth).performAll ops).isLive r ↔
      ((withThreshold threshold growth).performAll ops).fills r.index.toNat ∧
        emptied r.index.toNat (withThreshold threshold growth) ops ≡ r.generation.val
          [MOD generationCount] := fun r => by
    rw [isLive_iff_fills, Fin.ext_iff]
    refine and_congr_right fun _ => ⟨fun hg => hg ▸ (hage _).symm, fun hg => ?_⟩
    exact Nat.ModEq.eq_of_lt_of_lt ((hage _).trans hg) (Fin.isLt _) (Fin.isLt _)
  have hu := Unmarked.performAll (withThreshold_wellFormed threshold growth).unmarked hbegun hfit
  refine ⟨ha.free_nodup, fun i => ?_, ha.count_eq.trans (countP_fills _).symm, fun body hbody => ?_,
    fun i op => frees_iff ha hu op, fun r hf hg => accepts_of_isLive ((hlive r).mpr ⟨hf, hg⟩),
    fun r hr => refuses_of_not_isLive (mt (hlive r).mp hr), ?_⟩
  · rw [← isEmpty_iff_fills, List.mem_map]
    refine ⟨?_, fun hi => ?_⟩
    · rintro ⟨j, hj, rfl⟩
      exact (ha.mem_free j).mp hj
    · have hn := toNat_ofNat_of_lt ((isEmpty_iff_fills.mp hi).1.trans_le hfit)
      exact ⟨UInt32.ofNat i, (ha.mem_free _).mpr (hn.symm ▸ hi), hn⟩
  · have hn := alloc_allocated ha body hbody
    refine ⟨by simp [isLive, hn.fresh], hn.get?_self, fun r hr => ?_⟩
    obtain ⟨o, ho⟩ := isLive_iff.mp hr
    rw [ho, hn.get?_of_get? ho]
  · rintro before rest r rfl hr hpos hlt
    refine refuses_of_not_isLive fun hl => ?_
    rw [performAll_append] at hfit hl
    have hmid := hbegun.performAll ((size_le_performAll _ rest).trans hfit)
    have hrest := generationAt_performAll hmid hfit r.index.toNat
    rw [(isLive_iff_fills.mp hr).2, (isLive_iff_fills.mp hl).2] at hrest
    -- the generation has gone on, but not as far as to the same one again
    have hzero : emptied r.index.toNat ((withThreshold threshold growth).performAll before) rest ≡ 0
        [MOD generationCount] := Nat.ModEq.add_left_cancel' r.generation.val hrest.symm
    exact absurd (Nat.ModEq.eq_of_lt_of_lt hzero hlt (by decide)) hpos.ne'

/-- A dictionary is lost and an array takes its slot; a collection empties the slot again. -/
theorem arenaGuarantees_reusedSlot :
    ((withThreshold 64 2).performAll [.alloc (.dictionary .empty), .release ⟨0, .zero⟩, .alloc (.array #[]),
      .collect []]).slots.size ≤ slotLimit ∧
    ArenaGuarantees (withThreshold 64 2)
      [.alloc (.dictionary .empty), .release ⟨0, .zero⟩, .alloc (.array #[]), .collect []]
      ((withThreshold 64 2).performAll [.alloc (.dictionary .empty), .release ⟨0, .zero⟩,
        .alloc (.array #[]), .collect []]) :=
  have hfit := (size_performAll_le (withThreshold 64 2) [.alloc (.dictionary .empty), .release ⟨0, .zero⟩,
    .alloc (.array #[]), .collect []]).trans (by decide)
  ⟨hfit, arenaGuarantees 64 2 _ hfit⟩

end Heap
end FiberMachine
