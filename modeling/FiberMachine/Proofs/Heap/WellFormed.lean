import Mathlib.Data.List.Nodup
import FiberMachine.Heap.Collect

/-!
# Well-formed heaps

Between two operations no object is marked, the free list holds exactly the empty
slots, the table of texts holds exactly the texts, and every slot has a number
that fits into a handle. Access through a handle depends on one slot alone, so
what an operation does to the objects is said by what `get?` finds afterwards.
-/

namespace FiberMachine

theorem Value.ofHandle_injective : Function.Injective Value.ofHandle := fun r s h =>
  Option.some.inj (by rw [← toHandle?_ofHandle r, h, toHandle?_ofHandle])

namespace Heap

/-- The number of slots that handles can tell apart. -/
def slotLimit : Nat := 0x100000000

def IsEmpty (h : Heap) (i : Nat) : Prop := ∃ slot, h.slots[i]? = some slot ∧ slot.object = none

def isOccupied (slot : Slot) : Bool := slot.object.isSome

/-- The slots, the free list and the number of objects fit together. -/
structure Arena (h : Heap) : Prop where
  size_le : h.slots.size ≤ slotLimit
  free_nodup : h.free.Nodup
  mem_free : ∀ i : UInt32, i ∈ h.free ↔ h.IsEmpty i.toNat
  count_eq : h.count = h.slots.countP isOccupied

structure WellFormed (h : Heap) : Prop extends Arena h where
  unmarked : ∀ r o, h.get? r = some o → o.marked = false
  find_text : ∀ s r, h.texts.find? s = some r ↔ ∃ o, h.get? r = some o ∧ o.body = .text s

theorem isLive_iff {h : Heap} {r : Handle} : h.isLive r ↔ ∃ o, h.get? r = some o := by
  simp [isLive, Option.isSome_iff_exists]

theorem get?_congr {h h' : Heap} (hs : h'.slots = h.slots) (r : Handle) :
    h'.get? r = h.get? r := by
  simp only [get?, slot?, hs]

@[simp] theorem reallocate_slots (h : Heap) (old new : UInt64) :
    (h.reallocate old new).slots = h.slots := rfl

@[simp] theorem reallocate_free (h : Heap) (old new : UInt64) :
    (h.reallocate old new).free = h.free := rfl

@[simp] theorem reallocate_texts (h : Heap) (old new : UInt64) :
    (h.reallocate old new).texts = h.texts := rfl

@[simp] theorem reallocate_count (h : Heap) (old new : UInt64) :
    (h.reallocate old new).count = h.count := rfl

theorem index_injective {r s : Handle} (hi : r.index.toNat = s.index.toNat)
    (hg : r.generation = s.generation) : r = s := by
  obtain ⟨i, g⟩ := r
  obtain ⟨j, k⟩ := s
  simp only [Handle.mk.injEq]
  exact ⟨UInt32.toNat.inj hi, hg⟩

theorem get?_modify (h : Heap) (r s : Handle) (f : Object → Object) :
    (h.modify r f).get? s = if s = r then (h.get? r).map f else h.get? s := by
  by_cases hi : s.index.toNat = r.index.toNat
  · by_cases hg : s.generation = r.generation
    · obtain rfl := index_injective hi hg
      simp only [get?, slot?, modify, Array.getElem?_modify, ↓reduceIte]
      cases h.slots[s.index.toNat]? with
      | none => rfl
      | some slot =>
        by_cases hslot : slot.generation = s.generation <;> simp [hslot, changeSlot]
    · have hne : s ≠ r := fun he => hg (he ▸ rfl)
      simp only [get?, slot?, modify, Array.getElem?_modify, hi, hne, ↓reduceIte]
      cases h.slots[r.index.toNat]? with
      | none => rfl
      | some slot =>
        by_cases hslot : slot.generation = r.generation
        · simp [hslot, changeSlot, Ne.symm hg]
        · simp [hslot]
  · have hne : s ≠ r := fun he => hi (he ▸ rfl)
    simp [get?, slot?, modify, Array.getElem?_modify, Ne.symm hi, hne]

theorem get?_recount (h : Heap) (r s : Handle) : (h.recount r).get? s = h.get? s := by
  simp only [recount]
  split
  · split
    · rfl
    · refine (get?_congr (reallocate_slots _ _ _) s).trans ?_
      simp only [get?, slot?, Array.getElem?_modify]
      by_cases hi : r.index.toNat = s.index.toNat
      · cases hslot : h.slots[s.index.toNat]? with
        | none => simp [hi]
        | some slot => by_cases hg : slot.generation = s.generation <;> simp [hi, hg]
      · simp [hi]
  · rfl

theorem get?_update (h : Heap) (r s : Handle) (f : Object → Object) :
    (h.update r f).get? s = if s = r then (h.get? r).map f else h.get? s := by
  rw [update, get?_recount, get?_modify]

/-! ## Arenas -/

theorem isEmpty_iff {h : Heap} {i : Nat} :
    h.IsEmpty i ↔ (h.slots.map isOccupied)[i]? = some false := by
  simp [IsEmpty, isOccupied]

/-- An arena depends on its slots only through which of them are occupied. -/
theorem Arena.congr {h h' : Heap} (ha : h.Arena)
    (hslots : h'.slots.map isOccupied = h.slots.map isOccupied) (hfree : h'.free = h.free)
    (hcount : h'.count = h.count) : h'.Arena where
  size_le := by
    have hsize : h'.slots.size = h.slots.size := by simpa using congrArg Array.size hslots
    exact hsize ▸ ha.size_le
  free_nodup := hfree ▸ ha.free_nodup
  mem_free i := by rw [hfree, ha.mem_free, isEmpty_iff, isEmpty_iff, hslots]
  count_eq := by
    have hmap : ∀ slots : Array Slot, slots.countP isOccupied =
        (slots.map isOccupied).countP id := by simp [Array.countP_map]
    rw [hcount, ha.count_eq, hmap, hmap, hslots]

theorem map_isOccupied_modify (slots : Array Slot) (i : Nat) (f : Slot → Slot)
    (hf : ∀ slot, isOccupied (f slot) = isOccupied slot) :
    (slots.modify i f).map isOccupied = slots.map isOccupied := by
  refine Array.ext (by simp) fun j _ _ => ?_
  simp only [Array.getElem_map, Array.getElem_modify]
  split
  · exact hf _
  · rfl

@[simp] theorem isOccupied_changeSlot (f : Object → Object) (slot : Slot) :
    isOccupied (changeSlot f slot) = isOccupied slot := by
  simp [isOccupied, changeSlot]

theorem toNat_ofNat_of_lt {i : Nat} (hi : i < slotLimit) : (UInt32.ofNat i).toNat = i := by
  rw [UInt32.toNat_ofNat']
  exact Nat.mod_eq_of_lt hi

theorem mem_handles {h : Heap} (hs : h.slots.size ≤ slotLimit) {r : Handle} :
    r ∈ h.handles ↔ h.isLive r := by
  simp only [handles, List.mem_filterMap, List.mem_range, isLive_iff, get?_eq_some_iff]
  constructor
  · rintro ⟨i, hi, he⟩
    obtain ⟨slot, hslot, ho⟩ := Option.bind_eq_some_iff.mp he
    obtain ⟨o, hobject, rfl⟩ := Option.map_eq_some_iff.mp ho
    refine ⟨o, slot, ?_, rfl, hobject⟩
    rw [toNat_ofNat_of_lt (by omega), hslot]
  · rintro ⟨o, slot, hslot, hg, ho⟩
    obtain ⟨hi, -⟩ := Array.getElem?_eq_some_iff.mp hslot
    refine ⟨r.index.toNat, hi, ?_⟩
    obtain ⟨index, generation⟩ := r
    simp only at hslot hg
    simp [hslot, ho, hg]

theorem nodup_handles {h : Heap} (hs : h.slots.size ≤ slotLimit) : h.handles.Nodup := by
  refine List.Nodup.filterMap (fun i j r hi hj => ?_) List.nodup_range
  obtain ⟨slot, hslot, ho⟩ := Option.bind_eq_some_iff.mp hi
  obtain ⟨slot', hslot', ho'⟩ := Option.bind_eq_some_iff.mp hj
  obtain ⟨-, -, rfl⟩ := Option.map_eq_some_iff.mp ho
  obtain ⟨-, -, he⟩ := Option.map_eq_some_iff.mp ho'
  obtain ⟨hlt, -⟩ := Array.getElem?_eq_some_iff.mp hslot
  obtain ⟨hlt', -⟩ := Array.getElem?_eq_some_iff.mp hslot'
  have hindex := congrArg (fun r => r.index.toNat) he
  simp only at hindex
  rwa [toNat_ofNat_of_lt (by omega), toNat_ofNat_of_lt (by omega), eq_comm] at hindex

theorem length_handles (h : Heap) : h.handles.length = h.slots.countP isOccupied := by
  have hrange : (List.range h.slots.size).map (fun i => h.slots[i]?) = h.slots.toList.map some := by
    refine List.ext_getElem (by simp) fun i hi _ => ?_
    have hi' : i < h.slots.size := by simpa using hi
    simp [hi']
  have hcount := congrArg (List.countP (fun slot? => slot?.any isOccupied)) hrange
  rw [List.countP_map, List.countP_map] at hcount
  rw [handles, List.length_filterMap_eq_countP, ← Array.countP_toList]
  refine Eq.trans (List.countP_congr fun i _ => ?_) (hcount.trans (List.countP_congr fun slot _ => ?_))
  · simp only [Function.comp_apply]
    cases h.slots[i]? <;> simp [isOccupied]
  · simp

theorem Arena.count_eq_length {h : Heap} (ha : h.Arena) : h.count = h.handles.length :=
  ha.count_eq.trans (length_handles h).symm

theorem withThreshold_wellFormed (threshold growth : UInt64) :
    (withThreshold threshold growth).WellFormed := by
  have hget : ∀ r, (withThreshold threshold growth).get? r = none := by
    intro r
    simp [get?, slot?, withThreshold]
  refine ⟨⟨by simp [withThreshold], List.nodup_nil, fun i => ?_, rfl⟩, fun r o ho => ?_,
    fun s r => ?_⟩
  · simp [IsEmpty, withThreshold]
  · simp [hget] at ho
  · rw [hget]
    simp [withThreshold]

/-! ## New objects -/

/-- A new object gets a handle that was good for nothing, and all else stays. -/
structure Allocated (h h' : Heap) (r : Handle) (o : Object) : Prop where
  arena : h'.Arena
  fresh : h.get? r = none
  texts : h'.texts = h.texts
  get? : ∀ s, h'.get? s = if s = r then some o else h.get? s

theorem fillNew_allocated {h : Heap} (ha : h.Arena) (hfree : h.free = []) (o : Object)
    (bytes : UInt64) (hfit : (h.fillNew o bytes).1.slots.size ≤ slotLimit) :
    Allocated h (h.fillNew o bytes).1 (h.fillNew o bytes).2 o := by
  have hlt : h.slots.size < slotLimit := by
    simp only [fillNew, Array.size_push] at hfit
    omega
  have hn := toNat_ofNat_of_lt hlt
  have hvacant : ∀ j : UInt32, ¬ h.IsEmpty j.toNat := by
    intro j
    rw [← ha.mem_free, hfree]
    simp
  refine ⟨⟨hfit, ha.free_nodup, fun j => ?_, ?_⟩, ?_, rfl, fun s => ?_⟩
  · refine (ha.mem_free j).trans (iff_of_false (hvacant j) ?_)
    rw [isEmpty_iff]
    simp only [fillNew, Array.map_push, Array.getElem?_push]
    split
    · simp [isOccupied]
    · rw [← isEmpty_iff]
      exact hvacant j
  · simp [fillNew, Array.countP_push, ha.count_eq, isOccupied]
  · simp [fillNew, Heap.get?, slot?, hn]
  · have hsr : s.index.toNat = h.slots.size → s.index = UInt32.ofNat h.slots.size :=
      fun he => UInt32.toNat.inj (by rw [hn, he])
    simp only [fillNew, Heap.get?, slot?, Array.getElem?_push]
    by_cases hi : s.index.toNat = h.slots.size
    · have hnone : h.slots[s.index.toNat]? = none := Array.getElem?_eq_none (by omega)
      by_cases hg : Generation.zero = s.generation
      · have hs : s = ⟨UInt32.ofNat h.slots.size, .zero⟩ := by
          obtain ⟨i, g⟩ := s
          simp only at hi hg hsr
          rw [hsr hi, hg]
        simp [hs, hn]
      · have hs : s ≠ ⟨UInt32.ofNat h.slots.size, .zero⟩ := fun he => hg (by rw [he])
        simp [hi, hg, hs]
    · have hs : s ≠ ⟨UInt32.ofNat h.slots.size, .zero⟩ := fun he => hi (by rw [he]; exact hn)
      simp [hi, hs]

theorem fillFree_allocated {h : Heap} (ha : h.Arena) {i : UInt32} {rest : List UInt32}
    (hfree : h.free = i :: rest) {slot : Slot} (hslot : h.slots[i.toNat]? = some slot) (o : Object)
    (bytes : UInt64) :
    Allocated h (h.fillFree i slot.generation o bytes).1 (h.fillFree i slot.generation o bytes).2
      o := by
  obtain ⟨hi, rfl⟩ := Array.getElem?_eq_some_iff.mp hslot
  have hempty : h.IsEmpty i.toNat := by
    rw [← ha.mem_free, hfree]
    exact List.mem_cons_self ..
  have hnone : h.slots[i.toNat].object = none := by
    obtain ⟨slot', hs, ho⟩ := hempty
    rw [hslot] at hs
    cases hs
    exact ho
  have hnodup : i ∉ rest ∧ rest.Nodup := by
    have hnd := ha.free_nodup
    rwa [hfree, List.nodup_cons] at hnd
  have hset : (h.fillFree i h.slots[i.toNat].generation o bytes).1.slots =
      h.slots.set i.toNat ⟨h.slots[i.toNat].generation, bytes, some o⟩ := by
    simp only [fillFree]
    rw [Array.setIfInBounds_def, dif_pos hi]
  refine ⟨⟨by simpa [hset] using ha.size_le, ?_, fun j => ?_, ?_⟩, ?_, rfl, fun s => ?_⟩
  · simpa [fillFree, hfree] using hnodup.2
  · rw [isEmpty_iff, hset, Array.map_set, Array.getElem?_set]
    have hj := ha.mem_free j
    rw [isEmpty_iff, hfree, List.mem_cons] at hj
    simp only [fillFree, hfree, List.tail_cons]
    by_cases hij : i.toNat = j.toNat
    · obtain rfl := UInt32.toNat.inj hij
      simp [hnodup.1, isOccupied]
    · have hne : j ≠ i := fun he => hij (he ▸ rfl)
      simpa [hij, hne] using hj
  · rw [hset, Array.countP_set hi, show (h.fillFree i h.slots[i.toNat].generation o bytes).1.count =
      h.count + 1 from rfl, ha.count_eq]
    simp [isOccupied, hnone]
  · simp [fillFree, Heap.get?, slot?, hslot, hnone]
  · obtain ⟨j, g⟩ := s
    simp only [Heap.get?, slot?, hset, Array.getElem?_set]
    change _ = if Handle.mk j g = Handle.mk i h.slots[i.toNat].generation then _ else _
    by_cases hij : i = j
    · subst hij
      by_cases hg : h.slots[i.toNat].generation = g
      · subst hg
        simp
      · simp [hg, hslot, Ne.symm hg]
    · have hn : i.toNat ≠ j.toNat := fun he => hij (UInt32.toNat.inj he)
      simp [hn, Ne.symm hij]

theorem Allocated.of_reallocate {h h' : Heap} {old new : UInt64} {r : Handle} {o : Object}
    (ha : Allocated (h.reallocate old new) h' r o) : Allocated h h' r o :=
  ⟨ha.arena, ha.fresh, ha.texts, ha.get?⟩

theorem Arena.reallocate {h : Heap} (ha : h.Arena) (old new : UInt64) :
    (h.reallocate old new).Arena :=
  ha.congr rfl rfl rfl

theorem alloc_allocated {h : Heap} (ha : h.Arena) (body : Body)
    (hfit : (h.alloc body).1.slots.size ≤ slotLimit) :
    Allocated h (h.alloc body).1 (h.alloc body).2 (.ofBody body) := by
  have hr := ha.reallocate 0 (UInt64.ofNat (Object.ofBody body).bytes)
  simp only [alloc] at hfit ⊢
  cases hfree : h.free with
  | nil =>
    simp only [hfree] at hfit ⊢
    exact (fillNew_allocated hr hfree _ _ hfit).of_reallocate
  | cons i rest =>
    have hempty : h.IsEmpty i.toNat := by
      rw [← ha.mem_free, hfree]
      exact List.mem_cons_self ..
    obtain ⟨slot, hslot, -⟩ := hempty
    simp only [hslot]
    exact (fillFree_allocated hr hfree hslot _ _).of_reallocate

theorem size_le_alloc (h : Heap) (body : Body) : h.slots.size ≤ (h.alloc body).1.slots.size := by
  simp only [alloc]
  split
  · simp [fillNew]
  · split
    · simp [fillNew]
    · simp [fillFree]

theorem size_alloc_le (h : Heap) (body : Body) :
    (h.alloc body).1.slots.size ≤ h.slots.size + 1 := by
  simp only [alloc]
  split
  · simp [fillNew]
  · split
    · simp [fillNew]
    · simp [fillFree]

theorem Allocated.get?_self {h h' : Heap} {r : Handle} {o : Object} (ha : Allocated h h' r o) :
    h'.get? r = some o := by
  rw [ha.get?, if_pos rfl]

theorem Allocated.get?_of_get? {h h' : Heap} {r s : Handle} {o p : Object}
    (ha : Allocated h h' r o) (hs : h.get? s = some p) : h'.get? s = some p := by
  rw [ha.get?, if_neg, hs]
  rintro rfl
  simp [ha.fresh] at hs

theorem WellFormed.alloc {h : Heap} (hw : h.WellFormed) {body : Body}
    (hb : ∀ s, body ≠ .text s) (hfit : (h.alloc body).1.slots.size ≤ slotLimit) :
    (h.alloc body).1.WellFormed := by
  have ha := alloc_allocated hw.toArena body hfit
  refine ⟨ha.arena, fun r o ho => ?_, fun s r => ?_⟩
  · rw [ha.get?] at ho
    split at ho
    · cases ho
      rfl
    · exact hw.unmarked r o ho
  · rw [ha.texts, hw.find_text]
    constructor
    · rintro ⟨o, ho, hbody⟩
      exact ⟨o, ha.get?_of_get? ho, hbody⟩
    · rintro ⟨o, ho, hbody⟩
      rw [ha.get?] at ho
      split at ho
      · cases ho
        exact absurd hbody (hb s)
      · exact ⟨o, ho, hbody⟩

/-! ## Texts -/

theorem size_le_intern (h : Heap) (s : String) : h.slots.size ≤ (h.intern s).1.slots.size := by
  simp only [intern]
  split
  · exact Nat.le_refl _
  · exact size_le_alloc h (.text s)

theorem size_intern_le (h : Heap) (s : String) :
    (h.intern s).1.slots.size ≤ h.slots.size + 1 := by
  simp only [intern]
  split
  · exact Nat.le_succ _
  · exact size_alloc_le h (.text s)

theorem intern_old {h : Heap} {s : String} {r : Handle} (hs : h.texts.find? s = some r) :
    h.intern s = (h, r) := by
  simp only [intern, findText?, hs]

/-- A text that is not there yet is put into the heap and into the table. -/
theorem intern_new {h : Heap} {s : String} (hs : h.texts.find? s = none) :
    (h.intern s).2 = (h.alloc (.text s)).2 ∧
      (h.intern s).1 = { (h.alloc (.text s)).1 with
        texts := (h.alloc (.text s)).1.texts.insert s (h.alloc (.text s)).2 } := by
  simp only [intern, findText?, hs, and_self]

theorem intern_allocated {h : Heap} (ha : h.Arena) {s : String} (hs : h.texts.find? s = none)
    (hfit : (h.intern s).1.slots.size ≤ slotLimit) :
    Allocated h { (h.intern s).1 with texts := h.texts } (h.intern s).2 (.ofBody (.text s)) ∧
      (h.intern s).1.texts = h.texts.insert s (h.intern s).2 := by
  obtain ⟨hr, he⟩ := intern_new hs
  rw [he] at hfit
  rw [hr, he]
  have hn := alloc_allocated ha (.text s) hfit
  refine ⟨⟨hn.arena.congr rfl rfl rfl, hn.fresh, rfl, hn.get?⟩, ?_⟩
  simp only [hn.texts]

theorem find_text_intern {h : Heap} (ha : h.Arena) {s : String}
    (hfit : (h.intern s).1.slots.size ≤ slotLimit) :
    (h.intern s).1.texts.find? s = some (h.intern s).2 := by
  cases hs : h.texts.find? s with
  | some r => rwa [intern_old hs]
  | none => rw [(intern_allocated ha hs hfit).2, Table.find?_insert_self]

theorem WellFormed.intern {h : Heap} (hw : h.WellFormed) {s : String}
    (hfit : (h.intern s).1.slots.size ≤ slotLimit) : (h.intern s).1.WellFormed := by
  cases hs : h.texts.find? s with
  | some r => rwa [intern_old hs]
  | none =>
    obtain ⟨hn, ht⟩ := intern_allocated hw.toArena hs hfit
    have hget : ∀ t, (h.intern s).1.get? t =
        if t = (h.intern s).2 then some (.ofBody (.text s)) else h.get? t := hn.get?
    refine ⟨hn.arena.congr rfl rfl rfl, fun r o ho => ?_, fun t r => ?_⟩
    · rw [hget] at ho
      split at ho
      · cases ho
        rfl
      · exact hw.unmarked r o ho
    · rw [ht, hget]
      by_cases hr : r = (h.intern s).2
      · rw [if_pos hr]
        by_cases hts : t = s
        · rw [hts, Table.find?_insert_self, hr]
          exact iff_of_true rfl ⟨_, rfl, rfl⟩
        · rw [Table.find?_insert_ne _ hts]
          refine iff_of_false (fun hf => ?_) ?_
          · obtain ⟨o, ho, -⟩ := (hw.find_text t r).mp hf
            simp [hr, hn.fresh] at ho
          · rintro ⟨o, ho, hb⟩
            cases ho
            exact hts (Body.text.inj hb).symm
      · rw [if_neg hr]
        by_cases hts : t = s
        · rw [hts, Table.find?_insert_self, ← hw.find_text, hs]
          simp [Ne.symm hr]
        · rw [Table.find?_insert_ne _ hts, hw.find_text]

theorem get?_intern_of_get? {h : Heap} (ha : h.Arena) {s : String}
    (hfit : (h.intern s).1.slots.size ≤ slotLimit) {r : Handle} {o : Object}
    (ho : h.get? r = some o) : (h.intern s).1.get? r = some o := by
  cases hs : h.texts.find? s with
  | some r => rwa [intern_old hs]
  | none => exact (intern_allocated ha hs hfit).1.get?_of_get? ho

/-! ## Changed objects -/

theorem recount_eq (h : Heap) (r : Handle) :
    (h.recount r).slots.map isOccupied = h.slots.map isOccupied ∧ (h.recount r).free = h.free ∧
      (h.recount r).count = h.count ∧ (h.recount r).texts = h.texts := by
  simp only [recount]
  split
  · split
    · exact ⟨rfl, rfl, rfl, rfl⟩
    · refine ⟨?_, rfl, rfl, rfl⟩
      simp only [reallocate_slots]
      apply map_isOccupied_modify
      exact fun _ => rfl
  · exact ⟨rfl, rfl, rfl, rfl⟩

theorem map_isOccupied_update (h : Heap) (r : Handle) (f : Object → Object) :
    (h.update r f).slots.map isOccupied = h.slots.map isOccupied := by
  refine (recount_eq _ r).1.trans ?_
  simp only [modify]
  apply map_isOccupied_modify
  intro slot
  split
  · exact isOccupied_changeSlot f slot
  · rfl

theorem size_update (h : Heap) (r : Handle) (f : Object → Object) :
    (h.update r f).slots.size = h.slots.size := by
  simpa using congrArg Array.size (map_isOccupied_update h r f)

theorem update_texts (h : Heap) (r : Handle) (f : Object → Object) :
    (h.update r f).texts = h.texts := (recount_eq _ r).2.2.2

theorem Arena.update {h : Heap} (ha : h.Arena) (r : Handle) (f : Object → Object) :
    (h.update r f).Arena :=
  ha.congr (map_isOccupied_update h r f) (recount_eq _ r).2.1 (recount_eq _ r).2.2.1

theorem WellFormed.update {h : Heap} (hw : h.WellFormed) {r : Handle} {f : Object → Object}
    (hmark : ∀ o, h.get? r = some o → (f o).marked = o.marked)
    (htext : ∀ o, h.get? r = some o → ∀ s, (f o).body = .text s ↔ o.body = .text s) :
    (h.update r f).WellFormed where
  toArena := hw.toArena.update r f
  unmarked t o ho := by
    rw [get?_update] at ho
    split at ho
    · obtain ⟨p, hp, rfl⟩ := Option.map_eq_some_iff.mp ho
      rw [hmark p hp]
      exact hw.unmarked r p hp
    · exact hw.unmarked t o ho
  find_text s t := by
    rw [update_texts, hw.find_text, get?_update]
    by_cases ht : t = r
    · subst ht
      rw [if_pos rfl]
      cases ho : h.get? t with
      | none => simp
      | some o => simp [htext o ho]
    · rw [if_neg ht]

end Heap
end FiberMachine
