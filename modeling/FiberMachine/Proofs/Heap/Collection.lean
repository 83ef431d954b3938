import Mathlib.Data.List.Perm.Subperm
import Mathlib.Tactic.Tauto
import FiberMachine.Proofs.Heap.WellFormed

/-!
# Collections keep exactly what the roots reach

Marking is followed by its set of marked handles: it starts with the live roots and
is closed under references once the list of things to follow is empty. Sweeping
treats each slot on its own, so what it leaves can be said slot by slot.
-/

namespace FiberMachine
namespace Heap

/-- What can be reached from live roots through the references of live objects. -/
inductive Reached (h : Heap) (roots : List Handle) : Handle → Prop
  | root {r : Handle} : r ∈ roots → h.isLive r → Reached h roots r
  | step {r s : Handle} {o : Object} :
      Reached h roots r → h.get? r = some o → s ∈ o.references → h.isLive s → Reached h roots s

theorem Reached.isLive {h : Heap} {roots : List Handle} {r : Handle}
    (hr : Reached h roots r) : h.isLive r := by
  cases hr with
  | root _ hl => exact hl
  | step _ _ _ hl => exact hl

/-! ## Marking -/

/-- The same heap but for marks. -/
structure Remarked (h₀ h : Heap) : Prop where
  eq : h = { h₀ with slots := h.slots }
  slots : h.slots.map (changeSlot clearMark) = h₀.slots.map (changeSlot clearMark)

theorem Remarked.refl (h : Heap) : Remarked h h := ⟨rfl, rfl⟩

theorem Remarked.slot {h₀ h : Heap} (hm : Remarked h₀ h) (i : Nat) :
    (h.slots[i]?).map (changeSlot clearMark) = (h₀.slots[i]?).map (changeSlot clearMark) := by
  simpa using congrArg (fun slots => slots[i]?) hm.slots

theorem get?_map_clearMark (h : Heap) (r : Handle) :
    (h.get? r).map clearMark =
      ((h.slots[r.index.toNat]?).map (changeSlot clearMark)).bind fun slot =>
        if slot.generation = r.generation then slot.object else none := by
  simp only [get?, slot?]
  cases h.slots[r.index.toNat]? with
  | none => rfl
  | some slot => by_cases hg : slot.generation = r.generation <;> simp [hg, changeSlot]

theorem Remarked.get?_clear {h₀ h : Heap} (hm : Remarked h₀ h) (r : Handle) :
    (h.get? r).map clearMark = (h₀.get? r).map clearMark := by
  rw [get?_map_clearMark, get?_map_clearMark, hm.slot]

theorem Remarked.isLive_eq {h₀ h : Heap} (hm : Remarked h₀ h) (r : Handle) :
    h.isLive r = h₀.isLive r := by
  simpa [isLive] using congrArg Option.isSome (hm.get?_clear r)

theorem clearMark_setMark (o : Object) : clearMark (setMark o) = clearMark o := rfl

theorem Remarked.setMark {h₀ h : Heap} (hm : Remarked h₀ h) (r : Handle) :
    Remarked h₀ (h.modify r Heap.setMark) := by
  refine ⟨by rw [hm.eq]; rfl, ?_⟩
  rw [← hm.slots]
  refine Array.ext (by simp [modify]) fun i _ _ => ?_
  simp only [modify, Array.getElem_map, Array.getElem_modify]
  by_cases hi : r.index.toNat = i <;> simp only [hi, ↓reduceIte]
  split
  · simp [changeSlot, Function.comp_def, clearMark_setMark]
  · rfl

theorem isMarked_iff {h : Heap} {r : Handle} :
    h.isMarked r ↔ ∃ o, h.get? r = some o ∧ o.marked = true := by
  simp only [isMarked]
  cases h.get? r <;> simp

theorem isMarked_modify_setMark {h : Heap} {r : Handle} (hr : h.isLive r) (s : Handle) :
    (h.modify r setMark).isMarked s ↔ h.isMarked s ∨ s = r := by
  obtain ⟨o, ho⟩ := isLive_iff.mp hr
  simp only [isMarked_iff, get?_modify]
  by_cases hs : s = r
  · simp [hs, ho, setMark]
  · simp [hs]

variable {h₀ : Heap} {state : Heap × List Handle}

theorem mark_remarked (hm : Remarked h₀ state.1) (r : Handle) : Remarked h₀ (mark state r).1 := by
  obtain ⟨h, grey⟩ := state
  simp only [mark]
  split
  · split
    · exact hm
    · exact hm.setMark r
  · exact hm

theorem mark_isMarked (r s : Handle) :
    (mark state r).1.isMarked s ↔ state.1.isMarked s ∨ (s = r ∧ state.1.isLive r) := by
  obtain ⟨h, grey⟩ := state
  simp only [mark]
  cases ho : h.get? r with
  | none => simp [isLive, ho]
  | some o =>
    have hl : h.isLive r := isLive_iff.mpr ⟨o, ho⟩
    by_cases hmark : o.marked
    · have hr : h.isMarked r := isMarked_iff.mpr ⟨o, ho, hmark⟩
      simp only [hmark, ↓reduceIte, hl, and_true]
      exact ⟨Or.inl, fun hs => hs.elim id fun he => he ▸ hr⟩
    · simp only [hmark, Bool.false_eq_true, ↓reduceIte, hl, and_true]
      exact isMarked_modify_setMark hl s

theorem mem_mark_grey (r s : Handle) :
    s ∈ (mark state r).2 ↔ s ∈ state.2 ∨ (s = r ∧ state.1.isLive r ∧ ¬ state.1.isMarked r) := by
  obtain ⟨h, grey⟩ := state
  simp only [mark]
  cases ho : h.get? r with
  | none => simp [isLive, ho]
  | some o =>
    have hl : h.isLive r := isLive_iff.mpr ⟨o, ho⟩
    by_cases hmark : o.marked
    · simp [hmark, isMarked, ho]
    · simp [hmark, isMarked, ho, hl, or_comm]

theorem mark_isLive (r s : Handle) : (mark state r).1.isLive s = state.1.isLive s :=
  (mark_remarked (Remarked.refl _) r).isLive_eq s

theorem foldl_mark_remarked (rs : List Handle) (hm : Remarked h₀ state.1) :
    Remarked h₀ (rs.foldl mark state).1 := by
  induction rs generalizing state with
  | nil => exact hm
  | cons r rest ih => exact ih (mark_remarked hm r)

theorem foldl_mark_isMarked (rs : List Handle) (s : Handle) :
    (rs.foldl mark state).1.isMarked s ↔
      state.1.isMarked s ∨ (s ∈ rs ∧ state.1.isLive s) := by
  induction rs generalizing state with
  | nil => simp
  | cons r rest ih =>
    rw [List.foldl_cons, ih, mark_isMarked, mark_isLive, List.mem_cons]
    constructor
    · rintro ((h | ⟨rfl, hl⟩) | ⟨hm, hl⟩)
      · exact Or.inl h
      · exact Or.inr ⟨Or.inl rfl, hl⟩
      · exact Or.inr ⟨Or.inr hm, hl⟩
    · rintro (h | ⟨rfl | hm, hl⟩)
      · exact Or.inl (Or.inl h)
      · exact Or.inl (Or.inr ⟨rfl, hl⟩)
      · exact Or.inr ⟨hm, hl⟩

theorem mem_foldl_mark_grey (rs : List Handle) (s : Handle) :
    s ∈ (rs.foldl mark state).2 ↔
      s ∈ state.2 ∨ (s ∈ rs ∧ state.1.isLive s ∧ ¬ state.1.isMarked s) := by
  induction rs generalizing state with
  | nil => simp
  | cons r rest ih =>
    rw [List.foldl_cons, ih, mem_mark_grey, mark_isMarked, mark_isLive, List.mem_cons]
    by_cases hs : s = r
    · subst hs
      tauto
    · tauto

/-- What holds of marking at work: the marked objects are reached, and those that are
no longer listed have only marked successors. -/
structure Marking (h₀ : Heap) (roots : List Handle) (h : Heap) (grey : List Handle) : Prop where
  remarked : Remarked h₀ h
  sound : ∀ r, h.isMarked r → Reached h₀ roots r
  listed : ∀ r ∈ grey, h.isMarked r
  closed : ∀ r, h.isMarked r → r ∉ grey → ∀ o, h₀.get? r = some o →
    ∀ s ∈ o.references, h₀.isLive s → h.isMarked s
  rooted : ∀ r ∈ roots, h₀.isLive r → h.isMarked r

theorem references_clearMark (o : Object) : (clearMark o).references = o.references := rfl

theorem Remarked.followed_eq {h : Heap} (hm : Remarked h₀ h) {r : Handle} {o : Object}
    (ho : h₀.get? r = some o) : h.followed r = o.references := by
  have hc := hm.get?_clear r
  rw [ho] at hc
  simp only [followed]
  cases hr : h.get? r with
  | none => simp [hr] at hc
  | some p =>
    have hp : clearMark p = clearMark o := by simpa [hr] using hc
    change p.references = o.references
    rw [← references_clearMark p, hp, references_clearMark]

variable {roots : List Handle}

theorem marking_roots (hu : ∀ r, ¬ h₀.isMarked r) :
    Marking h₀ roots (roots.foldl mark (h₀, [])).1 (roots.foldl mark (h₀, [])).2 where
  remarked := foldl_mark_remarked roots (Remarked.refl h₀)
  sound r hr := by
    rcases (foldl_mark_isMarked roots r).mp hr with h | ⟨hm, hl⟩
    · exact absurd h (hu r)
    · exact .root hm hl
  listed r hr := by
    rcases (mem_foldl_mark_grey roots r).mp hr with h | ⟨hm, hl, -⟩
    · simp at h
    · exact (foldl_mark_isMarked roots r).mpr (Or.inr ⟨hm, hl⟩)
  closed r hr hg := by
    rcases (foldl_mark_isMarked roots r).mp hr with h | ⟨hm, hl⟩
    · exact absurd h (hu r)
    · exact absurd ((mem_foldl_mark_grey roots r).mpr (Or.inr ⟨hm, hl, hu r⟩)) hg
  rooted r hm hl := (foldl_mark_isMarked roots r).mpr (Or.inr ⟨hm, hl⟩)

/-- Following one listed object keeps the invariant. -/
theorem Marking.follow {h : Heap} {r : Handle} {rest : List Handle}
    (hm : Marking h₀ roots h (r :: rest)) :
    Marking h₀ roots ((h.followed r).foldl mark (h, rest)).1
      ((h.followed r).foldl mark (h, rest)).2 := by
  have hr : Reached h₀ roots r := hm.sound r (hm.listed r (List.mem_cons_self ..))
  obtain ⟨o, ho⟩ := isLive_iff.mp hr.isLive
  rw [hm.remarked.followed_eq ho]
  refine ⟨foldl_mark_remarked _ hm.remarked, fun s hs => ?_, fun s hs => ?_,
    fun s hs hg p hp t ht hl => ?_, fun s hs hl => ?_⟩
  · rcases (foldl_mark_isMarked _ s).mp hs with h | ⟨hmem, hl⟩
    · exact hm.sound s h
    · exact .step hr ho hmem (by rwa [hm.remarked.isLive_eq] at hl)
  · rcases (mem_foldl_mark_grey _ s).mp hs with h | ⟨hmem, hl, -⟩
    · exact (foldl_mark_isMarked _ s).mpr (Or.inl (hm.listed s (List.mem_cons_of_mem _ h)))
    · exact (foldl_mark_isMarked _ s).mpr (Or.inr ⟨hmem, hl⟩)
  · rw [foldl_mark_isMarked]
    by_cases hsr : s = r
    · -- the object just followed: all its live references are marked now
      subst hsr
      obtain rfl : o = p := Option.some.inj (ho.symm.trans hp)
      exact Or.inr ⟨ht, by rwa [hm.remarked.isLive_eq]⟩
    · have hold : h.isMarked s ∧ s ∉ rest := by
        rw [mem_foldl_mark_grey] at hg
        rw [foldl_mark_isMarked] at hs
        tauto
      refine Or.inl (hm.closed s hold.1 ?_ p hp t ht hl)
      simp [hsr, hold.2]
  · exact (foldl_mark_isMarked _ s).mpr (Or.inl (hm.rooted s hs hl))

theorem trace_marking {h : Heap} {grey : List Handle} (hm : Marking h₀ roots h grey) :
    Marking h₀ roots (trace h grey) [] := by
  fun_induction trace h grey with
  | case1 h => exact hm
  | case2 h r rest state ih => exact ih hm.follow

theorem markFrom_marking (hu : ∀ r, ¬ h₀.isMarked r) (roots : List Handle) :
    Marking h₀ roots (h₀.markFrom roots) [] :=
  trace_marking (marking_roots hu)

/-- With nothing left to follow the marked objects are the reached ones. -/
theorem Marking.isMarked_iff {h : Heap} (hm : Marking h₀ roots h []) (r : Handle) :
    h.isMarked r ↔ Reached h₀ roots r := by
  refine ⟨hm.sound r, fun hr => ?_⟩
  induction hr with
  | root hmem hl => exact hm.rooted _ hmem hl
  | step _ ho hmem hl ih => exact hm.closed _ ih (List.not_mem_nil) _ ho _ hmem hl

/-- Marking changes nothing but marks, whatever was marked before. -/
theorem trace_remarked {h₀ : Heap} {grey : List Handle} (hm : Remarked h₀ h) :
    Remarked h₀ (trace h grey) := by
  fun_induction trace h grey with
  | case1 h => exact hm
  | case2 h r rest state ih => exact ih (@foldl_mark_remarked h₀ (h, rest) _ hm)

theorem markFrom_remarked (h : Heap) (roots : List Handle) : Remarked h (h.markFrom roots) :=
  trace_remarked (@foldl_mark_remarked h (h, []) roots (.refl h))

/-! ## Sweeping -/

/-- What a sweep makes of one slot. -/
def sweptSlot (slot : Slot) : Slot :=
  match slot.object with
  | some o => if o.marked then changeSlot clearMark slot else ⟨slot.generation.next, 0, none⟩
  | none => slot

theorem Generation.next_ne (g : Generation) : g.next ≠ g := by
  intro he
  have hv : (g.val + 1) % generationCount = g.val := congrArg Fin.val he
  have hg := g.isLt
  have hc : generationCount = 2 ^ 18 := rfl
  by_cases hlast : g.val + 1 = generationCount
  · rw [hlast, Nat.mod_self] at hv
    omega
  · rw [Nat.mod_eq_of_lt (by omega)] at hv
    omega

theorem slot?_eq_some_iff {h : Heap} {r : Handle} {slot : Slot} :
    h.slot? r = some slot ↔
      h.slots[r.index.toNat]? = some slot ∧ slot.generation = r.generation := by
  simp only [slot?]
  cases h.slots[r.index.toNat]? with
  | none => simp
  | some slot' =>
    by_cases hg : slot'.generation = r.generation
    · simp only [hg, ↓reduceIte, Option.some.injEq]
      refine ⟨?_, And.left⟩
      rintro rfl
      exact ⟨rfl, hg⟩
    · simp only [hg, ↓reduceIte, reduceCtorEq, Option.some.injEq, false_iff, not_and]
      rintro rfl
      exact hg

theorem release_slots {h : Heap} {r : Handle} {slot : Slot} {o : Object}
    (hslot : h.slot? r = some slot) (ho : slot.object = some o) :
    (h.release r).slots = h.slots.setIfInBounds r.index.toNat ⟨slot.generation.next, 0, none⟩ ∧
      (h.release r).free = r.index :: h.free ∧ (h.release r).count = h.count - 1 ∧
      (h.release r).texts = h.texts := by
  obtain ⟨g, b, object⟩ := slot
  cases ho
  simp [release, hslot]

theorem release_texts (h : Heap) (r : Handle) : (h.release r).texts = h.texts := by
  simp only [release]
  split <;> rfl

theorem sweepSlot_texts (state : Heap × Nat) (i : Nat) :
    (sweepSlot state i).1.texts = state.1.texts := by
  simp only [sweepSlot]
  split
  · split
    · rfl
    · exact release_texts _ _
  · rfl

/-- The handle under which a sweep finds the object of a slot. -/
theorem slot?_ofNat {h : Heap} (hs : h.slots.size ≤ slotLimit) {i : Nat} {slot : Slot}
    (hslot : h.slots[i]? = some slot) : h.slot? ⟨UInt32.ofNat i, slot.generation⟩ = some slot := by
  obtain ⟨hi, -⟩ := Array.getElem?_eq_some_iff.mp hslot
  refine slot?_eq_some_iff.mpr ⟨?_, rfl⟩
  rw [toNat_ofNat_of_lt (Nat.lt_of_lt_of_le hi hs)]
  exact hslot

theorem sweepSlot_slots {state : Heap × Nat} (hs : state.1.slots.size ≤ slotLimit) (i j : Nat) :
    (sweepSlot state i).1.slots[j]? =
      if i = j then (state.1.slots[j]?).map sweptSlot else state.1.slots[j]? := by
  obtain ⟨h, freed⟩ := state
  simp only [sweepSlot]
  cases hslot : h.slots[i]? with
  | none =>
    by_cases hij : i = j
    · subst hij
      simp [hslot]
    · simp [hij]
  | some slot =>
    obtain ⟨hi, -⟩ := Array.getElem?_eq_some_iff.mp hslot
    have hn := toNat_ofNat_of_lt (Nat.lt_of_lt_of_le hi hs)
    have hfound := slot?_ofNat hs hslot
    obtain ⟨generation, bytes, object⟩ := slot
    cases object with
    | none =>
      by_cases hij : i = j
      · subst hij
        simp [hslot, sweptSlot]
      · simp [hij]
    | some o =>
      by_cases hm : o.marked
      · by_cases hij : i = j
        · subst hij
          simp [hm, Array.getElem?_modify, hslot, sweptSlot]
        · simp [hm, Array.getElem?_modify, hij]
      · simp only [hm, Bool.false_eq_true, ↓reduceIte, (release_slots hfound rfl).1, hn]
        by_cases hij : i = j
        · subst hij
          rw [Array.getElem?_setIfInBounds_self_of_lt hi, hslot]
          simp [sweptSlot, hm]
        · simp [hij]

theorem Arena.clearMark {h : Heap} (ha : h.Arena) (i : Nat) :
    Arena { h with slots := h.slots.modify i (changeSlot Heap.clearMark) } :=
  ha.congr (map_isOccupied_modify _ _ _ fun slot => isOccupied_changeSlot _ slot) rfl rfl

theorem Arena.release {h : Heap} (ha : h.Arena) {r : Handle} {slot : Slot} {o : Object}
    (hslot : h.slot? r = some slot) (ho : slot.object = some o) :
    (h.release r).Arena ∧ (h.release r).count + 1 = h.count := by
  obtain ⟨hslots, hfree, hcount, -⟩ := release_slots hslot ho
  have hat := (slot?_eq_some_iff.mp hslot).1
  obtain ⟨hi, rfl⟩ := Array.getElem?_eq_some_iff.mp hat
  have hocc : isOccupied h.slots[r.index.toNat] = true := by simp [isOccupied, ho]
  have hset : (h.release r).slots =
      h.slots.set r.index.toNat ⟨h.slots[r.index.toNat].generation.next, 0, none⟩ := by
    rw [hslots, Array.setIfInBounds_def, dif_pos hi]
  have hempty : ∀ j : UInt32, (h.release r).IsEmpty j.toNat ↔ j = r.index ∨ h.IsEmpty j.toNat := by
    intro j
    rw [isEmpty_iff, isEmpty_iff, hset, Array.map_set, Array.getElem?_set]
    by_cases hij : r.index.toNat = j.toNat
    · simp [UInt32.toNat.inj hij, isOccupied]
    · have hne : j ≠ r.index := fun he => hij (he ▸ rfl)
      simp [hij, hne]
  have hpos : 0 < h.slots.countP isOccupied :=
    Array.countP_pos_iff.mpr ⟨_, Array.getElem_mem hi, hocc⟩
  have hsize : (h.release r).slots.size ≤ slotLimit := by simpa [hset] using ha.size_le
  refine ⟨⟨hsize, ?_, fun j => ?_, ?_⟩, ?_⟩
  · rw [hfree, List.nodup_cons, ha.mem_free, isEmpty_iff]
    refine ⟨?_, ha.free_nodup⟩
    simp [hat, hocc]
  · rw [hfree, List.mem_cons, hempty, ha.mem_free]
  · rw [hcount, ha.count_eq, hset, Array.countP_set hi, hocc]
    simp [isOccupied]
  · rw [hcount, ha.count_eq]
    omega

/-- What a sweep has emptied and what is left of the objects are as many as there were. -/
theorem Arena.sweepSlot {state : Heap × Nat} (ha : state.1.Arena) (i : Nat) :
    (sweepSlot state i).1.Arena ∧
      (sweepSlot state i).2 + (sweepSlot state i).1.count = state.2 + state.1.count := by
  obtain ⟨h, freed⟩ := state
  simp only [Heap.sweepSlot]
  split
  · rename_i generation bytes o hslot
    split
    · exact ⟨ha.clearMark i, rfl⟩
    · obtain ⟨harena, hcount⟩ := ha.release (slot?_ofNat ha.size_le hslot) rfl
      simp only at hcount ⊢
      exact ⟨harena, by omega⟩
  · exact ⟨ha, rfl⟩

/-- Sweeping the first slots leaves the other ones as they are. -/
theorem foldl_sweepSlot {state : Heap × Nat} (ha : state.1.Arena) (n : Nat) :
    ((List.range n).foldl sweepSlot state).1.Arena ∧
      ((List.range n).foldl sweepSlot state).1.texts = state.1.texts ∧
      ∀ j, ((List.range n).foldl sweepSlot state).1.slots[j]? =
        if j < n then (state.1.slots[j]?).map sweptSlot else state.1.slots[j]? := by
  induction n with
  | zero => simpa using ha
  | succ n ih =>
    obtain ⟨hn, ht, hs⟩ := ih
    rw [List.range_succ, List.foldl_append]
    refine ⟨(hn.sweepSlot n).1, (sweepSlot_texts _ n).trans ht, fun j => ?_⟩
    change (sweepSlot _ n).1.slots[j]? = _
    rw [sweepSlot_slots hn.size_le, hs]
    by_cases hnj : n = j
    · simp [hnj]
    · have hlt : j < n + 1 ↔ j < n := by omega
      simp [hnj, hlt]

/-- The objects that a sweep counts are those that are gone after it. -/
theorem count_foldl_sweepSlot {state : Heap × Nat} (ha : state.1.Arena) (is : List Nat) :
    (is.foldl sweepSlot state).2 + (is.foldl sweepSlot state).1.count =
      state.2 + state.1.count := by
  induction is generalizing state with
  | nil => rfl
  | cons i rest ih =>
    obtain ⟨harena, hcount⟩ := ha.sweepSlot i
    exact (ih harena).trans hcount

theorem sweep_slots {h : Heap} (ha : h.Arena) (i : Nat) :
    h.sweep.1.slots[i]? = (h.slots[i]?).map sweptSlot := by
  have hswept := (@foldl_sweepSlot (h, 0) ha h.slots.size).2.2 i
  simp only at hswept
  rw [sweep, hswept]
  split
  · rfl
  · rw [Array.getElem?_eq_none (by omega)]
    rfl

/-- A sweep keeps the marked objects, without their marks. -/
theorem get?_sweep {h : Heap} (ha : h.Arena) (r : Handle) :
    h.sweep.1.get? r = if h.isMarked r then (h.get? r).map Heap.clearMark else none := by
  cases hslot : h.slots[r.index.toNat]? with
  | none => simp [isMarked, get?, slot?, sweep_slots ha, hslot]
  | some slot =>
    simp only [isMarked, get?, slot?, sweep_slots ha, hslot, Option.map_some]
    by_cases hg : slot.generation = r.generation
    · cases ho : slot.object with
      | none => simp [sweptSlot, ho, hg]
      | some o => by_cases hm : o.marked <;> simp [sweptSlot, changeSlot, ho, hg, hm]
    · cases ho : slot.object with
      | none => simp [sweptSlot, ho, hg]
      | some o => by_cases hm : o.marked <;> simp [sweptSlot, changeSlot, ho, hg, hm]

/-! ## Collections -/

theorem Remarked.arena {h : Heap} (hm : Remarked h₀ h) (ha : h₀.Arena) : h.Arena := by
  refine ha.congr ?_ (by rw [hm.eq]) (by rw [hm.eq])
  have hmap := congrArg (Array.map isOccupied) hm.slots
  simpa [Array.map_map, Function.comp_def] using hmap

def Unmarked (h : Heap) : Prop := ∀ r o, h.get? r = some o → o.marked = false

theorem Unmarked.not_isMarked {h : Heap} (hu : h.Unmarked) (r : Handle) : ¬ h.isMarked r := by
  rw [isMarked_iff]
  rintro ⟨o, ho, hm⟩
  simp [hu r o ho] at hm

theorem Unmarked.get?_clear {h : Heap} (hu : h.Unmarked) (r : Handle) :
    (h.get? r).map clearMark = h.get? r := by
  cases ho : h.get? r with
  | none => rfl
  | some o =>
    obtain ⟨marked, members, body⟩ := o
    have hm := hu r _ ho
    simp only at hm
    simp [clearMark, hm]

theorem WellFormed.not_isMarked {h : Heap} (hw : h.WellFormed) (r : Handle) : ¬ h.isMarked r :=
  Unmarked.not_isMarked hw.unmarked r

theorem get?_forgetTexts (h : Heap) (r : Handle) : h.forgetTexts.get? r = h.get? r := rfl

theorem isMarked_forgetTexts (h : Heap) (r : Handle) :
    h.forgetTexts.isMarked r = h.isMarked r := rfl

open Classical in
/-- What is found in a heap after a collection. -/
theorem Arena.get?_collect {h : Heap} (ha : h.Arena) (hu : h.Unmarked) (roots : List Handle)
    (r : Handle) :
    (h.collect roots).1.get? r = if Reached h roots r then h.get? r else none := by
  have hm := markFrom_marking hu.not_isMarked roots
  have harena : (h.markFrom roots).forgetTexts.Arena := (hm.remarked.arena ha).congr rfl rfl rfl
  change (h.markFrom roots).forgetTexts.sweep.1.get? r = _
  rw [get?_sweep harena, isMarked_forgetTexts, get?_forgetTexts, hm.remarked.get?_clear,
    hu.get?_clear]
  simp only [hm.isMarked_iff]

theorem Arena.isLive_collect {h : Heap} (ha : h.Arena) (hu : h.Unmarked) (roots : List Handle)
    (r : Handle) : (h.collect roots).1.isLive r ↔ Reached h roots r := by
  rw [isLive, ha.get?_collect hu]
  split
  · rename_i hr
    exact iff_of_true hr.isLive hr
  · rename_i hr
    simpa using hr

open Classical in
theorem get?_collect {h : Heap} (hw : h.WellFormed) (roots : List Handle) (r : Handle) :
    (h.collect roots).1.get? r = if Reached h roots r then h.get? r else none :=
  hw.toArena.get?_collect hw.unmarked roots r

theorem isLive_collect {h : Heap} (hw : h.WellFormed) (roots : List Handle) (r : Handle) :
    (h.collect roots).1.isLive r ↔ Reached h roots r :=
  hw.toArena.isLive_collect hw.unmarked roots r

theorem get?_collect_of_reached {h : Heap} (hw : h.WellFormed) {roots : List Handle} {r : Handle}
    (hr : Reached h roots r) : (h.collect roots).1.get? r = h.get? r := by
  rw [get?_collect hw, if_pos hr]

theorem get?_of_get?_collect {h : Heap} (hw : h.WellFormed) {roots : List Handle} {r : Handle}
    {o : Object} (ho : (h.collect roots).1.get? r = some o) : h.get? r = some o := by
  rw [get?_collect hw] at ho
  split at ho
  · exact ho
  · simp at ho

theorem find_text_collect {h : Heap} (hw : h.WellFormed) (roots : List Handle) (s : String)
    (r : Handle) : (h.collect roots).1.texts.find? s = some r ↔
      h.texts.find? s = some r ∧ Reached h roots r := by
  have hm := markFrom_marking hw.not_isMarked roots
  have ha : (h.markFrom roots).forgetTexts.Arena := (hm.remarked.arena hw.toArena).congr rfl rfl rfl
  have ht : (h.collect roots).1.texts = (h.markFrom roots).forgetTexts.texts :=
    (@foldl_sweepSlot ((h.markFrom roots).forgetTexts, 0) ha _).2.1
  have hold : (h.markFrom roots).texts = h.texts := by rw [hm.remarked.eq]
  rw [ht, forgetTexts, Table.find?_filter, hold, Option.filter_eq_some_iff]
  simp only [hm.isMarked_iff]

theorem WellFormed.collect {h : Heap} (hw : h.WellFormed) (roots : List Handle) :
    (h.collect roots).1.WellFormed where
  toArena := by
    have hm := markFrom_marking hw.not_isMarked roots
    have ha : (h.markFrom roots).forgetTexts.Arena :=
      (hm.remarked.arena hw.toArena).congr rfl rfl rfl
    exact (@foldl_sweepSlot ((h.markFrom roots).forgetTexts, 0) ha _).1.congr rfl rfl rfl
  unmarked r o ho := hw.unmarked r o (get?_of_get?_collect hw ho)
  find_text s r := by
    rw [find_text_collect hw, hw.find_text]
    constructor
    · rintro ⟨⟨o, ho, hb⟩, hr⟩
      exact ⟨o, by rw [get?_collect_of_reached hw hr, ho], hb⟩
    · rintro ⟨o, ho, hb⟩
      exact ⟨⟨o, get?_of_get?_collect hw ho, hb⟩,
        (isLive_collect hw roots r).mp (isLive_iff.mpr ⟨o, ho⟩)⟩

theorem size_mark (state : Heap × List Handle) (r : Handle) :
    (mark state r).1.slots.size = state.1.slots.size := by
  obtain ⟨h, grey⟩ := state
  simp only [mark]
  split
  · split
    · rfl
    · simp [modify]
  · rfl

theorem size_foldl_mark (rs : List Handle) (state : Heap × List Handle) :
    (rs.foldl mark state).1.slots.size = state.1.slots.size := by
  induction rs generalizing state with
  | nil => rfl
  | cons r rest ih => rw [List.foldl_cons, ih, size_mark]

theorem size_trace (h : Heap) (grey : List Handle) :
    (trace h grey).slots.size = h.slots.size := by
  fun_induction trace h grey with
  | case1 h => rfl
  | case2 h r rest state ih => rw [ih, size_foldl_mark]

theorem size_release (h : Heap) (r : Handle) : (h.release r).slots.size = h.slots.size := by
  simp only [release]
  split <;> simp

theorem size_sweepSlot (state : Heap × Nat) (i : Nat) :
    (sweepSlot state i).1.slots.size = state.1.slots.size := by
  simp only [sweepSlot]
  split
  · split
    · simp
    · exact size_release _ _
  · rfl

theorem size_foldl_sweepSlot (is : List Nat) (state : Heap × Nat) :
    (is.foldl sweepSlot state).1.slots.size = state.1.slots.size := by
  induction is generalizing state with
  | nil => rfl
  | cons i rest ih => rw [List.foldl_cons, ih, size_sweepSlot]

theorem size_collect (h : Heap) (roots : List Handle) :
    (h.collect roots).1.slots.size = h.slots.size := by
  change (List.foldl sweepSlot ((h.markFrom roots).forgetTexts, 0) _).1.slots.size = _
  rw [size_foldl_sweepSlot]
  exact (size_trace _ _).trans (size_foldl_mark _ _)

/-- What a collection does to the objects of a heap: the reached ones stay as they are,
under their handles, and the handles of all others are refused. -/
structure KeepsReached (h : Heap) (roots : List Handle) (h' : Heap) (stats : Stats) : Prop where
  isLive : ∀ r, h'.isLive r ↔ Reached h roots r
  get? : ∀ r, Reached h roots r → h'.get? r = h.get? r
  refused : ∀ r, ¬ Reached h roots r → h'.get r = .error .dangling
  find_text : ∀ s r, h'.texts.find? s = some r ↔
    h.texts.find? s = some r ∧ Reached h roots r
  wellFormed : h'.WellFormed
  live : stats.live = h'.handles.length
  freed : stats.freed + stats.live = h.handles.length

/-- A collection counts the objects that it takes away. -/
theorem freed_collect {h : Heap} (ha : h.Arena) (roots : List Handle) :
    (h.collect roots).2.freed + (h.collect roots).1.count = h.count := by
  have hm := markFrom_remarked h roots
  have hswept := @count_foldl_sweepSlot ((h.markFrom roots).forgetTexts, 0)
    ((hm.arena ha).congr rfl rfl rfl) (List.range (h.markFrom roots).forgetTexts.slots.size)
  have hcount : (h.markFrom roots).forgetTexts.count = h.count := by
    change (h.markFrom roots).count = h.count
    rw [hm.eq]
  exact hswept.trans ((Nat.zero_add _).trans hcount)

theorem collect_keepsReached {h : Heap} (hw : h.WellFormed) (roots : List Handle) :
    KeepsReached h roots (h.collect roots).1 (h.collect roots).2 where
  isLive := isLive_collect hw roots
  get? _ hr := get?_collect_of_reached hw hr
  refused r hr := by
    have hn : (h.collect roots).1.get? r = none := by rw [get?_collect hw, if_neg hr]
    simp only [Heap.get, hn]
  find_text := find_text_collect hw roots
  wellFormed := hw.collect roots
  live := (hw.collect roots).count_eq_length
  freed := (freed_collect hw.toArena roots).trans hw.count_eq_length

/-- Two arrays that contain each other, and a text that nothing refers to. -/
def knot : Heap :=
  let inner := empty.alloc (.array #[])
  let outer := inner.1.alloc (.array #[.ofHandle inner.2])
  let tied := outer.1.update inner.2 (changeArray (·.push (.ofHandle outer.2)))
  (tied.intern "loose").1

theorem changeArray_marked (f : Array Value → Array Value) (o : Object) :
    (changeArray f o).marked = o.marked := by
  simp only [changeArray]
  split <;> rfl

theorem changeArray_text (f : Array Value → Array Value) (o : Object) (s : String) :
    (changeArray f o).body = .text s ↔ o.body = .text s := by
  simp only [changeArray]
  split <;> simp

theorem knot_wellFormed : knot.WellFormed := by
  have hempty : empty.WellFormed := withThreshold_wellFormed _ _
  have hinner : (empty.alloc (.array #[])).1.WellFormed := hempty.alloc (by simp) (by decide)
  have houter : ((empty.alloc (.array #[])).1.alloc
      (.array #[.ofHandle (empty.alloc (.array #[])).2])).1.WellFormed :=
    hinner.alloc (by simp) (by decide)
  refine (houter.update (fun o _ => changeArray_marked _ o) fun o _ => changeArray_text _ o).intern ?_
  refine Nat.le_trans (size_intern_le _ _) ?_
  rw [size_update]
  decide

/-- A collection with one root in the knot keeps both arrays; a root in a slot that was
never filled does no harm. -/
theorem knot_collect_keepsReached :
    knot.WellFormed ∧ KeepsReached knot [⟨1, .zero⟩, ⟨7, .zero⟩]
      (knot.collect [⟨1, .zero⟩, ⟨7, .zero⟩]).1 (knot.collect [⟨1, .zero⟩, ⟨7, .zero⟩]).2 :=
  ⟨knot_wellFormed, collect_keepsReached knot_wellFormed _⟩

end Heap
end FiberMachine
