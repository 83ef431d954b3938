import FiberMachine.Proofs.Heap.Collection

/-!
# The books of a heap

Whatever happens to a heap, its free list names slots that are there and its number of
objects covers the slots that are filled. So an object that goes into an emptied slot
finds that slot, and there is an object to take away from the number when a slot is
emptied. Bodies of fibers stay as good as they were when they came in.
-/

namespace FiberMachine

/-- The body of a fiber in a slot is good. -/
def Slot.Good (good : Fiber → Prop) (slot : Slot) : Prop :=
  ∀ o f, slot.object = some o → o.body = .fiber (some f) → good f

namespace Heap

structure Ledger (good : Fiber → Prop) (h : Heap) : Prop where
  free : ∀ i ∈ h.free, i.toNat < h.slots.size
  count : h.slots.countP isOccupied ≤ h.count
  fibers : ∀ slot ∈ h.slots, slot.Good good

/-- A change that makes no other fiber of an object. -/
def KeepsGood (good : Fiber → Prop) (f : Object → Object) : Prop :=
  ∀ o b, (f o).body = .fiber (some b) → good b ∨ o.body = .fiber (some b)

theorem good_changeSlot {good : Fiber → Prop} {f : Object → Object} {slot : Slot}
    (hf : KeepsGood good f) (hs : slot.Good good) : (changeSlot f slot).Good good := by
  intro o b ho hb
  obtain ⟨p, hp, rfl⟩ := Option.map_eq_some_iff.mp ho
  exact (hf p b hb).elim id (hs p b hp)

namespace Ledger

variable {good : Fiber → Prop} {h h' : Heap}

theorem congr (hl : Ledger good h) (hs : h'.slots = h.slots) (hf : h'.free = h.free)
    (hc : h'.count = h.count) : Ledger good h' :=
  ⟨by rw [hs, hf]; exact hl.free, by rw [hs, hc]; exact hl.count, by rw [hs]; exact hl.fibers⟩

theorem withThreshold (threshold growth : UInt64) :
    Ledger good (withThreshold threshold growth) :=
  ⟨nofun, Nat.le_refl _, fun _ hs => absurd hs (Array.not_mem_empty _)⟩

theorem reallocate (hl : Ledger good h) (old new : UInt64) : Ledger good (h.reallocate old new) :=
  hl.congr rfl rfl rfl

/-- A change of slots that keeps the filled ones filled and the empty ones empty. -/
theorem ofSlots (hl : Ledger good h) (hocc : h'.slots.map isOccupied = h.slots.map isOccupied)
    (hf : h'.free = h.free) (hc : h'.count = h.count)
    (hgood : ∀ slot ∈ h'.slots, slot.Good good) : Ledger good h' where
  free := by
    have hsize : h'.slots.size = h.slots.size := by simpa using congrArg Array.size hocc
    rw [hf, hsize]
    exact hl.free
  count := by
    have hmap : ∀ slots : Array Slot, slots.countP isOccupied =
        (slots.map isOccupied).countP id := by simp [Array.countP_map]
    rw [hmap, hocc, ← hmap, hc]
    exact hl.count
  fibers := hgood

theorem forall_mem_modify {slots : Array Slot} {i : Nat} {f : Slot → Slot} {p : Slot → Prop}
    (hp : ∀ slot ∈ slots, p slot) (hf : ∀ slot, p slot → p (f slot)) :
    ∀ slot ∈ slots.modify i f, p slot := by
  intro slot hslot
  obtain ⟨j, hj, rfl⟩ := Array.mem_iff_getElem.mp hslot
  rw [Array.getElem_modify]
  have hmem := hp _ (Array.getElem_mem (by simpa using hj))
  split
  · exact hf _ hmem
  · exact hmem

theorem modify (hl : Ledger good h) (r : Handle) {f : Object → Object} (hf : KeepsGood good f) :
    Ledger good (h.modify r f) := by
  unfold Heap.modify
  refine hl.ofSlots ?_ rfl rfl ?_
  · dsimp only
    refine map_isOccupied_modify _ _ _ fun slot => ?_
    split
    · exact isOccupied_changeSlot f slot
    · rfl
  · dsimp only
    refine forall_mem_modify hl.fibers fun slot hs => ?_
    split
    · exact good_changeSlot hf hs
    · exact hs

theorem update (hl : Ledger good h) (r : Handle) {f : Object → Object} (hf : KeepsGood good f) :
    Ledger good (h.update r f) := by
  have hm := hl.modify r hf
  refine hm.ofSlots (recount_eq _ r).1 (recount_eq _ r).2.1 (recount_eq _ r).2.2.1 ?_
  simp only [Heap.update, recount]
  split
  · split
    · exact hm.fibers
    · rw [reallocate_slots]
      dsimp only
      exact forall_mem_modify hm.fibers fun _ hs => hs
  · exact hm.fibers

/-! ## New objects -/

theorem fillNew (hl : Ledger good h) {o : Object} (ho : ∀ f, o.body = .fiber (some f) → good f)
    (bytes : UInt64) : Ledger good (h.fillNew o bytes).1 where
  free i hi := by
    simpa [Heap.fillNew] using Nat.lt_succ_of_lt (hl.free i hi)
  count := by
    simp only [Heap.fillNew, Array.countP_push]
    exact Nat.add_le_add hl.count (by split <;> omega)
  fibers slot hs := by
    rcases Array.mem_push.mp hs with hs | rfl
    · exact hl.fibers slot hs
    · intro p f hp
      cases hp
      exact ho f

theorem countP_fill (slots : Array Slot) (i : Nat) (slot : Slot) :
    (slots.setIfInBounds i slot).countP isOccupied ≤ slots.countP isOccupied + 1 := by
  by_cases hi : i < slots.size
  · rw [Array.setIfInBounds_def, dif_pos hi, Array.countP_set]
    split <;> split <;> omega
  · rw [Array.setIfInBounds_eq_of_size_le (Nat.not_lt.mp hi)]
    omega

theorem countP_empty {slots : Array Slot} {i : Nat} (hi : i < slots.size)
    (ho : isOccupied slots[i]) (generation : Generation) (bytes : UInt64) :
    (slots.setIfInBounds i ⟨generation, bytes, none⟩).countP isOccupied + 1 =
      slots.countP isOccupied := by
  have hpos : 0 < slots.countP isOccupied :=
    Array.countP_pos_iff.mpr ⟨_, Array.getElem_mem hi, ho⟩
  have hnone : isOccupied ⟨generation, bytes, none⟩ = false := rfl
  rw [Array.setIfInBounds_def, dif_pos hi, Array.countP_set, if_pos ho, hnone, if_neg nofun]
  omega

theorem fillFree (hl : Ledger good h) {o : Object} (ho : ∀ f, o.body = .fiber (some f) → good f)
    (index : UInt32) (generation : Generation) (bytes : UInt64) :
    Ledger good (h.fillFree index generation o bytes).1 where
  free i hi := by
    simpa [Heap.fillFree] using hl.free i (List.mem_of_mem_tail hi)
  count := Nat.le_trans (countP_fill ..) (Nat.succ_le_succ hl.count)
  fibers slot hs := by
    rcases Array.mem_or_eq_of_mem_setIfInBounds hs with hs | rfl
    · exact hl.fibers slot hs
    · intro p f hp
      cases hp
      exact ho f

theorem alloc (hl : Ledger good h) {body : Body} (hb : ∀ f, body = .fiber (some f) → good f) :
    Ledger good (h.alloc body).1 := by
  have hr := hl.reallocate 0 (UInt64.ofNat (Object.ofBody body).bytes)
  simp only [Heap.alloc]
  split
  · exact hr.fillNew hb _
  · split
    · exact hr.fillNew hb _
    · exact hr.fillFree hb _ _ _

theorem intern (hl : Ledger good h) (s : String) : Ledger good (h.intern s).1 := by
  simp only [Heap.intern]
  split
  · exact hl
  · have ha : Ledger good (h.alloc (.text s)).1 := hl.alloc (by simp)
    exact ha.congr rfl rfl rfl

/-! ## Collections -/

theorem mark {state : Heap × List Handle} (hl : Ledger good state.1) (r : Handle) :
    Ledger good (mark state r).1 := by
  obtain ⟨h, grey⟩ := state
  simp only [Heap.mark]
  split
  · split
    · exact hl
    · exact Ledger.modify hl r fun _ _ hb => Or.inr hb
  · exact hl

theorem foldl_mark (rs : List Handle) {state : Heap × List Handle} (hl : Ledger good state.1) :
    Ledger good (rs.foldl Heap.mark state).1 := by
  induction rs generalizing state with
  | nil => exact hl
  | cons r rest ih => exact ih (hl.mark r)

theorem trace (hl : Ledger good h) (grey : List Handle) : Ledger good (trace h grey) := by
  fun_induction Heap.trace h grey with
  | case1 h => exact hl
  | case2 h r rest state ih => exact ih (@foldl_mark _ _ (h, rest) hl)

theorem markFrom (hl : Ledger good h) (roots : List Handle) : Ledger good (h.markFrom roots) :=
  trace (@foldl_mark _ roots (h, []) hl) _

theorem forgetTexts (hl : Ledger good h) : Ledger good h.forgetTexts := hl.congr rfl rfl rfl

/-- A slot that is emptied held one of the objects that are counted. -/
theorem release (hl : Ledger good h) (r : Handle) : Ledger good (h.release r) := by
  simp only [Heap.release]
  split
  · rename_i generation bytes o hslot
    obtain ⟨hi, hget⟩ := Array.getElem?_eq_some_iff.mp (slot?_eq_some_iff.mp hslot).1
    have hocc : isOccupied h.slots[r.index.toNat] := by simp [hget, isOccupied]
    refine reallocate ⟨fun j hj => ?_, ?_, fun slot hs => ?_⟩ _ _
    · rcases List.mem_cons.mp hj with rfl | hj
      · simpa using hi
      · simpa using hl.free j hj
    · have hcount := hl.count
      have hempty := countP_empty hi hocc generation.next 0
      dsimp only
      omega
    · rcases Array.mem_or_eq_of_mem_setIfInBounds hs with hs | rfl
      · exact hl.fibers slot hs
      · intro p f hp
        simp at hp
  · exact hl

theorem sweepSlot {state : Heap × Nat} (hl : Ledger good state.1) (i : Nat) :
    Ledger good (sweepSlot state i).1 := by
  obtain ⟨h, freed⟩ := state
  simp only [Heap.sweepSlot]
  split
  · split
    · refine hl.ofSlots ?_ rfl rfl ?_
      · exact map_isOccupied_modify _ _ _ (isOccupied_changeSlot clearMark)
      · exact forall_mem_modify hl.fibers fun slot hs =>
          good_changeSlot (fun _ _ hb => Or.inr hb) hs
    · exact hl.release _
  · exact hl

theorem foldl_sweepSlot {state : Heap × Nat} (hl : Ledger good state.1) (is : List Nat) :
    Ledger good (is.foldl Heap.sweepSlot state).1 := by
  induction is generalizing state with
  | nil => exact hl
  | cons i rest ih => exact ih (hl.sweepSlot i)

theorem collect (hl : Ledger good h) (roots : List Handle) : Ledger good (h.collect roots).1 :=
  (@foldl_sweepSlot _ (_, 0) (hl.markFrom roots).forgetTexts _).congr rfl rfl rfl

end Ledger

end Heap

end FiberMachine
