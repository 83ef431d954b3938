import FiberMachine.Proofs.Object.Limits

/-!
# Operands below a level

An operation that takes its operands from above a level leaves all operands below that
level as they are.
-/

namespace FiberMachine

namespace OperandStack

variable {s s' : OperandStack} {v w : Value} {b distance count : Nat}

/-- Nothing below a level differs. -/
structure SameBelow (b : Nat) (s s' : OperandStack) : Prop where
  limit : s'.limit = s.limit
  get? : ∀ i < b, s'.get? i = s.get? i

namespace SameBelow

theorem refl (b : Nat) (s : OperandStack) : SameBelow b s s := ⟨rfl, fun _ _ => rfl⟩

theorem trans {s'' : OperandStack} (h : SameBelow b s s') (h' : SameBelow b s' s'') :
    SameBelow b s s'' :=
  ⟨h'.limit.trans h.limit, fun i hi => (h'.get? i hi).trans (h.get? i hi)⟩

theorem mono {b' : Nat} (hb : b' ≤ b) (h : SameBelow b s s') : SameBelow b' s s' :=
  ⟨h.limit, fun i hi => h.get? i (Nat.lt_of_lt_of_le hi hb)⟩

end SameBelow

/-- An operation that takes `n` operands from above any level and leaves `k` there. -/
class Takes (n : Nat) (f : OperandStack → Except Fault OperandStack) (k : outParam Nat) :
    Prop where
  below : ∀ b s s', b + n ≤ s.size → f s = .ok s' → SameBelow b s s' ∧ b + k ≤ s'.size

theorem sameBelow_pop (h : s.pop = .ok (v, s')) (hb : b + 1 ≤ s.size) :
    SameBelow b s s' ∧ s'.size + 1 = s.size := by
  obtain ⟨rfl, -⟩ := pop_eq_ok h
  simp only [size] at hb ⊢
  refine ⟨⟨rfl, fun i hi => ?_⟩, by simp; omega⟩
  simp only [get?, Array.getElem?_pop]
  exact if_pos (by omega)

theorem get?_truncate (s : OperandStack) (count i : Nat) :
    (s.truncate count).get? i = if i < count then s.get? i else none := by
  simp only [get?, truncate, Array.shrink_eq_take]
  grind

theorem size_truncate (hc : count ≤ s.size) : (s.truncate count).size = count := by
  simp only [size] at hc
  simp [truncate, size, hc]

theorem sameBelow_truncate (hb : b ≤ count) : SameBelow b s (s.truncate count) :=
  ⟨rfl, fun i hi => by rw [get?_truncate, if_pos (by omega)]⟩

theorem sameBelow_push (h : s.push v = .ok s') (hb : b ≤ s.size) : SameBelow b s s' := by
  obtain ⟨rfl, -⟩ := push_eq_ok h
  refine ⟨rfl, fun i hi => ?_⟩
  simp only [get?, size] at hb ⊢
  grind

theorem sameBelow_set? {i : Nat} (h : s.set? i v = some s') (hb : b ≤ i) : SameBelow b s s' := by
  simp only [set?] at h
  split at h <;> cases h
  refine ⟨rfl, fun j hj => ?_⟩
  simp only [get?]
  grind

theorem poke_eq_ok (h : s.poke distance v = .ok s') : distance < s.size ∧
    s' = { s with values := s.values.setIfInBounds (s.size - 1 - distance) v } := by
  by_cases hd : distance < s.values.size
  · rw [poke_of_lt hd] at h
    cases h
    exact ⟨hd, rfl⟩
  · rw [poke_of_le (Nat.not_lt.mp hd)] at h
    cases h

theorem size_of_poke (h : s.poke distance v = .ok s') : s'.size = s.size := by
  obtain ⟨-, rfl⟩ := poke_eq_ok h
  simp [size]

theorem replaceTop_eq_ok (h : s.replaceTop count v = .ok s') :
    count ≤ s.size ∧ (s.truncate (s.size - count)).push v = .ok s' := by
  by_cases hc : count ≤ s.size
  · rw [replaceTop_of_le hc] at h
    exact ⟨hc, h⟩
  · rw [replaceTop_of_lt (Nat.not_le.mp hc)] at h
    cases h

instance (n : Nat) (v : Value) : Takes n (·.push v) (n + 1) := by
  refine ⟨fun b s s' hb h => ⟨sameBelow_push h (by omega), ?_⟩⟩
  obtain ⟨rfl, -⟩ := push_eq_ok h
  simp only [size, Array.size_push] at hb ⊢
  omega

theorem takes_poke {n : Nat} (hd : distance < n) (v : Value) : Takes n (·.poke distance v) n := by
  refine ⟨fun b s s' hb h => ?_⟩
  obtain ⟨-, rfl⟩ := poke_eq_ok h
  refine ⟨⟨rfl, fun i hi => ?_⟩, by simpa [size] using hb⟩
  simp only [get?]
  grind

instance (n : Nat) (v : Value) : Takes (n + 1) (·.poke 0 v) (n + 1) := takes_poke (by omega) v

instance (n : Nat) (v : Value) : Takes (n + 3) (·.poke 2 v) (n + 3) := takes_poke (by omega) v

instance (count : Nat) (v : Value) : Takes count (·.replaceTop count v) 1 := by
  refine ⟨fun b s s' hb h => ?_⟩
  obtain ⟨hc, hpush⟩ := replaceTop_eq_ok h
  have hsize := size_truncate (s := s) (Nat.sub_le s.size count)
  have hb' : b ≤ s.size - count := by omega
  have hp := Takes.below (n := 0) (f := (·.push v)) b _ _ (by omega) hpush
  exact ⟨(sameBelow_truncate hb').trans hp.1, hp.2⟩

/-! ## Calls -/

theorem ext_get? (hl : s'.limit = s.limit) (h : ∀ i, s'.get? i = s.get? i) : s' = s := by
  obtain ⟨values, limit⟩ := s
  obtain ⟨values', limit'⟩ := s'
  cases hl
  have hv : values' = values := Array.ext_getElem? h
  rw [hv]

theorem SameBelow.truncate_eq (h : SameBelow b s s') : s'.truncate b = s.truncate b := by
  refine ext_get? h.limit fun i => ?_
  rw [get?_truncate, get?_truncate]
  split
  · exact h.get? i (by assumption)
  · rfl

/-- A value that is there may be put there again. -/
theorem poke_of_peek (h : s.peek distance = .ok v) : s.poke distance v = .ok s := by
  by_cases hd : distance < s.values.size
  · rw [peek_of_lt hd] at h
    cases h
    rw [poke_of_lt hd, Array.setIfInBounds_def, dif_pos (by omega), Array.set_getElem_self]
  · rw [peek_of_le (Nat.not_lt.mp hd)] at h
    cases h

theorem peek_poke (h : s.poke distance v = .ok s') : s'.peek distance = .ok v := by
  obtain ⟨hd, rfl⟩ := poke_eq_ok h
  simp only [size] at hd
  rw [peek_of_lt (by simpa using hd)]
  simp only [size, Array.size_setIfInBounds, Except.ok.injEq]
  exact Array.getElem_setIfInBounds_self _

/-- The last of two values that are put in one place stays. -/
theorem poke_poke (h : s.poke distance v = .ok s') : s'.poke distance w = s.poke distance w := by
  obtain ⟨hd, rfl⟩ := poke_eq_ok h
  rw [poke_of_lt hd, poke_of_lt (by simpa [size] using hd)]
  simp [size]

/-- What is replaced does not matter. -/
theorem replaceTop_poke (h : s.poke distance v = .ok s') :
    s'.replaceTop (distance + 1) w = s.replaceTop (distance + 1) w := by
  have hd := (poke_eq_ok h).1
  have hsize := size_of_poke h
  have hbelow := ((takes_poke (Nat.lt_succ_self distance) v).below (s.size - (distance + 1)) _ _
    (by omega) h).1
  rw [replaceTop_of_le (by omega), replaceTop_of_le (by omega), hsize, hbelow.truncate_eq]

/-- Nor does what is below the topmost ones. -/
theorem top_poke (h : s.poke distance v = .ok s') : s'.top distance = s.top distance := by
  obtain ⟨hd, rfl⟩ := poke_eq_ok h
  simp only [size] at hd
  rw [top_of_le (by simpa using Nat.le_of_lt hd), top_of_le (Nat.le_of_lt hd)]
  simp only [size, Array.size_setIfInBounds, Except.ok.injEq]
  refine Array.ext_getElem? fun i => ?_
  simp only [Array.getElem?_extract]
  grind

theorem poke_push (h : s.push v = .ok s') : s'.poke 0 w = s.push w := by
  obtain ⟨rfl, hlt⟩ := push_eq_ok h
  have hroom : ¬ s.limit ≤ s.values.size := Nat.not_le.mpr hlt
  rw [push, if_neg hroom, poke_of_lt (by simp)]
  congr 2
  simp only [Array.size_push, Nat.add_sub_cancel, Nat.sub_zero]
  grind

theorem poke_replaceTop (h : s.replaceTop count v = .ok s') :
    s'.poke 0 w = s.replaceTop count w := by
  obtain ⟨hc, hpush⟩ := replaceTop_eq_ok h
  rw [replaceTop_of_le hc, poke_push hpush]

end OperandStack

end FiberMachine
