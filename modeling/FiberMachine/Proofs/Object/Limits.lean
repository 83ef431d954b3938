import FiberMachine.Config
import FiberMachine.Object.Fiber

/-!
# Fibers within limits

A configuration bounds the operands and the frames of a fiber, and no frame reads on
behind its code. The operations on operands check the bound before they go beyond it.
-/

namespace FiberMachine

theorem Config.maxFrames_pos {c : Config} (h : 0 < c.stackSlots) : 0 < c.maxFrames := by
  refine Nat.pos_of_ne_zero fun h0 => ?_
  simp [stackSlots, h0] at h

/-- A fiber keeps to the limits of a configuration, which leaves room for its function. -/
structure Fiber.Within (c : Config) (f : Fiber) : Prop where
  slots : 0 < c.stackSlots
  limit : f.stack.limit = c.stackSlots
  operands : f.stack.size ≤ c.stackSlots
  frames : f.frames.length ≤ c.maxFrames
  ip : ∀ frame ∈ f.frames, frame.ip ≤ frame.chunk.code.size

namespace OperandStack

variable {s s' : OperandStack} {v : Value} {count : Nat}

/-- One stack has the limit of another, and is within it if that is. -/
structure Fits (s s' : OperandStack) : Prop where
  limit : s'.limit = s.limit
  size : s.size ≤ s.limit → s'.size ≤ s'.limit

/-- An operation keeps to the limit of the stack. -/
class Limited (f : OperandStack → Except Fault OperandStack) : Prop where
  fits : ∀ s s', f s = .ok s' → Fits s s'

theorem fits_of_size_le (hl : s'.limit = s.limit) (hs : s'.size ≤ s.size) : Fits s s' :=
  ⟨hl, fun h => hl ▸ Nat.le_trans hs h⟩

theorem Fits.trans {s'' : OperandStack} (h : Fits s s') (h' : Fits s' s'') : Fits s s'' :=
  ⟨h'.limit.trans h.limit, fun hs => h'.size (h.size hs)⟩

theorem push_eq_ok (h : s.push v = .ok s') :
    s' = { s with values := s.values.push v } ∧ s.size < s.limit := by
  simp only [push] at h
  split at h
  · cases h
  · cases h
    exact ⟨rfl, Nat.not_le.mp (by assumption)⟩

theorem pop_eq_ok (h : s.pop = .ok (v, s')) :
    s' = { s with values := s.values.pop } ∧ s.values.back? = some v := by
  simp only [pop] at h
  split at h
  · cases h
    exact ⟨rfl, by assumption⟩
  · cases h

theorem fits_push (h : s.push v = .ok s') : Fits s s' := by
  obtain ⟨rfl, hlt⟩ := push_eq_ok h
  refine ⟨rfl, fun _ => ?_⟩
  rw [size, Array.size_push]
  exact hlt

theorem fits_pop (h : s.pop = .ok (v, s')) : Fits s s' := by
  obtain ⟨rfl, -⟩ := pop_eq_ok h
  exact fits_of_size_le rfl (by simp [size])

theorem fits_truncate (s : OperandStack) (count : Nat) : Fits s (s.truncate count) :=
  fits_of_size_le rfl (Nat.le_trans (Nat.le_of_eq Array.size_shrink) (Nat.min_le_right ..))

instance (v : Value) : Limited (·.push v) := ⟨fun _ _ => fits_push⟩

instance (distance : Nat) (v : Value) : Limited (·.poke distance v) := by
  refine ⟨fun s s' h => ?_⟩
  by_cases hd : distance < s.values.size
  · rw [poke_of_lt hd] at h
    cases h
    exact fits_of_size_le rfl (by simp [size])
  · rw [poke_of_le (Nat.not_lt.mp hd)] at h
    cases h

instance (count : Nat) (v : Value) : Limited (·.replaceTop count v) := by
  refine ⟨fun s s' h => ?_⟩
  by_cases hc : count ≤ s.size
  · rw [replaceTop_of_le hc] at h
    exact (fits_truncate s _).trans (fits_push h)
  · rw [replaceTop_of_lt (Nat.not_le.mp hc)] at h
    cases h

instance (index : Nat) (v : Value) (fault : Fault) :
    Limited fun s => (s.set? index v).elim (.error fault) .ok := by
  refine ⟨fun s s' h => ?_⟩
  simp only [set?] at h
  split at h
  · cases h
    exact fits_of_size_le rfl (by simp [size])
  · cases h

/-- A stack that takes an operand has room for operands. -/
theorem limit_pos_of_pushAll {vs : List Value} (h : s.pushAll (v :: vs) = .ok s') : 0 < s.limit := by
  simp only [pushAll, Bind.bind, Except.bind] at h
  split at h
  · cases h
  · rename_i hpush
    exact Nat.zero_lt_of_lt (push_eq_ok hpush).2

theorem fits_pushAll {vs : List Value} (h : s.pushAll vs = .ok s') : Fits s s' := by
  induction vs generalizing s with
  | nil =>
    cases h
    exact fits_of_size_le rfl (Nat.le_refl _)
  | cons v vs ih =>
    simp only [pushAll, Bind.bind, Except.bind] at h
    split at h
    · cases h
    · exact (fits_push (by assumption)).trans (ih h)

end OperandStack

namespace Fiber.Within

variable {c : Config} {f : Fiber}

theorem withStack (hf : f.Within c) {stack : OperandStack} (hs : OperandStack.Fits f.stack stack) :
    Within c { f with stack } where
  slots := hf.slots
  limit := hs.limit.trans hf.limit
  operands := hf.limit ▸ hs.limit ▸ hs.size (hf.limit ▸ hf.operands)
  frames := hf.frames
  ip := hf.ip

theorem withFrames (hf : f.Within c) {frames : List Frame}
    (hlength : frames.length ≤ c.maxFrames)
    (hip : ∀ frame ∈ frames, frame.ip ≤ frame.chunk.code.size) : Within c { f with frames } :=
  ⟨hf.slots, hf.limit, hf.operands, hlength, hip⟩

/-- The links of a fiber, its kind and its state have no limits. -/
theorem withLinks (hf : f.Within c) (caller : Option Handle) (kind : FiberKind) (state : FiberState)
    (module : Option Handle) : Within c { f with caller, kind, state, module } :=
  ⟨hf.slots, hf.limit, hf.operands, hf.frames, hf.ip⟩

end Fiber.Within

end FiberMachine
