import FiberMachine.Proofs.Machine.Calling

/-!
# What a return does

A return takes the innermost frame away and all operands from its base on, and puts one
value there instead: the topmost operand, or slot zero where the frame constructs. With its
outermost frame a fiber ends.
-/

namespace FiberMachine

/-- The value that a frame yields, given the one on top and the operands below it. -/
def Frame.Yields (f : Frame) (v : Value) (stack : OperandStack) (w : Value) : Prop :=
  if f.constructs then stack.get? f.base = some w else w = v

namespace Machine

variable {m m' : Machine} {t : Running} {u : Unit}

/-- The machine with other operands and frames for the running fiber. -/
def withCalls (t : Running) (stack : OperandStack) (frames : List Frame) (m : Machine) : Machine :=
  { m with running := some ⟨t.id, { t.fiber with stack, frames }⟩ }

theorem pop_eq_ok {v : Value} (ht : m.running = some t) (h : pop m = .ok v m') :
    ∃ stack, t.fiber.stack.pop = .ok (v, stack) ∧ m' = m.withStack t stack := by
  obtain ⟨id, stack, frames, caller, kind, state, module⟩ := t
  simp only [pop, ht] at h
  cases hp : stack.pop with
  | error e => simp [hp] at h
  | ok p =>
    rw [hp] at h
    cases h
    exact ⟨p.2, rfl, rfl⟩

theorem changeFiber_eq_ok {f : Fiber → Fiber} (ht : m.running = some t)
    (h : changeFiber f m = .ok u m') : m' = { m with running := some ⟨t.id, f t.fiber⟩ } := by
  simp only [changeFiber, ht] at h
  cases h
  rfl

/-- A fiber has returned from its innermost call. It goes on in the frame below with one value
in place of what stood from the base on, or it ends. -/
inductive Returns (t : Running) (m m' : Machine) : Prop
  | on {f : Frame} {rest : List Frame} {v w : Value} {below stack : OperandStack} :
      t.fiber.frames = f :: rest → rest ≠ [] → t.fiber.stack.pop = .ok (v, below) →
      f.Yields v below w → (below.truncate f.base).push w = .ok stack →
      m' = m.withCalls t stack rest → Returns t m m'
  | ends {f : Frame} {v : Value} {below : OperandStack} :
      t.fiber.frames = [f] → t.fiber.stack.pop = .ok (v, below) →
      finish (m.withCalls t (below.truncate f.base) []) = .ok () m' → Returns t m m'

theorem returns_of_ok (h : returnFromCall m = .ok u m') :
    ∃ t, m.running = some t ∧ Returns t m m' := by
  obtain ⟨v, m₁, h₁, h⟩ := bind_eq_ok h
  obtain ⟨t, ht⟩ : ∃ t, m.running = some t := by
    cases ht : m.running with
    | none => simp [pop, ht] at h₁
    | some t => exact ⟨t, rfl⟩
  obtain ⟨below, hpop, rfl⟩ := pop_eq_ok ht h₁
  obtain ⟨f, m₂, h₂, h⟩ := bind_eq_ok h
  obtain ⟨rfl, t₂, rest, ht₂, hf⟩ := frame_eq_ok h₂
  cases ht₂
  obtain ⟨_, m₃, h₃, h⟩ := bind_eq_ok h
  have hframes : t.fiber.frames = f :: rest := hf
  obtain rfl : m₃ = m.withCalls t below rest := by
    rw [changeFiber_eq_ok rfl h₃]
    simp [withStack, withCalls, hframes]
  have hyield : ∀ {w}, f.Yields v below w → (do
      changeFiber fun fiber => { fiber with stack := fiber.stack.truncate f.base }
      if (← fiber).frames.isEmpty then finish else push w : Act Unit)
        (m.withCalls t below rest) = .ok u m' → Returns t m m' := by
    intro w hw h
    obtain ⟨_, m₄, h₄, h⟩ := bind_eq_ok h
    obtain rfl : m₄ = m.withCalls t (below.truncate f.base) rest := by
      rw [changeFiber_eq_ok rfl h₄]
      rfl
    obtain ⟨g, m₅, h₅, h⟩ := bind_eq_ok h
    obtain ⟨rfl, rfl⟩ := fiber_eq_ok rfl h₅
    cases rest with
    | nil => exact .ends hframes hpop h
    | cons next rest =>
      rw [if_neg (by simp)] at h
      obtain ⟨stack, hpush, rfl⟩ := changeStack_eq_ok rfl h
      exact .on hframes nofun hpop hw hpush rfl
  refine ⟨t, ht, ?_⟩
  dsimp only at h
  split at h
  · rename_i hc
    obtain ⟨g, m₄, h₄, h⟩ := bind_eq_ok h
    obtain ⟨rfl, rfl⟩ := fiber_eq_ok rfl h₄
    cases hget : below.get? f.base with
    | some w =>
      simp only [hget] at h
      exact hyield ((if_pos hc).mpr hget) h
    | none =>
      simp only [hget] at h
      cases h
  · rename_i hc
    exact hyield ((if_neg hc).mpr rfl) h

end Machine

end FiberMachine
