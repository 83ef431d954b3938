import FiberMachine.Proofs.Machine.Operands
import FiberMachine.Proofs.Machine.Turns

/-!
# What a call does

A call that succeeds has either pushed a frame for a function, or put a result in place
of the callee and the arguments, or put nil there and lined up a fiber for an async
function. The callee decides which functions these can be and what is in slot zero.
-/

namespace FiberMachine

open Relation (ReflTransGen)

/-- A way to enter a function: what is in slot zero, and whether the call yields it. -/
structure Entry where
  function : Handle
  zero : Value
  constructs : Bool

/-- The frame of a function that is entered. -/
def Entry.frame (e : Entry) (f : Function) (base : Nat) : Frame :=
  { Frame.enter e.function f.chunk base f.module with constructs := e.constructs }

theorem Heap.function_eq_ok {h : Heap} {r : Handle} {f : Function} :
    h.function r = .ok f ↔ ∃ o, h.get? r = some o ∧ o.body = .function f := by
  simp only [Heap.function, Heap.get]
  cases ho : h.get? r with
  | none => simp
  | some o => cases hb : o.body <;> simp [hb]

theorem OperandStack.pushAll_eq_ok {s s' : OperandStack} {vs : List Value}
    (h : s.pushAll vs = .ok s') : s'.values = s.values ++ vs.toArray := by
  induction vs generalizing s with
  | nil =>
    cases h
    simp
  | cons v rest ih =>
    simp only [pushAll, Bind.bind, Except.bind] at h
    split at h
    · cases h
    · obtain ⟨rfl, -⟩ := push_eq_ok (by assumption)
      simp [ih h]

namespace Machine

variable {host : HostFunctions} {m m₁ m' : Machine} {t : Running} {argc : Nat}

/-! ## Operands of the running fiber -/

/-- The machine with other operands for the running fiber. -/
def withStack (t : Running) (stack : OperandStack) (m : Machine) : Machine :=
  { m with running := some ⟨t.id, { t.fiber with stack }⟩ }

theorem changeStack_eq_ok {f : OperandStack → Except Fault OperandStack} (ht : m.running = some t)
    (h : changeStack f m = .ok () m') :
    ∃ stack, f t.fiber.stack = .ok stack ∧ m' = m.withStack t stack := by
  obtain ⟨id, stack, frames, caller, kind, state, module⟩ := t
  simp only [changeStack, ht] at h
  cases hs : f stack with
  | error e => simp [hs] at h
  | ok stack' =>
    rw [hs] at h
    cases h
    exact ⟨stack', rfl, rfl⟩

theorem peek_eq_ok {distance : Nat} {v : Value} (ht : m.running = some t)
    (h : peek distance m = .ok v m') : m' = m ∧ t.fiber.stack.peek distance = .ok v := by
  simp only [peek, ht] at h
  cases hp : t.fiber.stack.peek distance with
  | error e => simp [hp] at h
  | ok v' =>
    rw [hp] at h
    cases h
    exact ⟨rfl, rfl⟩

theorem fiber_eq_ok {f : Fiber} (ht : m.running = some t) (h : fiber m = .ok f m') :
    m' = m ∧ f = t.fiber := by
  simp only [fiber, ht] at h
  cases h
  exact ⟨rfl, rfl⟩

theorem except_eq_ok {α : Type} {e : Except Fault α} {a : α}
    (h : (liftM e : Act α) m = .ok a m') : m' = m ∧ e = .ok a := by
  rw [except_apply] at h
  cases e <;> cases h
  exact ⟨rfl, rfl⟩

theorem top_eq_ok {count : Nat} {args : Array Value} (ht : m.running = some t)
    (h : top count m = .ok args m') : m' = m ∧ t.fiber.stack.top count = .ok args := by
  obtain ⟨f, m₁, hf, htop⟩ := bind_eq_ok h
  obtain ⟨rfl, rfl⟩ := fiber_eq_ok ht hf
  exact except_eq_ok htop

theorem object_eq_ok {r : Handle} {o : Object} (h : object r m = .ok o m') :
    m' = m ∧ m.heap.get? r = some o := by
  obtain ⟨_, _, hm, hget⟩ := bind_eq_ok h
  cases hm
  obtain ⟨rfl, hget⟩ := except_eq_ok hget
  simp only [Heap.get] at hget
  split at hget <;> cases hget
  exact ⟨rfl, by assumption⟩

theorem intern_eq {text : String} {name : Handle} (h : intern text m = .ok name m') :
    name = (m.heap.intern text).2 ∧ m' = { m with heap := (m.heap.intern text).1 } := by
  simp only [intern, lift_apply, Heap.run] at h
  cases h
  exact ⟨rfl, rfl⟩

theorem heap_of_changeStack {f : OperandStack → Except Fault OperandStack} {u : Unit}
    (h : changeStack f m = .ok u m') : m'.heap = m.heap := by
  cases ht : m.running with
  | none => simp [changeStack, ht] at h
  | some t =>
    obtain ⟨stack, -, rfl⟩ := changeStack_eq_ok ht h
    rfl

/-! ## Outcomes -/

/-- A function has been entered by a call with a number of arguments, given the ways in which
that may happen: with a frame on top of the caller, or on a fiber of its own. -/
inductive Entered (argc : Nat) (E : Entry → Prop) (h : Heap) (t : Running) (m' : Machine) : Prop
  | pushed {e : Entry} {f : Function} {stack : OperandStack} : E e → f.arity.toNat = argc →
      f.isAsync = false → m'.heap.function e.function = .ok f →
      t.fiber.stack.poke argc e.zero = .ok stack →
      m'.running = some ⟨t.id, { t.fiber with
        stack, frames := e.frame f (t.fiber.stack.size - (argc + 1)) :: t.fiber.frames }⟩ →
      Entered argc E h t m'
  | spawned {e : Entry} {f : Function} {stack : OperandStack} {args : Array Value} {r : Handle}
      {body : Fiber} : E e → f.arity.toNat = argc → f.isAsync = true →
      t.fiber.stack.replaceTop (argc + 1) .nil = .ok stack →
      m'.running = some ⟨t.id, { t.fiber with stack }⟩ →
      t.fiber.stack.top argc = .ok args →
      body.stack.values = #[.ofHandle e.function] ++ args →
      body.frames = [.enter e.function f.chunk 0 f.module] → body.state = .ready →
      m'.ready.getLast? = some r →
      (h.WellFormed → m'.room ≤ Heap.slotLimit → h.get? r = none ∧
        m'.heap.fiberAt? r = some (some body) ∧ m'.heap.function e.function = .ok f) →
      Entered argc E h t m'

namespace Entered

variable {E E' : Entry → Prop} {h h₁ : Heap}

theorem mono (hc : Entered argc E h t m') (hE : ∀ e, E e → E' e) : Entered argc E' h t m' := by
  cases hc with
  | pushed he ha hs hf hstack hr => exact .pushed (hE _ he) ha hs hf hstack hr
  | spawned he ha hs hstack hr htop hbody hframes hstate hlast hnew =>
    exact .spawned (hE _ he) ha hs hstack hr htop hbody hframes hstate hlast hnew

/-- A value may be put in the place of the callee before. -/
theorem of_poke {v : Value} {stack : OperandStack}
    (hpoke : t.fiber.stack.poke argc v = .ok stack)
    (hc : Entered argc E h ⟨t.id, { t.fiber with stack }⟩ m') : Entered argc E h t m' := by
  have hsize := OperandStack.size_of_poke hpoke
  have hreplace : ∀ w, stack.replaceTop (argc + 1) w = t.fiber.stack.replaceTop (argc + 1) w :=
    fun _ => OperandStack.replaceTop_poke hpoke
  cases hc with
  | pushed he ha hs hf hstack hr =>
    simp only [hsize] at hr
    exact .pushed he ha hs hf ((OperandStack.poke_poke hpoke).symm.trans hstack) hr
  | spawned he ha hs hstack hr htop hbody hframes hstate hlast hnew =>
    exact .spawned he ha hs (hreplace _ ▸ hstack) hr (OperandStack.top_poke hpoke ▸ htop) hbody
      hframes hstate hlast hnew

/-- Objects may have been built before. -/
theorem behind (hgrow : h.WellFormed → m'.room ≤ Heap.slotLimit →
      h₁.WellFormed ∧ ∀ r, h.isLive r → h₁.isLive r)
    (hc : Entered argc E h₁ t m') : Entered argc E h t m' := by
  cases hc with
  | pushed he ha hs hf hstack hr => exact .pushed he ha hs hf hstack hr
  | spawned he ha hs hstack hr htop hbody hframes hstate hlast hnew =>
    refine .spawned he ha hs hstack hr htop hbody hframes hstate hlast fun hw hfit => ?_
    obtain ⟨hw₁, hlive⟩ := hgrow hw hfit
    obtain ⟨hfresh, hnew⟩ := hnew hw₁ hfit
    refine ⟨Option.eq_none_iff_forall_ne_some.mpr fun o ho => ?_, hnew⟩
    obtain ⟨o', ho'⟩ := Heap.isLive_iff.mp (hlive _ (Heap.isLive_iff.mpr ⟨o, ho⟩))
    rw [hfresh] at ho'
    cases ho'

end Entered

/-! ## Functions -/

theorem entered_spawn {e : Entry} {f : Function} (ht : m.running = some t)
    (hf : m.heap.function e.function = .ok f) (harity : f.arity.toNat = argc)
    (hasync : f.isAsync = true) (h : spawn e.function argc m = .ok () m') :
    Entered argc (· = e) m.heap t m' := by
  obtain ⟨id, m₁, hid, hargs⟩ := bind_eq_ok h
  obtain ⟨rfl, -⟩ := runningId_eq_ok hid
  obtain ⟨args, m₂, hargs, hnil⟩ := bind_eq_ok hargs
  obtain ⟨rfl, htop⟩ := top_eq_ok ht hargs
  obtain ⟨_, m₃, hreplace, hspawned⟩ := bind_eq_ok hnil
  obtain ⟨stack, hstack, rfl⟩ := changeStack_eq_ok ht hreplace
  obtain ⟨r, m₄, hnew, hready⟩ := bind_eq_ok hspawned
  obtain ⟨f', stack', hf', hpush, rfl, rfl⟩ := newFiber_eq_ok_body hnew
  cases hready
  obtain rfl : f = f' := Except.ok.inj (hf.symm.trans hf')
  have hvalues : stack'.values = #[.ofHandle e.function] ++ args := by
    rw [OperandStack.pushAll_eq_ok hpush]
    simp [OperandStack.empty]
  let body : Fiber :=
    ⟨stack', [.enter e.function f.chunk 0 f.module], some id, .async, .ready, none⟩
  refine @Entered.spawned argc _ _ t _ e f stack args _ body rfl harity hasync hstack rfl htop
    hvalues rfl rfl List.getLast?_concat fun hw hfit => ?_
  have hw₁ : (m₂.withStack t stack).heap.WellFormed := hw
  have hallocated := allocated_newFiber hw₁ hfit
  obtain ⟨o, ho, hfunction⟩ := Heap.function_eq_ok.mp hf
  refine ⟨hallocated.fresh, (fiberAt?_newFiber hw₁ hfit _).trans (if_pos rfl), ?_⟩
  exact Heap.function_eq_ok.mpr ⟨o, hallocated.get?_of_get? ho, hfunction⟩

/-- The machine with one more frame for the running fiber. -/
def withFrame (t : Running) (frame : Frame) (m : Machine) : Machine :=
  { m with running := some ⟨t.id, { t.fiber with frames := frame :: t.fiber.frames }⟩ }

/-- All there is to say about a call of a function that runs at once. -/
theorem callFunction_eq_ok_iff {r : Handle} {f : Function} {constructs : Bool}
    (hf : m.heap.function r = .ok f) (hasync : f.isAsync = false) :
    callFunction r argc constructs m = .ok () m' ↔ ∃ t, m.running = some t ∧
      f.arity.toNat = argc ∧ t.fiber.frames.length < m.config.maxFrames ∧
      argc + 1 ≤ t.fiber.stack.size ∧
      m' = m.withFrame t { Frame.enter r f.chunk (t.fiber.stack.size - (argc + 1)) f.module with
        constructs } := by
  cases ht : m.running with
  | none =>
    by_cases ha : argc = f.arity.toNat <;>
      simp [callFunction, bind_apply, get_apply, except_apply, hf, hasync, frameLimitCheck, fiber, ht,
        throw_apply, ha]
  | some t =>
    by_cases ha : argc = f.arity.toNat
    · subst ha
      by_cases hl : m.config.maxFrames ≤ t.fiber.frames.length
      · simp [callFunction, bind_apply, get_apply, except_apply, hf, hasync, frameLimitCheck, fiber,
          ht, throw_apply, hl, Nat.not_lt.mpr hl]
      · have hroom : t.fiber.frames.length < m.config.maxFrames := Nat.lt_of_not_le hl
        simp only [Nat.add_one_le_iff]
        by_cases hs : f.arity.toNat < t.fiber.stack.size
        · simp [callFunction, bind_apply, get_apply, except_apply, hf, hasync, frameLimitCheck, fiber,
            changeFiber, ht, hl, hroom, hs, pure_apply, withFrame,
            Checked.minus_of_le (Nat.le_of_succ_le hs), Checked.minus_of_le (Nat.sub_pos_of_lt hs),
            Nat.sub_sub]
          exact eq_comm
        · rcases Nat.lt_or_ge t.fiber.stack.size f.arity.toNat with hlt | hge
          · simp [callFunction, bind_apply, get_apply, except_apply, hf, hasync, frameLimitCheck, fiber,
              ht, hl, hs, pure_apply, Checked.minus_of_lt hlt]
          · have hnone : t.fiber.stack.size - f.arity.toNat < 1 := by omega
            simp [callFunction, bind_apply, get_apply, except_apply, hf, hasync, frameLimitCheck, fiber,
              ht, hl, hs, pure_apply, Checked.minus_of_le hge, Checked.minus_of_lt hnone]
    · simp [callFunction, bind_apply, get_apply, except_apply, hf, throw_apply, ha, Ne.symm ha]

theorem entered_callFunction {r : Handle} {constructs : Bool} {zero : Value}
    (ht : m.running = some t) (hz : t.fiber.stack.peek argc = .ok zero)
    (h : callFunction r argc constructs m = .ok () m') :
    Entered argc (· = ⟨r, zero, constructs⟩) m.heap t m' := by
  obtain ⟨_, m₁, hm, hfunction⟩ := bind_eq_ok h
  cases hm
  obtain ⟨f, m₂, hfunction, harity⟩ := bind_eq_ok hfunction
  obtain ⟨rfl, hf⟩ := except_eq_ok hfunction
  cases hasync : f.isAsync with
  | true =>
    by_cases ha : f.arity.toNat = argc
    · rw [if_neg (not_not.mpr ha.symm)] at harity
      simp only [hasync, ↓reduceIte] at harity
      exact entered_spawn (e := ⟨r, zero, constructs⟩) ht hf ha hasync harity
    · rw [if_pos (Ne.symm ha)] at harity
      simp only [bind_apply, get_apply, throw_apply, reduceCtorEq] at harity
  | false =>
    obtain ⟨_, ht', ha, -, -, rfl⟩ := (callFunction_eq_ok_iff hf hasync).mp h
    cases ht.symm.trans ht'
    exact .pushed rfl ha hasync hf (OperandStack.poke_of_peek hz) rfl

end Machine

end FiberMachine
