import FiberMachine.Proofs.Machine.Entries
import FiberMachine.Proofs.Machine.Failures
import FiberMachine.Proofs.Machine.Safety

/-!
# Room for results

What has taken its operands away finds room for its result, and what has seen the callee of
a call can put something in its place. So an instruction that has changed something does not
fail at its operands.
-/

namespace FiberMachine

open Relation (ReflTransGen)

namespace Machine

variable {α β : Type} {m m₁ m' : Machine} {n k argc : Nat}

/-! ## Room for operands -/

/-- The operands of the running fiber are within its limit. -/
def InLimit (m : Machine) : Prop := ∀ t, m.running = some t → t.fiber.stack.size ≤ t.fiber.stack.limit

/-- A fiber runs that has a number of operands, and room for some more. -/
def HasRoom (n k : Nat) (m : Machine) : Prop := ∃ t, m.running = some t ∧
  n ≤ t.fiber.stack.size ∧ t.fiber.stack.size + k ≤ t.fiber.stack.limit

namespace HasRoom

theorem congr (h : HasRoom n k m) (hr : m'.running = m.running) : HasRoom n k m' := by
  obtain ⟨t, ht, hroom⟩ := h
  exact ⟨t, hr.trans ht, hroom⟩

theorem after_ok {x : Act α} [hx : Makes SameRunning x] {a : α} (h : HasRoom n k m)
    (hok : x m = .ok a m₁) : HasRoom n k m₁ :=
  h.congr (FiberMachine.after_ok hok ▸ sameRunning_of_row (hx.row m))

theorem inLimit (h : HasRoom n k m) : InLimit m := by
  intro t ht
  obtain ⟨t', ht', -, hle⟩ := h
  rw [ht] at ht'
  cases ht'
  exact Nat.le_of_add_right_le hle

theorem of_peek {d : Nat} {v : Value} (hl : InLimit m) (h : peek d m = .ok v m₁) :
    m₁ = m ∧ HasRoom (d + 1) 0 m := by
  cases ht : m.running with
  | none => simp only [peek, ht, reduceCtorEq] at h
  | some t =>
    obtain ⟨rfl, hp⟩ := peek_eq_ok ht h
    refine ⟨rfl, t, ht, ?_, hl t ht⟩
    by_contra hlt
    rw [OperandStack.peek_of_le (by simp only [OperandStack.size] at hlt; omega)] at hp
    cases hp

theorem of_pop {v : Value} (hl : InLimit m) (h : pop m = .ok v m₁) : HasRoom 0 1 m₁ := by
  rcases ht : m.running with _ | ⟨id, stack, frames, caller, kind, state, module⟩
  · simp only [pop, ht, reduceCtorEq] at h
  · simp only [pop, ht] at h
    cases hs : stack.pop with
    | error e => simp only [hs, reduceCtorEq] at h
    | ok p =>
      simp only [hs] at h
      cases h
      obtain ⟨hs', hback⟩ := OperandStack.pop_eq_ok hs
      have hpos : 0 < stack.values.size := by
        by_contra h0
        simp [Array.back?, Nat.le_zero.mp (Nat.not_lt.mp h0)] at hback
      have hle : stack.values.size ≤ stack.limit := hl _ ht
      refine ⟨_, rfl, Nat.zero_le _, ?_⟩
      simp only [hs', OperandStack.size, Array.size_pop]
      omega

theorem poke {d : Nat} {v : Value} (h : HasRoom n k m) (hok : poke d v m = .ok () m₁) :
    HasRoom n k m₁ := by
  obtain ⟨t, ht, hsize, hroom⟩ := h
  obtain ⟨stack, hs, rfl⟩ := changeStack_eq_ok ht hok
  obtain ⟨-, rfl⟩ := OperandStack.poke_eq_ok hs
  exact ⟨_, rfl, by simpa [OperandStack.size] using hsize, by simpa [OperandStack.size] using hroom⟩

theorem changeStack_ne_error {f : OperandStack → Except Fault OperandStack} {t : Running}
    (ht : m.running = some t) {stack : OperandStack} (hf : f t.fiber.stack = .ok stack) {e : Fault} :
    changeStack f m ≠ .error e m' := by
  obtain ⟨id, s, frames, caller, kind, state, module⟩ := t
  simp only [changeStack, ht, hf, ne_eq, reduceCtorEq, not_false_eq_true]

theorem push_ne_error (h : HasRoom n (k + 1) m) (v : Value) {e : Fault} :
    push v m ≠ .error e m' := by
  obtain ⟨t, ht, -, hroom⟩ := h
  refine changeStack_ne_error ht (if_neg fun hle => ?_)
  simp only [OperandStack.size] at hroom
  omega

theorem poke_ne_error (h : HasRoom (n + 1) k m) (v : Value) {e : Fault} :
    Machine.poke 0 v m ≠ .error e m' := by
  obtain ⟨t, ht, hsize, -⟩ := h
  exact changeStack_ne_error ht (OperandStack.poke_of_lt (Nat.lt_of_lt_of_le (by omega) hsize))

/-- The result takes the place of one of the operands. -/
theorem replaceTop_push (h : HasRoom (n + 1) k m) (v : Value) {t : Running}
    (ht : m.running = some t) : t.fiber.stack.replaceTop (n + 1) v =
      .ok { t.fiber.stack with
        values := (t.fiber.stack.values.shrink (t.fiber.stack.size - (n + 1))).push v } := by
  obtain ⟨t', ht', hsize, hroom⟩ := h
  rw [ht] at ht'
  cases ht'
  rw [OperandStack.replaceTop_of_le hsize]
  refine if_neg ?_
  simp only [OperandStack.truncate, Array.size_shrink, OperandStack.size] at hsize hroom ⊢
  omega

theorem replaceTop_ne_error (h : HasRoom (n + 1) k m) (v : Value) {e : Fault} :
    replaceTop (n + 1) v m ≠ .error e m' := by
  obtain ⟨t, ht, -⟩ := id h
  exact changeStack_ne_error ht (h.replaceTop_push v ht)

theorem replaceTop (h : HasRoom (n + 1) k m) {v : Value}
    (hok : replaceTop (n + 1) v m = .ok () m₁) : HasRoom 1 0 m₁ := by
  obtain ⟨t, ht, hsize, hroom⟩ := id h
  obtain ⟨stack, hs, rfl⟩ := changeStack_eq_ok ht hok
  rw [h.replaceTop_push v ht] at hs
  cases hs
  simp only [OperandStack.size] at hsize hroom
  refine ⟨_, rfl, ?_, ?_⟩ <;> simp only [OperandStack.size, Array.size_push, Array.size_shrink] <;>
    omega

end HasRoom

/-! ## Instructions that push a result -/

theorem failsAt_binary {f : Value → Value → Act Value} [hf : ∀ a b, Fails Mild (f a b)]
    [hr : ∀ a b, Makes SameRunning (f a b)] (hl : InLimit m) : FailsAt (binary f) m := by
  refine .behind fun right m₁ h₁ => .behind fun left m₂ h₂ => ?_
  have hroom := HasRoom.of_pop (HasRoom.of_pop hl h₁).inLimit h₂
  exact .last (failsAt_of_fails inferInstance) fun v m₃ h₃ e m' he _ _ =>
    (hroom.after_ok h₃).push_ne_error v he

theorem failsAt_arithmetic (hl : InLimit m) (op : Opcode) : FailsAt (arithmetic op) m := by
  cases op with
  | add => exact failsAt_binary hl
  | _ =>
    refine failsAt_of_fails ?_
    unfold arithmetic strange
    exact .parts

theorem failsAt_writeItem (hl : InLimit m) : FailsAt writeItem m := by
  refine .behind fun v m₁ h₁ => .behind fun index m₂ h₂ => .behind fun target m₃ h₃ => ?_
  have hroom := HasRoom.of_pop (HasRoom.of_pop (HasRoom.of_pop hl h₁).inLimit h₂).inLimit h₃
  exact .last (failsAt_of_fails inferInstance) fun _ m₄ h₄ e m' he _ _ =>
    (hroom.after_ok h₄).push_ne_error v he

theorem failsAt_collections (hl : InLimit m) (op : Opcode) : FailsAt (collections op) m := by
  cases op with
  | subscriptWrite => exact failsAt_writeItem hl
  | _ =>
    refine failsAt_of_fails ?_
    unfold collections strange
    exact .parts

theorem InLimit.skip (hl : InLimit m) : InLimit (m.skip k) := by
  intro t ht
  simp only [Machine.skip, Option.map_eq_some_iff] at ht
  obtain ⟨t, ht, rfl⟩ := ht
  exact hl t ht

theorem failsAt_assignProperty (hl : InLimit m) : FailsAt assignProperty m := by
  refine .behind fun name m₁ h₁ => .behind fun v m₂ h₂ => .behind fun target m₃ h₃ => ?_
  obtain rfl := readName_eq_ok h₁
  have hroom := HasRoom.of_pop (HasRoom.of_pop hl.skip h₂).inLimit h₃
  exact .last (failsAt_of_fails inferInstance) fun _ m₄ h₄ e m' he _ _ =>
    (hroom.after_ok h₄).push_ne_error v he

theorem HasRoom.pop_ne_error (h : HasRoom (n + 1) k m) {e : Fault} : pop m ≠ .error e m' := by
  obtain ⟨⟨id, stack, frames, caller, kind, state, module⟩, ht, hsize, -⟩ := h
  have hpos : 0 < stack.values.size := Nat.lt_of_lt_of_le (Nat.succ_pos n) hsize
  have hback : stack.values.back? = some stack.values[stack.values.size - 1] := by
    rw [Array.back?_eq_getElem?, Array.getElem?_eq_getElem]
  simp only [pop, ht, OperandStack.pop, hback, ne_eq, reduceCtorEq, not_false_eq_true]

theorem failsAt_defineMethod (hl : InLimit m) (name : Handle) : FailsAt (defineMethod name) m := by
  refine .behind fun method m₁ h₁ => .behind fun cls m₂ h₂ => .behind fun m₃ m₄ h₃ => ?_
  obtain ⟨rfl, hroom⟩ := HasRoom.of_peek hl h₁
  obtain ⟨rfl, -⟩ := HasRoom.of_peek hl h₂
  rw [get_apply] at h₃
  cases h₃
  dsimp only
  split
  · refine .last (failsAt_of_fails inferInstance) fun _ m₃ h₃ e m' he _ _ => ?_
    have hroom := hroom.after_ok h₃
    simp only [discard, Functor.discard, Functor.mapConst, Function.comp, EStateM.map] at he
    cases hp : pop m₃ with
    | ok v m₄ => simp [hp] at he
    | error e₁ m₄ =>
      rw [hp] at he
      cases he
      exact hroom.pop_ne_error hp
  · exact failsAt_of_fails inferInstance

theorem failsAt_objects (hl : InLimit m) (op : Opcode) : FailsAt (objects op) m := by
  cases op with
  | setProperty => exact failsAt_assignProperty hl
  | method =>
    refine .behind fun name m₁ h₁ => ?_
    obtain rfl := readName_eq_ok h₁
    exact failsAt_defineMethod hl.skip name
  | _ =>
    refine failsAt_of_fails ?_
    unfold objects strange
    exact .parts

/-! ## Calls -/

section Calls

variable {host : HostFunctions} {receiver method callee v : Value} {r : Handle}

/-- A function that has run puts its result where the callee was, which is below the
arguments it was given. -/
theorem callNative_eq_ok (hh : host.Harmless) {f : Native} {receiver : Option Value}
    (hr : HasRoom (argc + 1) 0 m) (h : callNative host f argc receiver m = .ok () m₁) :
    HasRoom 1 0 m₁ := by
  have := sameRunning_runNative hh
  cases hrefused : refused f.arity argc with
  | some n =>
    simp only [callNative, hrefused] at h
    cases h
  | none =>
    simp only [callNative, hrefused] at h
    obtain ⟨args, m₂, htop, h⟩ := bind_eq_ok h
    obtain ⟨result, m₃, hrun, h⟩ := bind_eq_ok h
    exact ((hr.after_ok htop).after_ok hrun).replaceTop h

/-- A native function of the host that is there is called and fails. -/
inductive HostFails (host : HostFunctions) (m m' : Machine) : Prop
  | intro {q : Handle} {n : Native} {id : Nat} {args : List Value} {e : Fault} :
      m.heap.Holds q (.native n) → n.code = .host id → host.call id args m = .error e m' →
      HostFails host m m'

/-- If the action fails here, and not at a dead handle, then it has done only mild things, or a
native function of the host fails after mild things that prepare the heap for it. -/
def FailsWith (host : HostFunctions) (P : Heap → Heap → Prop) (x : Act α) (m : Machine) : Prop :=
  ∀ e m', x m = .error e m' → e ≠ .dangling → m'.room ≤ Heap.slotLimit →
    ReflTransGen Mild m m' ∨
      ∃ m₀, ReflTransGen Mild m m₀ ∧ P m.heap m₀.heap ∧ HostFails host m₀ m'

/-- For a call the heap is left as it is, or an instance is made for the function to work on. -/
inductive Prepares (h : Heap) : Heap → Prop
  | nothing : Prepares h h
  | construct (cls : Handle) (o : Object) : Prepares h (withConstruct cls o h)

namespace Prepares

variable {h : Heap}

theorem size_le (hp : Prepares m.heap h) : m.heap.slots.size ≤ h.slots.size := by
  cases hp with
  | nothing => exact Nat.le_refl _
  | construct cls o =>
    have hmade := Heap.size_le_alloc m.heap (.instanceOf cls .empty)
    exact (size_withInstance cls o m.heap ▸ hmade).trans (Heap.size_le_intern ..)

theorem wellFormed (hp : Prepares m.heap h) (hw : m.heap.WellFormed)
    (hfit : h.slots.size ≤ Heap.slotLimit) : h.WellFormed := by
  cases hp with
  | nothing => exact hw
  | construct cls o => exact wellFormed_withConstruct hw hfit

theorem tends (hp : Prepares m.heap m'.heap) : Tends m m' := ⟨hp.size_le, hp.wellFormed⟩

theorem remains (hp : Prepares m.heap h) (hw : m.heap.WellFormed)
    (hfit : h.slots.size ≤ Heap.slotLimit) : m.heap.Remains h := by
  cases hp with
  | nothing => exact .refl _
  | construct cls o => exact remains_withConstruct hw hfit

/-- The functions that can be called are those that were there. -/
theorem native {q : Handle} {n : Native} (hp : Prepares m.heap h) (hw : m.heap.WellFormed)
    (hfit : h.slots.size ≤ Heap.slotLimit) (hn : h.Holds q (.native n)) :
    m.heap.Holds q (.native n) := by
  cases hp with
  | nothing => exact hn
  | construct cls o =>
    obtain ⟨p, hp, hb⟩ := hn
    have hold := get?_of_withConstruct hw hfit hp
    simp only [hb, reduceCtorEq, or_self, or_false] at hold
    exact ⟨p, hold, hb⟩

end Prepares

variable {P : Heap → Heap → Prop}

theorem FailsAt.failsWith {x : Act α} (hx : FailsAt x m) : FailsWith host P x m :=
  fun e m' h hne hfit => .inl (hx e m' h hne hfit)

theorem failsWith_of_fails {x : Act α} (hx : Fails Mild x) : FailsWith host P x m :=
  (failsAt_of_fails hx).failsWith

namespace FailsWith

variable {x : Act α} {f : α → Act β}

/-- Mild actions may come first that leave the heap as it is. -/
theorem behind [hx : Makes Mild x] (hh : ∀ a m₁, x m = .ok a m₁ → m₁.heap = m.heap)
    (hf : ∀ a m₁, x m = .ok a m₁ → FailsWith host P (f a) m₁) : FailsWith host P (x >>= f) m := by
  intro e m' h hne hfit
  rcases bind_eq_error h with h | ⟨a, m₁, hok, h⟩
  · exact .inl (after_error h ▸ hx.row m)
  · have hfirst : ReflTransGen Mild m m₁ := after_ok hok ▸ hx.row m
    obtain hmild | ⟨m₀, hmild, hprepared, hfails⟩ := hf a m₁ hok e m' h hne hfit
    · exact .inl (hfirst.trans hmild)
    · exact .inr ⟨m₀, hfirst.trans hmild, hh a m₁ hok ▸ hprepared, hfails⟩

theorem behind_object {f : Object → Act β}
    (hf : ∀ o, m.heap.get? r = some o → FailsWith host P (f o) m) :
    FailsWith host P (object r >>= f) m := by
  refine .behind (fun o m₁ h => (object_eq_ok h).1 ▸ rfl) fun o m₁ h => ?_
  obtain ⟨rfl, ho⟩ := object_eq_ok h
  exact hf o ho

theorem behind_get {f : Machine → Act β} (hf : FailsWith host P (f m) m) :
    FailsWith host P (get >>= f) m :=
  .behind (fun _ _ h => by cases h; rfl) fun _ _ h => by cases h; exact hf

theorem behind_poke {f : Unit → Act β} (hr : HasRoom n k m)
    (hf : ∀ m₁, m₁.heap = m.heap → HasRoom n k m₁ → FailsWith host P (f ()) m₁) :
    FailsWith host P (Machine.poke argc v >>= f) m :=
  .behind (fun _ _ h => heap_of_changeStack h) fun _ _ h =>
    hf _ (heap_of_changeStack h) (hr.poke h)

/-- What comes last may change anything, if what follows does not fail. -/
theorem last (hx : FailsWith host P x m)
    (hf : ∀ a m₁, x m = .ok a m₁ → ∀ e m', f a m₁ = .error e m' → False) :
    FailsWith host P (x >>= f) m := by
  intro e m' h hne hfit
  rcases bind_eq_error h with h | ⟨a, m₁, hok, h⟩
  · exact hx e m' h hne hfit
  · exact (hf a m₁ hok e m' h).elim

end FailsWith

/-- The library changes nothing and then fails, and a function of the host answers for itself. -/
theorem failsWith_runNative {f : Native} (hP : P m.heap m.heap)
    (hn : m.heap.Holds r (.native f)) (args : List Value) :
    FailsWith host P (runNative host f args) m := by
  intro e m' h hne hfit
  cases hcode : f.code with
  | builtin b =>
    simp only [runNative, hcode] at h
    exact .inl (Fails.row m e m' h)
  | host id =>
    simp only [runNative, hcode] at h
    exact .inr ⟨m, .refl, hP, hn, hcode, h⟩

theorem failsWith_callNative (hh : host.Harmless) {f : Native} {receiver : Option Value}
    (hP : P m.heap m.heap) (hn : m.heap.Holds r (.native f)) (hr : HasRoom (argc + 1) 0 m) :
    FailsWith host P (callNative host f argc receiver) m := by
  have := sameRunning_runNative hh
  obtain ⟨t, ht, -⟩ := id hr
  unfold callNative
  split
  · exact failsWith_of_fails inferInstance
  · refine .behind (fun _ _ h => (top_eq_ok ht h).1 ▸ rfl) fun args m₁ h₁ => ?_
    have hr := hr.after_ok h₁
    obtain ⟨rfl, -⟩ := top_eq_ok ht h₁
    exact .last (failsWith_runNative hP hn _) fun result m₂ h₂ e m' he =>
      (hr.after_ok h₂).replaceTop_ne_error result he

/-- Comes to what a class has under a name, with a new instance in place. -/
def callConstruct (host : HostFunctions) (cls : Handle) (argc : Nat) (v : Value) (name : Handle) :
    Act Unit := do
  let o ← object cls
  match (o.members.find? name).bind Value.toHandle? with
  | some r =>
    match (← object r).body with
    | .function _ => callFunction r argc true
    | .native n =>
      callNative host n argc (some v)
      poke 0 v
    | body => throw (.notCallable body.kind.name)
  | none =>
    if argc ≠ 0 then
      let name ← match o.body with
        | .classObject name => pure ((← get).nameText name)
        | _ => pure ""
      throw (.argumentCount name 0 argc)

theorem callClass_eq : callClass host cls argc = (do
    let v := Value.ofHandle (← Heap.newInstance cls)
    poke argc v
    callConstruct host cls argc v (← intern "construct")) := rfl

/-- A new instance has been made, and what the class has under `construct` is called with it. -/
theorem failsWith_construct (hh : host.Harmless) (hr : HasRoom (argc + 1) 0 m) (v : Value)
    (name : Handle) : FailsWith host Eq (callConstruct host r argc v name) m := by
  refine .behind_object fun o _ => ?_
  split
  · refine .behind_object fun p hp => ?_
    split
    · exact failsWith_of_fails inferInstance
    · refine .last (failsWith_callNative hh rfl ⟨p, hp, by assumption⟩ hr) fun _ m₁ h₁ e m' he => ?_
      exact (callNative_eq_ok hh hr h₁).poke_ne_error _ he
    · exact failsWith_of_fails inferInstance
  · exact failsWith_of_fails .parts

theorem failsWith_callClass (hh : host.Harmless) (hr : HasRoom (argc + 1) 0 m) :
    FailsWith host Prepares (callClass host r argc) m := by
  intro e m' h hne hfit
  rw [callClass_eq] at h
  rcases bind_eq_error h with h | ⟨s, m₁, hmade, hplaced⟩
  · exact .inl (after_error h ▸ Makes.row m)
  have hrow₁ : ReflTransGen Mild m m₁ := after_ok hmade ▸ Makes.row m
  rcases bind_eq_error hplaced with h | ⟨_, m₂, hpoke, hnamed⟩
  · exact .inl (hrow₁.trans (after_error h ▸ Makes.row m₁))
  have hrow₂ : ReflTransGen Mild m m₂ := hrow₁.trans (after_ok hpoke ▸ Makes.row m₁)
  rcases bind_eq_error hnamed with h | ⟨name, m₃, hname, hcall⟩
  · exact .inl (hrow₂.trans (after_error h ▸ Makes.row m₂))
  have hrow₃ : ReflTransGen Mild m m₃ := hrow₂.trans (after_ok hname ▸ Makes.row m₂)
  have hroom := ((hr.after_ok hmade).poke hpoke).after_ok hname
  obtain hmild | ⟨m₀, hmild, hsame, hfails⟩ :=
    failsWith_construct hh hroom _ name e m' hcall hne hfit
  · exact .inl (hrow₃.trans hmild)
  · obtain ⟨o, -, rfl, -⟩ := newInstance_eq_ok hmade
    obtain ⟨-, rfl⟩ := intern_eq hname
    refine .inr ⟨m₀, hrow₃.trans hmild, ?_, hfails⟩
    rw [← hsame, heap_of_changeStack hpoke]
    exact .construct r o

theorem failsWith_callUnbound (hh : host.Harmless) (hr : HasRoom (argc + 1) 0 m) :
    FailsWith host Prepares (callUnbound host r argc) m := by
  refine .behind_poke hr fun m₁ _ hr => .behind_object fun o _ => ?_
  split
  · exact failsWith_callClass hh hr
  · exact failsWith_of_fails inferInstance

theorem failsWith_callBound (hh : host.Harmless) (hr : HasRoom (argc + 1) 0 m) :
    FailsWith host Prepares (callBound host receiver r argc) m := by
  refine .behind_object fun o ho => ?_
  split
  · exact failsWith_of_fails inferInstance
  · refine .behind_get ?_
    split <;> exact failsWith_callNative hh .nothing ⟨o, ho, by assumption⟩ hr
  · exact failsWith_callUnbound hh hr

theorem failsWith_callValue (hh : host.Harmless) (hr : HasRoom (argc + 1) 0 m) :
    FailsWith host Prepares (callValue host callee argc) m := by
  unfold callValue
  split
  · exact failsWith_of_fails inferInstance
  · refine .behind_object fun o ho => ?_
    split
    · exact failsWith_of_fails inferInstance
    · exact failsWith_callNative hh .nothing ⟨o, ho, by assumption⟩ hr
    · exact failsWith_callClass hh hr
    · exact .behind_poke hr fun _ _ hr => failsWith_callBound hh hr
    · exact failsWith_of_fails inferInstance

/-- Another callee may be put in the place of the first. -/
theorem failsWith_poke_callValue (hh : host.Harmless) (hr : HasRoom (argc + 1) 0 m) :
    FailsWith host Prepares (do poke argc v; callValue host v argc : Act Unit) m :=
  .behind_poke hr fun _ _ hr => failsWith_callValue hh hr

theorem failsWith_callMethod (hh : host.Harmless) (hr : HasRoom (argc + 1) 0 m) :
    FailsWith host Prepares (callMethod host receiver method argc) m := by
  unfold callMethod
  split
  · exact failsWith_of_fails inferInstance
  · refine .behind_object fun o _ => ?_
    split
    · exact failsWith_callBound hh hr
    · exact failsWith_callBound hh hr
    · exact failsWith_poke_callValue hh hr

theorem failsWith_invoke (hh : host.Harmless) (hl : InLimit m) (name : Handle) :
    FailsWith host Prepares (invoke host name argc) m := by
  refine .behind (fun _ _ h => (HasRoom.of_peek hl h).1 ▸ rfl) fun receiver m₁ h₁ => ?_
  obtain ⟨rfl, hr⟩ := HasRoom.of_peek hl h₁
  split
  · exact failsWith_of_fails inferInstance
  · refine .behind_object fun o _ => .behind_get ?_
    split
    · refine .behind_get ?_
      split
      · exact failsWith_poke_callValue hh hr
      · exact failsWith_callMethod hh hr
    · split
      · exact failsWith_poke_callValue hh hr
      · exact failsWith_of_fails .parts

theorem failsWith_functions (hh : host.Harmless) (hl : InLimit m) (op : Opcode) :
    FailsWith host Prepares (functions host op) m := by
  cases op with
  | call =>
    refine .behind (fun _ _ h => (readCount_eq_ok h).1 ▸ rfl) fun argc m₁ h₁ => ?_
    obtain ⟨rfl, -⟩ := readCount_eq_ok h₁
    refine .behind (fun _ _ h => (HasRoom.of_peek hl.skip h).1 ▸ rfl) fun callee m₂ h₂ => ?_
    obtain ⟨rfl, hr⟩ := HasRoom.of_peek hl.skip h₂
    exact failsWith_callValue hh hr
  | invoke =>
    refine .behind (fun _ _ h => readName_eq_ok h ▸ rfl) fun name m₁ h₁ => ?_
    obtain rfl := readName_eq_ok h₁
    refine .behind (fun _ _ h => (readCount_eq_ok h).1 ▸ rfl) fun argc m₂ h₂ => ?_
    obtain ⟨rfl, -⟩ := readCount_eq_ok h₂
    exact failsWith_invoke hh hl.skip.skip name
  | _ =>
    refine failsWith_of_fails ?_
    unfold functions strange
    exact .parts

end Calls

end Machine

end FiberMachine
