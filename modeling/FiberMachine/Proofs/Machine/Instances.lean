import FiberMachine.Proofs.Machine.Balance
import FiberMachine.Proofs.Machine.NativeCalls

/-!
# What calling a class yields

A call of a class puts a new instance in place of the class and then comes to what the class has
under `construct`. Without that the instance stays where it is, and it is put back over whatever a
native function leaves there. A function that runs at once has the instance in slot zero, and the
call yields what it finds there in the end: the instance, as long as the function leaves slot zero
alone. An async function is set apart, and nil takes the place of the instance.
-/

namespace FiberMachine

open Relation (ReflTransGen)
open OperandStack (SameBelow)

namespace OperandStack

variable {s s' : OperandStack} {v w : Value} {count : Nat}

/-- One value stands in place of the topmost operands. -/
structure Collapses (count : Nat) (v : Value) (s s' : OperandStack) : Prop where
  size : s'.size + count = s.size + 1
  below : SameBelow (s.size - count) s s'
  value : s'.get? (s.size - count) = some v

theorem Collapses.top (h : Collapses count v s s') :
    s'.get? (s'.size - 1) = some v := by
  have hsize := h.size
  rw [← h.value]
  congr 1
  omega

theorem collapses_replaceTop (h : s.replaceTop count v = .ok s') : Collapses count v s s' := by
  obtain ⟨hc, hpush⟩ := replaceTop_eq_ok h
  have hsize := size_truncate (s := s) (Nat.sub_le s.size count)
  have hbelow := sameBelow_push hpush hsize.ge
  obtain ⟨rfl, -⟩ := push_eq_ok hpush
  simp only [OperandStack.size] at hsize hc
  refine ⟨?_, (sameBelow_truncate (Nat.le_refl _)).trans hbelow, ?_⟩
  · simp only [OperandStack.size, Array.size_push, hsize]
    omega
  · simp only [OperandStack.size, get?, Array.getElem?_push, hsize, ↓reduceIte]

theorem collapses_poke (h : s.poke 0 v = .ok s') : Collapses 1 v s s' := by
  have hsize := size_of_poke h
  have hbelow := (takes_poke Nat.one_pos v).below (s.size - 1) s s'
  obtain ⟨hlt, rfl⟩ := poke_eq_ok h
  refine ⟨congrArg (· + 1) hsize, (hbelow (by omega) h).1, ?_⟩
  simp only [OperandStack.size] at hlt
  simp [OperandStack.size, get?, hlt]

theorem get?_of_peek {distance : Nat} (h : s.peek distance = .ok v) :
    s.get? (s.size - (distance + 1)) = some v := by
  have hlt : distance < s.values.size := lt_of_peek h
  rw [peek_of_lt hlt] at h
  cases h
  rw [get?, OperandStack.size, Nat.sub_add_eq, Nat.sub_right_comm]
  exact Array.getElem?_eq_getElem _

theorem get?_of_pop {i : Nat} (h : s.pop = .ok (v, s')) (hw : s'.get? i = some w) :
    s.get? i = some w := by
  obtain ⟨rfl, -⟩ := pop_eq_ok h
  simp only [get?, Array.getElem?_pop] at hw
  split at hw
  · exact hw
  · cases hw

end OperandStack

namespace Machine

variable {host : HostFunctions} {m m₀ m₁ m₂ m' : Machine} {t t₂ : Running} {op : Opcode}
  {f g : Frame} {rest callers frames : List Frame} {argc : Nat} {cls r : Handle} {o p : Object}
  {n : Native} {fn : Function} {h : Heap} {row : List Handle} {s : OperandStack}

/-! ## Instances -/

/-- The instance that a call of a class makes. -/
def madeInstance (cls : Handle) (h : Heap) : Value := .ofHandle (h.alloc (.instanceOf cls .empty)).2

/-- What a class has under `construct`, if it can be called at all. -/
def constructOf? (cls : Handle) (o : Object) (h : Heap) : Option Handle :=
  (o.members.find? (constructName cls o h)).bind Value.toHandle?

/-- A value is an instance that was not there before, and it has the members of its class. -/
def IsNew (cls : Handle) (o : Object) (h h' : Heap) (v : Value) : Prop :=
  ∃ r, v = .ofHandle r ∧ h.get? r = none ∧
    h'.get? r = some ⟨false, o.members, .instanceOf cls .empty⟩

theorem isNew_madeInstance (hw : m.heap.WellFormed)
    (hfit : (withConstruct cls o m.heap).slots.size ≤ Heap.slotLimit)
    (ho : m.heap.get? cls = some o) :
    IsNew cls o m.heap (withConstruct cls o m.heap) (madeInstance cls m.heap) := by
  have hfit₁ := size_withInstance_le hfit
  have hw₁ := wellFormed_withInstance hw hfit₁
  have hzero := zero_withInstance (r := cls) hw hfit₁ ho
  generalize hv : Value.ofHandle _ = v at hzero
  cases hzero with
  | construct ho' hfresh hs =>
    cases ho.symm.trans ho'
    exact ⟨_, hv, hfresh, Heap.get?_intern_of_get? hw₁.toArena hfit hs⟩

/-! ## Calls -/

/-- The machine in which the new instance is in place and `construct` is known. -/
def constructing (cls : Handle) (o : Object) (t : Running) (stack : OperandStack) (m : Machine) :
    Machine :=
  withStack t stack { m with heap := withConstruct cls o m.heap }

/-- The ways in which a call of a class goes on once its instance is in place. -/
inductive Constructs (host : HostFunctions) (cls : Handle) (o : Object) (h : Heap) (argc : Nat)
    (m₁ m' : Machine) : Prop
  | absent : constructOf? cls o h = none → argc = 0 → m' = m₁ → Constructs host cls o h argc m₁ m'
  | native {r : Handle} {p : Object} {n : Native} {m₂ : Machine} : constructOf? cls o h = some r →
      h.get? r = some p → p.body = .native n →
      callNative host n argc (some (madeInstance cls h)) m₁ = .ok () m₂ →
      poke 0 (madeInstance cls h) m₂ = .ok () m' → Constructs host cls o h argc m₁ m'
  | function {r : Handle} {fn : Function} : constructOf? cls o h = some r →
      h.function r = .ok fn → callFunction r argc true m₁ = .ok () m' →
      Constructs host cls o h argc m₁ m'

theorem callConstruct_of_callClass (ht : m.running = some t) (ho : m.heap.get? cls = some o)
    (h : callClass host cls argc m = .ok () m') :
    ∃ stack, t.fiber.stack.poke argc (madeInstance cls m.heap) = .ok stack ∧
      callConstruct host cls argc (madeInstance cls m.heap) (constructName cls o m.heap)
        (constructing cls o t stack m) = .ok () m' := by
  rw [callClass_eq] at h
  obtain ⟨s, m₁, hmade, hpoke⟩ := bind_eq_ok h
  obtain ⟨o', ho', rfl, rfl⟩ := newInstance_eq_ok hmade
  cases ho.symm.trans ho'
  obtain ⟨_, m₂, hpoke, hname⟩ := bind_eq_ok hpoke
  let m₁ : Machine := { m with heap := withInstance cls o m.heap }
  obtain ⟨stack, hstack, -, rfl⟩ := poke_eq_ok (m := m₁) ht hpoke
  obtain ⟨name, m₃, hname, hcall⟩ := bind_eq_ok hname
  obtain ⟨rfl, rfl⟩ := intern_eq hname
  exact ⟨stack, hstack, hcall⟩

/-- What is new is not called, so what is called was there before. -/
theorem constructs_of_callConstruct {stack : OperandStack} (hw : m.heap.WellFormed)
    (hfit : (withConstruct cls o m.heap).slots.size ≤ Heap.slotLimit)
    (ho : m.heap.get? cls = some o)
    (h : callConstruct host cls argc (madeInstance cls m.heap) (constructName cls o m.heap)
      (constructing cls o t stack m) = .ok () m') :
    Constructs host cls o m.heap argc (constructing cls o t stack m) m' := by
  have ho₁ := remains_withConstruct hw hfit _ _ ho
  obtain ⟨o', m₁, hobject, hentry⟩ := bind_eq_ok h
  obtain ⟨rfl, ho'⟩ := object_eq_ok hobject
  obtain rfl : o = o' := Option.some.inj (ho₁.symm.trans ho')
  cases hr : constructOf? cls o m.heap with
  | none =>
    rw [constructOf?] at hr
    simp only [hr] at hentry
    by_cases hargc : argc = 0
    · rw [if_neg (not_not.mpr hargc)] at hentry
      cases hentry
      exact .absent hr hargc rfl
    · rw [if_pos hargc] at hentry
      cases hb : o.body <;> simp only [hb] at hentry <;> cases hentry
  | some r =>
    have hfound := hr
    rw [constructOf?] at hr
    simp only [hr] at hentry
    obtain ⟨p, m₁, hobject, hbody⟩ := bind_eq_ok hentry
    obtain ⟨rfl, hp⟩ := object_eq_ok hobject
    have hold := get?_of_withConstruct hw hfit hp
    cases hb : p.body with
    | function fn =>
      simp only [hb, reduceCtorEq, or_self, or_false] at hold hbody
      exact .function hfound (Heap.function_eq_ok.mpr ⟨p, hold, hb⟩) hbody
    | native n =>
      simp only [hb, reduceCtorEq, or_self, or_false] at hold hbody
      obtain ⟨_, m₁, hcall, hplace⟩ := bind_eq_ok hbody
      exact .native hfound hold hb hcall hplace
    | _ =>
      simp only [hb] at hbody
      cases hbody

instance [∀ id args, Makes Tends (host.call id args)] (v : Value) (name : Handle) :
    Makes Tends (callConstruct host cls argc v name) := by
  unfold callConstruct
  exact .parts

/-- An instruction calls a class: the operand below the arguments, or a member of it. -/
inductive CallsClass (m : Machine) (t : Running) (f : Frame) (cls : Handle) : Opcode → Prop
  | call : t.fiber.stack.peek (f.count .call) = .ok (.ofHandle cls) → CallsClass m t f cls .call
  | invoke {name q : Handle} {p : Object} : nameAt? f 1 = some name →
      t.fiber.stack.peek (f.count .invoke) = .ok (.ofHandle q) → m.heap.get? q = some p →
      Found name m p (.ofHandle cls) → CallsClass m t f cls .invoke

theorem Found.skip {name : Handle} {v : Value} {k : Nat} (hv : Found name m o v) :
    Found name (m.skip k) o v := by
  cases hv with
  | plain hv hplain => exact .plain hv hplain
  | other hv hfunction hnative => exact .other hv hfunction hnative
  | field hv hfield => exact .field hv hfield

/-- Such an instruction puts the class in place of what is called and calls it. -/
theorem CallsClass.callClass {className : Handle} (hc : CallsClass m t f cls op)
    (ht : m.running = some t) (hf : t.fiber.frames = f :: rest) (hop : f.opcode? = some op)
    (ho : m.heap.get? cls = some o) (hb : o.body = .classObject className)
    (h : instruction host m = .ok () m') :
    ∃ stack, t.fiber.stack.poke (f.count op) (.ofHandle cls) = .ok stack ∧
      callClass host cls (f.count op)
        (withStack (t.skip op.callBytes) stack (m.skip op.callBytes)) = .ok () m' := by
  have h := execute_of_instruction (frame?_eq_some ht hf) hop h
  have hcls := Value.toHandle?_ofHandle cls
  cases hc with
  | call hpeek =>
    obtain ⟨count, m₁, hread, hcallee⟩ := bind_eq_ok (x := readCount) h
    obtain ⟨rfl, rfl⟩ := readCount_skip ht hf hread
    have ht₁ := running_skip (k := 1 + 1) ht
    obtain ⟨v, m₁, hread, hcallee⟩ := bind_eq_ok hcallee
    obtain ⟨rfl, hv⟩ := peek_eq_ok ht₁ hread
    cases hpeek.symm.trans hv
    refine ⟨_, OperandStack.poke_of_peek hpeek, ?_⟩
    have hsame : withStack (t.skip 2) t.fiber.stack (m.skip 2) = m.skip 2 := by
      simp only [withStack, skip, ht]
      rfl
    rw [callValue_class (m := m.skip 2) hcls ho hb] at hcallee
    exact hsame ▸ hcallee
  | @invoke _ q _ hname hpeek hq hv =>
    obtain ⟨name', m₁, hread, hmember⟩ := bind_eq_ok (x := readName) h
    obtain ⟨rfl, hname'⟩ := readName_skip ht hf hread
    obtain rfl := Option.some.inj (hname.symm.trans hname')
    obtain ⟨count, m₁, hread, hmember⟩ := bind_eq_ok hmember
    obtain ⟨rfl, rfl⟩ := readCount_skip ht hf hread
    have ht₁ := running_skip (k := 1 + 2 + 1) ht
    have hq₁ := Value.toHandle?_ofHandle q
    have hmember := (hv.skip.invoke_eq ((peek_iff ht₁).mpr hpeek) hq₁ hq hcls ho).symm.trans hmember
    obtain ⟨_, m₁, hpoke, hcallee⟩ := bind_eq_ok hmember
    obtain ⟨stack, hstack, -, rfl⟩ := poke_eq_ok ht₁ hpoke
    let m₂ : Machine := withStack (t.skip 4) stack (m.skip 4)
    exact ⟨stack, hstack, (callValue_class (m := m₂) hcls ho hb).symm.trans hcallee⟩

/-- An instruction of a run that calls a class and succeeds. -/
structure ClassCall (host : HostFunctions) (op : Opcode) (f : Frame) (rest : List Frame)
    (cls : Handle) (o : Object) (t : Running) (m m₁ : Machine) : Prop where
  run : ∃ begun own, begun.heap.WellFormed ∧ begun.running = none ∧ Run host begun own m
  running : m.running = some t
  frames : t.fiber.frames = f :: rest
  opcode : f.opcode? = some op
  calls : CallsClass m t f cls op
  object : m.heap.get? cls = some o
  isClass : ∃ className, o.body = .classObject className
  succeeds : instruction host m = .ok () m₁
  room_le : m₁.room ≤ Heap.slotLimit

theorem ClassCall.constructs (hh : host.Intrudes) (hc : ClassCall host op f rest cls o t m m₁) :
    m.heap.WellFormed ∧ (withConstruct cls o m.heap).slots.size ≤ Heap.slotLimit ∧
    ∃ stack, t.fiber.stack.poke (f.count op) (madeInstance cls m.heap) = .ok stack ∧
      Constructs host cls o m.heap (f.count op)
        (constructing cls o (t.skip op.callBytes) stack (m.skip op.callBytes)) m₁ := by
  obtain ⟨⟨begun, own, hbegun, hrun, hr⟩, ht, hf, hop, hcalls, ho, ⟨className, hb⟩, h, hfit⟩ := hc
  have hstep : Steps host m m₁ := .instruction h
  obtain ⟨row, hn, -⟩ := hr.nested hh hbegun hrun ((hstep.idle hh).room_le.trans hfit)
  have : ∀ id args, Makes Tends (host.call id args) := fun id args =>
    (hh id args).mono fun _ _ hi => hi.rests.toTends
  obtain ⟨stack, hstack, h⟩ := hcalls.callClass ht hf hop ho hb h
  obtain ⟨stack', hstack', h⟩ := callConstruct_of_callClass (m := withStack _ stack _) rfl ho h
  have hfit₁ : (withConstruct cls o m.heap).slots.size ≤ Heap.slotLimit :=
    (after_ok h ▸ room_le_after _ _).trans hfit
  exact ⟨hn.wellFormed, hfit₁, stack', (OperandStack.poke_poke hstack).symm.trans hstack',
    constructs_of_callConstruct (m := m.skip op.callBytes) hn.wellFormed hfit₁ ho h⟩

/-! ## What a call evaluates to -/

/-- A call is over: a value stands in place of the callee and the arguments, and the caller is
behind the call. -/
def Evaluates (op : Opcode) (f : Frame) (rest : List Frame) (t : Running) (v : Value)
    (m' : Machine) : Prop :=
  ∃ t', m'.running = some t' ∧ t'.id = t.id ∧ t'.fiber.frames = f.skip op.callBytes :: rest ∧
    t.fiber.stack.Collapses (f.count op + 1) v t'.fiber.stack

/-- A call has pushed the frame of `construct`, with the new instance in slot zero. -/
structure ConstructFrame (op : Opcode) (f : Frame) (rest : List Frame) (t : Running) (v : Value)
    (m₁ : Machine) (g : Frame) : Prop extends PushedFrame op f rest t m₁ g where
  constructs : g.constructs = true
  zero : ∃ t₁, m₁.running = some t₁ ∧ t₁.id = t.id ∧ t₁.fiber.stack.get? g.base = some v

/-- What comes of a call of a class at once, by what the class has under `construct`. -/
inductive Instantiates (host : HostFunctions) (op : Opcode) (f : Frame) (rest : List Frame)
    (cls : Handle) (o : Object) (t : Running) (m m₁ : Machine) : Prop
  | absent : constructOf? cls o m.heap = none → f.count op = 0 →
      Evaluates op f rest t (madeInstance cls m.heap) m₁ → Instantiates host op f rest cls o t m m₁
  | native {r : Handle} {p : Object} {n : Native} : constructOf? cls o m.heap = some r →
      m.heap.get? r = some p → p.body = .native n →
      Evaluates op f rest t (madeInstance cls m.heap) m₁ → Instantiates host op f rest cls o t m m₁
  | entered {r : Handle} {fn : Function} {g : Frame} : constructOf? cls o m.heap = some r →
      m.heap.function r = .ok fn → fn.isAsync = false → Opening host op f rest t m m₁ →
      ConstructFrame op f rest t (madeInstance cls m.heap) m₁ g →
      Instantiates host op f rest cls o t m m₁
  | spawned {r : Handle} {fn : Function} : constructOf? cls o m.heap = some r →
      m.heap.function r = .ok fn → fn.isAsync = true → Evaluates op f rest t .nil m₁ →
      Instantiates host op f rest cls o t m m₁

theorem CallsClass.op_eq (hc : CallsClass m t f cls op) : op = .call ∨ op = .invoke := by
  cases hc with
  | call => exact .inl rfl
  | invoke => exact .inr rfl

/-- Whatever a native function yields, the value that is put back over it is what is left. -/
theorem running_of_native [∀ n args, Makes SameRunning (runNative host n args)]
    {receiver : Option Value} {v : Value} (ht : m₁.running = some t)
    (hcall : callNative host n argc receiver m₁ = .ok () m₂) (hplace : poke 0 v m₂ = .ok () m') :
    ∃ stack, t.fiber.stack.replaceTop (argc + 1) v = .ok stack ∧
      m'.running = some ⟨t.id, { t.fiber with stack }⟩ := by
  obtain ⟨given, w, m₃, -, -, hrun, hreplace⟩ := exists_of_callNative hcall
  have hsame : m₃.running = m₁.running :=
    sameRunning_of_row (after_ok hrun ▸ Makes.row (x := runNative host n _) m₁)
  obtain ⟨stack, hstack, rfl⟩ := changeStack_eq_ok (hsame.trans ht) hreplace
  obtain ⟨stack', hstack', -, rfl⟩ := poke_eq_ok rfl hplace
  exact ⟨stack', (OperandStack.poke_replaceTop hstack).symm.trans hstack', rfl⟩

/-- A function that runs at once is entered. -/
theorem ClassCall.enters {stack : OperandStack} {v : Value}
    (hc : ClassCall host op f rest cls o t m m₁) (hasync : fn.isAsync = false)
    (hstack : t.fiber.stack.poke (f.count op) v = .ok stack)
    (ht : m₀.running = some ⟨t.id, { (t.skip op.callBytes).fiber with stack }⟩)
    (hf : m₀.heap.function r = .ok fn) (h : callFunction r (f.count op) true m₀ = .ok () m₁) :
    Opening host op f rest t m m₁ ∧ ∃ g, ConstructFrame op f rest t v m₁ g := by
  obtain ⟨t', ht', -, -, hle, hm⟩ := (callFunction_eq_ok_iff hf hasync).mp h
  cases ht.symm.trans ht'
  have hbase : stack.size - (f.count op + 1) + (f.count op + 1) = t.fiber.stack.size :=
    (Nat.sub_add_cancel hle).trans (OperandStack.size_of_poke hstack)
  let g : Frame := { Frame.enter r fn.chunk (stack.size - (f.count op + 1)) fn.module with
    constructs := true }
  let frames : List Frame := g :: f.skip op.callBytes :: rest
  have hrun : m₁.running = some ⟨t.id, { (t.skip op.callBytes).fiber with stack, frames }⟩ := by
    rw [hm, withFrame, Running.frames_skip_cons hc.frames]
  refine ⟨⟨hc.run, hc.calls.op_eq, hc.running, hc.frames, hc.opcode, hc.succeeds, _, hrun, rfl⟩,
    g, ⟨⟨_, hrun, rfl⟩, hbase⟩, rfl, _, hrun, rfl, ?_⟩
  exact OperandStack.get?_of_peek (OperandStack.peek_poke hstack)

/-- An async function is set apart, and nil is left. -/
theorem ClassCall.spawns {stack : OperandStack} {v : Value}
    (hc : ClassCall host op f rest cls o t m m₁) (hasync : fn.isAsync = true)
    (hstack : t.fiber.stack.poke (f.count op) v = .ok stack)
    (ht : m₀.running = some ⟨t.id, { (t.skip op.callBytes).fiber with stack }⟩)
    (hw : m₀.heap.WellFormed) (hf : m₀.heap.function r = .ok fn)
    (h : callFunction r (f.count op) true m₀ = .ok () m₁) : Evaluates op f rest t .nil m₁ := by
  have hf₁ := (remains_callFunction hw hc.room_le h).function_eq hf
  cases entered_callFunction ht (OperandStack.peek_poke hstack) h with
  | pushed he _ hsync hf' _ _ =>
    subst he
    obtain rfl := Except.ok.inj (hf₁.symm.trans hf')
    simp [hasync] at hsync
  | spawned _ _ _ hreplace hrun _ _ _ _ _ _ =>
    refine ⟨_, hrun, rfl, Running.frames_skip_cons hc.frames _, OperandStack.collapses_replaceTop ?_⟩
    exact (OperandStack.replaceTop_poke hstack).symm.trans hreplace

theorem ClassCall.instantiates (hh : host.Intrudes) (hc : ClassCall host op f rest cls o t m m₁) :
    Instantiates host op f rest cls o t m m₁ := by
  have := hh.sameRunning
  obtain ⟨hw, hfit, stack, hstack, hconstructs⟩ := hc.constructs hh
  have hskip := Running.frames_skip_cons hc.frames op.callBytes
  cases hconstructs with
  | absent hnone hargc hm =>
    subst hm
    refine .absent hnone hargc ⟨_, rfl, rfl, hskip, ?_⟩
    rw [hargc] at hstack ⊢
    exact OperandStack.collapses_poke hstack
  | native hr hp hb hcall hplace =>
    obtain ⟨stack', hstack', hrun⟩ := running_of_native rfl hcall hplace
    refine .native hr hp hb ⟨_, hrun, rfl, hskip, OperandStack.collapses_replaceTop ?_⟩
    exact (OperandStack.replaceTop_poke hstack).symm.trans hstack'
  | @function r fn hr hf hcall =>
    have hk := remains_withConstruct (m := m) hw hfit
    let m₀ := constructing cls o (t.skip op.callBytes) stack (m.skip op.callBytes)
    have ht₀ : m₀.running = some ⟨t.id, { (t.skip op.callBytes).fiber with stack }⟩ := rfl
    have hf₀ : m₀.heap.function r = .ok fn := hk.function_eq hf
    cases hasync : fn.isAsync with
    | false =>
      obtain ⟨hopening, g, hg⟩ := hc.enters hasync hstack ht₀ hf₀ hcall
      exact .entered hr hf hasync hopening hg
    | true =>
      have hw₀ : m₀.heap.WellFormed := wellFormed_withConstruct (m := m) hw hfit
      exact .spawned hr hf hasync (hc.spawns hasync hstack ht₀ hw₀ hf₀ hcall)

/-! ## Slot zero -/

/-- How far down the stack a frame may reach, if the one with so many frames below it keeps its
slot zero. -/
def floor (depth : Nat) (f : Frame) (rest : List Frame) : Nat :=
  if rest.length = depth then f.base + 1 else f.base

/-- A step between a call and its return in which the frame of the call does not take its slot zero
for an operand and does not assign it. -/
inductive Sparing (host : HostFunctions) (r : Handle) (depth : Nat) (m m' : Machine) : Prop
  | apart : Apart host r m m' → Sparing host r depth m m'
  | within {t : Running} {f : Frame} {rest : List Frame} {op : Opcode} : m.running = some t →
      t.id = r → t.fiber.frames = f :: rest → f.opcode? = some op →
      floor depth f rest + op.takes (f.count op) ≤ t.fiber.stack.size →
      (op = .setLocal → floor depth f rest ≤ f.base + f.shortAt 1) →
      (op = .ret → depth < rest.length) → instruction host m = .ok () m' →
      Sparing host r depth m m'

theorem base_le_floor (depth : Nat) (f : Frame) (rest : List Frame) :
    f.base ≤ floor depth f rest := by
  rw [floor]
  split <;> omega

theorem Sparing.inside {depth : Nat} (hs : Sparing host r depth m m') :
    Inside host r depth m m' := by
  cases hs with
  | apart ha => exact .apart ha
  | @within _ f rest _ ht hid hf hop hb _ hdeep h =>
    have hle := base_le_floor depth f rest
    exact .within ht hid hf hop (by omega) hdeep h

/-- A frame, as far as it may have come, and frames above it with their bases above its own, on top
of the frames of the callers. -/
inductive Upon (g : Frame) (callers : List Frame) : List Frame → Prop
  | itself (ip : Nat) : Upon g callers ({ g with ip } :: callers)
  | above {f : Frame} {frames : List Frame} : g.base < f.base → Upon g callers frames →
      Upon g callers (f :: frames)

namespace Upon

theorem length_lt (h : Upon g callers frames) : callers.length < frames.length := by
  induction h with
  | itself ip => exact Nat.lt_succ_self _
  | above _ _ ih => exact Nat.lt_succ_of_lt ih

theorem lt_floor (h : Upon g callers (f :: rest)) : g.base < floor callers.length f rest := by
  rw [floor]
  cases h with
  | itself ip =>
    rw [if_pos rfl]
    exact Nat.lt_succ_self _
  | above hbase h =>
    rw [if_neg h.length_lt.ne']
    exact hbase

/-- An instruction that stays above the floor, and does not return from the frame, leaves it where
it is. -/
theorem turned (h : Upon g callers (f :: rest))
    (ht : Turned (floor callers.length f rest) op f rest frames)
    (hdeep : op = .ret → callers.length < rest.length) : Upon g callers frames := by
  have hlt := h.lt_floor
  cases h with
  | itself ip =>
    cases ht with
    | on ip' => exact .itself ip'
    | called ip' hbase => exact .above (hlt.trans_le hbase) (.itself ip')
    | returned hret => exact absurd (hdeep hret) (Nat.lt_irrefl _)
  | above hbase h =>
    cases ht with
    | on ip' => exact .above hbase h
    | called ip' hbase' => exact .above (hlt.trans_le hbase') (.above hbase h)
    | returned => exact h

end Upon

/-- The frame of a call has kept its slot zero, and everything below. -/
structure ZeroKept (r : Handle) (g : Frame) (callers : List Frame) (s : OperandStack)
    (row : List Handle) (m : Machine) : Prop where
  nested : Nested row m
  tended : Tended row m r
  work : ∃ w, m.work? r = some w ∧ Upon g callers w.frames ∧ SameBelow (g.base + 1) s w.stack

namespace ZeroKept

theorem running (hs : ZeroKept r g callers s row m) (ht : m.running = some t) (hid : t.id = r) :
    Upon g callers t.fiber.frames ∧ SameBelow (g.base + 1) s t.fiber.stack := by
  subst hid
  obtain ⟨w, hw, hupon⟩ := hs.work
  rwa [← Option.some.inj ((work?_running ht).symm.trans hw)] at hupon

theorem step (hh : host.Intrudes) (hs : ZeroKept r g callers s row m)
    (hi : Sparing host r callers.length m m') (hfit : m'.room ≤ Heap.slotLimit) :
    ∃ row', ZeroKept r g callers s row' m' := by
  cases hi with
  | apart ha =>
    obtain ⟨row', haway⟩ := ha.away hh hs.nested hs.tended hfit
    obtain ⟨w, hw, hupon⟩ := hs.work
    exact ⟨row', haway.nested, haway.tended, w, haway.work.trans hw, hupon⟩
  | @within t f rest op ht hid hf hop hb hassign hdeep h =>
    obtain ⟨hupon, hstack⟩ := hs.running ht hid
    rw [hf] at hupon
    have hret : op = .ret → floor callers.length f rest ≤ f.base ∧
        f.base + 1 ≤ t.fiber.stack.size ∧ rest ≠ [] := by
      rintro rfl
      have hlt := hdeep rfl
      have hfloor : floor callers.length f rest = f.base := if_neg hlt.ne'
      rw [hfloor] at hb ⊢
      exact ⟨Nat.le_refl _, hb, List.ne_nil_of_length_pos (Nat.zero_lt_of_lt hlt)⟩
    obtain ⟨row', w, he⟩ := hs.nested.executed hh ht hf hop hb hassign hret h hfit
    rw [← hid]
    exact ⟨row', he.nested, he.tended, w, he.work, hupon.turned he.frames hdeep,
      hstack.trans (he.stack.mono hupon.lt_floor)⟩

theorem run (hh : host.Intrudes) (hs : ZeroKept r g callers s row m)
    (h : ReflTransGen (Sparing host r callers.length) m m') (hfit : m'.room ≤ Heap.slotLimit) :
    ∃ row', ZeroKept r g callers s row' m' := by
  induction h with
  | refl => exact ⟨row, hs⟩
  | tail _ hi ih =>
    obtain ⟨row₁, hs₁⟩ := ih ((hi.inside.room_le hh).trans hfit)
    exact hs₁.step hh hi hfit

end ZeroKept

/-! ## What is guaranteed -/

/-- A class has a function that runs at once under `construct`. -/
def RunsConstruct (cls : Handle) (o : Object) (h : Heap) : Prop :=
  ∃ r fn, constructOf? cls o h = some r ∧ h.function r = .ok fn ∧ fn.isAsync = false

theorem ClassCall.entered (hh : host.Intrudes) (hc : ClassCall host op f rest cls o t m m₁)
    (hsync : RunsConstruct cls o m.heap) : Opening host op f rest t m m₁ ∧
      ∃ g, ConstructFrame op f rest t (madeInstance cls m.heap) m₁ g := by
  obtain ⟨r, fn, hr, hf, hasync⟩ := hsync
  cases hc.instantiates hh with
  | absent hnone _ _ => simp [hr] at hnone
  | native hr' hp hb _ =>
    cases hr.symm.trans hr'
    obtain ⟨p', hp', hb'⟩ := Heap.function_eq_ok.mp hf
    cases hp.symm.trans hp'
    simp [hb] at hb'
  | entered _ _ _ hopening hg => exact ⟨hopening, _, hg⟩
  | spawned hr' hf' hasync' _ =>
    cases hr.symm.trans hr'
    cases hf.symm.trans hf'
    simp [hasync] at hasync'

/-- The call yields what is in slot zero when the function returns. -/
theorem Bracket.evaluates (hh : host.Intrudes) (hb : Bracket host op f rest t m m₁ m₂ t₂ m')
    (hfit : m'.room ≤ Heap.slotLimit) {v : Value} (hg : ConstructFrame op f rest t v m₁ g) :
    ∃ w, t₂.fiber.stack.get? g.base = some w ∧ Evaluates op f rest t w m' := by
  obtain ⟨g', ⟨⟨t₁, ht₁, hf₁⟩, -⟩, -, v', below, w, stack, hpop, hyields, hreplace, hrun, -⟩ :=
    hb.evened hh hfit
  obtain ⟨t₁', ht₁', hf₁'⟩ := hg.pushed
  cases ht₁.symm.trans ht₁'
  obtain rfl : g' = g := (List.cons.inj (hf₁.symm.trans hf₁')).1
  rw [Frame.Yields, if_pos hg.constructs] at hyields
  exact ⟨w, OperandStack.get?_of_pop hpop hyields, _, hrun, rfl, rfl,
    OperandStack.collapses_replaceTop hreplace⟩

/-- A function that spares its slot zero finds the instance there in the end. -/
theorem ConstructFrame.kept (hh : host.Intrudes) {v : Value}
    (ho : Opening host op f rest t m m₁) (hg : ConstructFrame op f rest t v m₁ g)
    (hs : ReflTransGen (Sparing host t.id (rest.length + 1)) m₁ m₂)
    (hfit : m₂.room ≤ Heap.slotLimit) (ht₂ : m₂.running = some t₂) (hid : t₂.id = t.id) :
    t₂.fiber.stack.get? g.base = some v := by
  have hinside := ReflTransGen.mono (fun _ _ => Sparing.inside) _ _ hs
  obtain ⟨row, g', hframe, hstanding⟩ :=
    ho.standing hh ((room_le_of_inside hh hinside).trans hfit)
  obtain ⟨t₁, ht₁, hid₁, hzero⟩ := hg.zero
  obtain ⟨t₁', ht₁', hf₁⟩ := hg.pushed
  cases ht₁.symm.trans ht₁'
  have hupon : Upon g (f.skip op.callBytes :: rest) t₁.fiber.work.frames :=
    (show t₁.fiber.work.frames = _ from hf₁) ▸ .itself g.ip
  have hkept : ZeroKept t.id g (f.skip op.callBytes :: rest) t₁.fiber.stack row m₁ :=
    ⟨hstanding.nested, hstanding.tended, _, hid₁ ▸ work?_running ht₁, hupon, .refl ..⟩
  obtain ⟨row', hkept'⟩ := hkept.run hh hs hfit
  obtain ⟨-, hstack⟩ := hkept'.running ht₂ hid
  exact (hstack.get? _ (Nat.lt_succ_self _)).trans hzero

/-- What holds of every call of a class in every run, as long as the slots of the heap can be told
apart. -/
structure InstantiationGuarantees (host : HostFunctions) : Prop where
  /-- The instance is a new one of the class. -/
  made : ∀ {op f rest cls o t m m₁}, ClassCall host op f rest cls o t m m₁ →
    IsNew cls o m.heap (withConstruct cls o m.heap) (madeInstance cls m.heap)
  /-- The call evaluates to it without `construct` and with a native function, and it is in slot
  zero of a function that runs at once. For an async function the call evaluates to nil. -/
  instantiates : ∀ {op f rest cls o t m m₁}, ClassCall host op f rest cls o t m m₁ →
    Instantiates host op f rest cls o t m m₁
  /-- A function that runs at once lets the call evaluate to what is in slot zero in the end. -/
  yields : ∀ {op f rest cls o t m m₁ m₂ t₂ m'}, ClassCall host op f rest cls o t m m₁ →
    RunsConstruct cls o m.heap → Bracket host op f rest t m m₁ m₂ t₂ m' →
    m'.room ≤ Heap.slotLimit →
    ∃ v, t₂.fiber.stack.get? (t.fiber.stack.size - (f.count op + 1)) = some v ∧
      Evaluates op f rest t v m'
  /-- That is the instance, whatever the function does and returns, if it spares its slot zero. -/
  spared : ∀ {op f rest cls o t m m₁ m₂ t₂ m'}, ClassCall host op f rest cls o t m m₁ →
    RunsConstruct cls o m.heap → Bracket host op f rest t m m₁ m₂ t₂ m' →
    ReflTransGen (Sparing host t.id (rest.length + 1)) m₁ m₂ → m'.room ≤ Heap.slotLimit →
    Evaluates op f rest t (madeInstance cls m.heap) m'

theorem instantiationGuarantees (hh : host.Intrudes) : InstantiationGuarantees host where
  made hc := by
    obtain ⟨hw, hfit, -⟩ := hc.constructs hh
    exact isNew_madeInstance hw hfit hc.object
  instantiates hc := hc.instantiates hh
  yields hc hsync hb hfit := by
    obtain ⟨-, g, hg⟩ := hc.entered hh hsync
    obtain ⟨v, hv, he⟩ := hb.evaluates hh hfit hg
    have hbase := hg.base
    exact ⟨v, by rw [← hv]; congr 1; omega, he⟩
  spared hc hsync hb hs hfit := by
    obtain ⟨ho, g, hg⟩ := hc.entered hh hsync
    obtain ⟨v, hv, he⟩ := hb.evaluates hh hfit hg
    have hfit₂ := (Steps.idle hh (.instruction hb.returns)).room_le.trans hfit
    have hkept := hg.kept hh ho hs hfit₂ hb.returning.1 hb.returning.2.1
    rwa [Option.some.inj (hv.symm.trans hkept)] at he

/-- A program that calls two classes. The `construct` of the first one pushes nil and returns it, and
that of the second one assigns true to slot zero and returns. -/
def instantiator : Prototype where
  name := "script"
  arity := 0
  isAsync := false
  code := #[Opcode.newClass.toByte, 0, 0, Opcode.constant.toByte, 1, Opcode.method.toByte, 0, 2,
    Opcode.call.toByte, 0, Opcode.newClass.toByte, 0, 0, Opcode.constant.toByte, 3,
    Opcode.method.toByte, 0, 2, Opcode.call.toByte, 0, Opcode.ret.toByte]
  constants := [.text "C",
    .function ⟨"f", 0, false, #[Opcode.pushNil.toByte, Opcode.ret.toByte], [], #[]⟩,
    .text "construct",
    .function ⟨"g", 0, false, #[Opcode.pushTrue.toByte, Opcode.setLocal.toByte, 0, 0,
      Opcode.ret.toByte], [], #[]⟩]
  lines := #[]

/-- Whether the outermost frame comes to a call of a class with a function that runs at once under
`construct`. -/
def comesToClass (m : Machine) : Bool :=
  m.running.any fun t => match t.fiber.frames with
    | [f] => f.opcode? = some .call && match t.fiber.stack.peek (f.count .call) with
      | .error _ => false
      | .ok v => v.toHandle?.any fun cls => (m.heap.get? cls).any fun o =>
          o.kind = .classObject && (constructOf? cls o m.heap).any fun r =>
            match m.heap.function r with
            | .ok fn => !fn.isAsync
            | .error _ => false
    | _ => false

theorem exists_classCall {p : Prototype} {n : Nat} (hcalls : comesToClass (executing p n) = true)
    (hstart : yields (start p) () (new {}) = true)
    (hn : ∀ k < n + 1, yields (instruction Probe.host) () (executing p k) = true)
    (hfit : (executing p (n + 1)).room ≤ Heap.slotLimit) :
    ∃ f cls o t, ClassCall Probe.host .call f [] cls o t (executing p n) (executing p (n + 1)) ∧
      RunsConstruct cls o (executing p n).heap := by
  have ho := orderly_new {} (by decide +kernel)
  have hbegun : (new {}).running = none := by decide +kernel
  obtain ⟨own, hrun⟩ := run_executing hstart fun k hk => hn k (Nat.lt_succ_of_lt hk)
  have hok := executing_succ (hn n (Nat.lt_succ_self n))
  simp only [comesToClass, Option.any_eq_true] at hcalls
  obtain ⟨t, ht, hcalls⟩ := hcalls
  split at hcalls
  case h_2 => cases hcalls
  case h_1 f hf =>
    simp only [Bool.and_eq_true, decide_eq_true_eq] at hcalls
    obtain ⟨hop, hcalls⟩ := hcalls
    split at hcalls
    case h_1 => cases hcalls
    case h_2 v hpeek =>
      simp only [Option.any_eq_true, Bool.and_eq_true, decide_eq_true_eq] at hcalls
      obtain ⟨cls, hv, o, hget, hkind, r, hr, hsync⟩ := hcalls
      have hclass : ∃ className, o.body = .classObject className := by
        rw [Object.kind] at hkind
        cases hb : o.body <;> simp only [hb, Body.kind, reduceCtorEq] at hkind
        exact ⟨_, rfl⟩
      split at hsync
      case h_2 => cases hsync
      case h_1 fn hf' =>
        rw [← Value.ofHandle_of_toHandle? hv] at hpeek
        exact ⟨f, cls, o, t, ⟨⟨new {}, own, ho.scheduled.wellFormed, hbegun, hrun⟩, ht, hf, hop,
          .call hpeek, hget, hclass, hok, hfit⟩, r, fn, hr, hf', by simpa using hsync⟩

variable {p : Prototype} {k count : Nat}

theorem inside_executing (hc : comesTo (executing p k) op 1 count = true)
    (htakes : ∀ f : Frame, op.takes (f.count op) ≤ count) (hop : op ≠ .ret)
    (hid : (executing p k).runningId? = some r)
    (hok : yields (instruction Probe.host) () (executing p k) = true) :
    Inside Probe.host r 1 (executing p k) (executing p (k + 1)) := by
  obtain ⟨t, f, rest, ht, hf, hop', -, hb⟩ := exists_of_comesTo hc
  have hr : t.id = r := Option.some.inj ((runningId?_some ht).symm.trans hid)
  have hle := htakes f
  exact .within ht hr hf hop' (by omega) (absurd · hop) (executing_succ hok)

theorem sparing_executing (hc : comesTo (executing p k) op 1 count = true)
    (htakes : ∀ f : Frame, op.takes (f.count op) < count) (hop : op ≠ .ret) (hset : op ≠ .setLocal)
    (hid : (executing p k).runningId? = some r)
    (hok : yields (instruction Probe.host) () (executing p k) = true) :
    Sparing Probe.host r 1 (executing p k) (executing p (k + 1)) := by
  obtain ⟨t, f, rest, ht, hf, hop', hlength, hb⟩ := exists_of_comesTo hc
  have hr : t.id = r := Option.some.inj ((runningId?_some ht).symm.trans hid)
  have hle := htakes f
  have hfloor : floor 1 f rest = f.base + 1 := if_pos hlength
  exact .within ht hr hf hop' (by omega) (absurd · hset) (absurd · hop) (executing_succ hok)

theorem exists_bracket (ho : Opening Probe.host .call f [] t m m₁)
    (hinside : ReflTransGen (Inside Probe.host t.id 1) m₁ (executing p k))
    (hret : comesTo (executing p k) .ret 1 1 = true)
    (hid : (executing p k).runningId? = some t.id)
    (hok : yields (instruction Probe.host) () (executing p k) = true) :
    ∃ t₂, Bracket Probe.host .call f [] t m m₁ (executing p k) t₂ (executing p (k + 1)) := by
  obtain ⟨t₂, f₂, rest₂, ht₂, hf₂, hop₂, hlength, hb⟩ := exists_of_comesTo hret
  have hid₂ : t₂.id = t.id := Option.some.inj ((runningId?_some ht₂).symm.trans hid)
  exact ⟨t₂, ho, hinside, ⟨ht₂, hid₂, f₂, rest₂, hf₂, hlength, hop₂, hb⟩, executing_succ hok⟩

theorem yields_instantiator : ∀ n < 13,
    yields (instruction Probe.host) () (executing instantiator n) = true := by decide +kernel

theorem room_instantiator : ∀ n < 14, (executing instantiator n).room ≤ Heap.slotLimit := by
  decide +kernel

theorem exists_instantiator_call {n : Nat} (hn : n < 13)
    (hcalls : comesToClass (executing instantiator n) = true) :
    ∃ f cls o t, ClassCall Probe.host .call f [] cls o t (executing instantiator n)
        (executing instantiator (n + 1)) ∧ RunsConstruct cls o (executing instantiator n).heap ∧
      ∀ k < 13, (executing instantiator k).runningId? = some t.id := by
  have hstart : yields (start instantiator) () (new {}) = true := by decide +kernel
  obtain ⟨f, cls, o, t, hc, hsync⟩ := exists_classCall hcalls hstart
    (fun k hk => yields_instantiator k (by omega)) (room_instantiator (n + 1) (by omega))
  have hids : ∀ k < 13, (executing instantiator k).runningId? =
      (executing instantiator 0).runningId? := by decide +kernel
  exact ⟨f, cls, o, t, hc, hsync, fun k hk =>
    (hids k hk).trans ((hids n hn).symm.trans (runningId?_some hc.running))⟩

/-- The first call evaluates to its instance, and the second one does not. -/
theorem instantiationGuarantees_probe : InstantiationGuarantees Probe.host ∧
    (∃ f cls o t t₂ m₁ m₂, ClassCall Probe.host .call f [] cls o t (executing instantiator 3) m₁ ∧
      Bracket Probe.host .call f [] t (executing instantiator 3) m₁ m₂ t₂
        (executing instantiator 6) ∧
      ReflTransGen (Sparing Probe.host t.id 1) m₁ m₂ ∧
      Evaluates .call f [] t (madeInstance cls (executing instantiator 3).heap)
        (executing instantiator 6)) ∧
    ∃ f cls o t t₂ m₁ m₂, ClassCall Probe.host .call f [] cls o t (executing instantiator 9) m₁ ∧
      Bracket Probe.host .call f [] t (executing instantiator 9) m₁ m₂ t₂
        (executing instantiator 13) ∧
      ¬ Evaluates .call f [] t (madeInstance cls (executing instantiator 9).heap)
        (executing instantiator 13) := by
  have hi : InstantiationGuarantees Probe.host := instantiationGuarantees intrudes_probe
  refine ⟨hi, ?_, ?_⟩
  · have hpush : comesTo (executing instantiator 4) .pushNil 1 1 = true := by decide +kernel
    have hret : comesTo (executing instantiator 5) .ret 1 1 = true := by decide +kernel
    obtain ⟨f, cls, o, t, hc, hsync, hid⟩ :=
      exists_instantiator_call (n := 3) (by decide) (by decide +kernel)
    have hpushes := sparing_executing hpush (fun _ => Nat.one_pos) nofun nofun (hid 4 (by decide))
      (yields_instantiator 4 (by decide))
    obtain ⟨t₂, hb⟩ := exists_bracket (hc.entered intrudes_probe hsync).1 (.single hpushes.inside)
      hret (hid 5 (by decide)) (yields_instantiator 5 (by decide))
    exact ⟨f, cls, o, t, t₂, _, _, hc, hb, .single hpushes,
      hi.spared hc hsync hb (.single hpushes) (room_instantiator 6 (by decide))⟩
  · have hpush : comesTo (executing instantiator 10) .pushTrue 1 0 = true := by decide +kernel
    have hset : comesTo (executing instantiator 11) .setLocal 1 1 = true := by decide +kernel
    have hret : comesTo (executing instantiator 12) .ret 1 1 = true := by decide +kernel
    have htop : (executing instantiator 13).running.bind (fun t =>
        t.fiber.stack.get? (t.fiber.stack.size - 1)) = some (.ofBool true) := by decide +kernel
    obtain ⟨f, cls, o, t, hc, hsync, hid⟩ :=
      exists_instantiator_call (n := 9) (by decide) (by decide +kernel)
    have hpushes := inside_executing hpush (fun _ => Nat.le_refl _) nofun (hid 10 (by decide))
      (yields_instantiator 10 (by decide))
    have hassigns := inside_executing hset (fun _ => Nat.le_refl _) nofun (hid 11 (by decide))
      (yields_instantiator 11 (by decide))
    obtain ⟨t₂, hb⟩ := exists_bracket (hc.entered intrudes_probe hsync).1
      (.tail (.single hpushes) hassigns) hret (hid 12 (by decide))
      (yields_instantiator 12 (by decide))
    refine ⟨f, cls, o, t, t₂, _, _, hc, hb, fun ⟨t', ht', _, _, hcollapses⟩ => ?_⟩
    rw [ht', Option.bind_some, hcollapses.top, Option.some.injEq] at htop
    have htrue := congrArg Value.toHandle? htop
    rw [madeInstance, Value.toHandle?_ofHandle, Value.toHandle?_ofBool] at htrue
    cases htrue

end Machine

end FiberMachine
