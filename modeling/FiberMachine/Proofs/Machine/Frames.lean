import FiberMachine.Proofs.Machine.Queues

/-!
# What becomes of the frames

An instruction that finds its operands in its frame leaves alone what is below. A call puts a
frame on top of the others, with its base where the callee was, and a return takes one away. A
fiber that sleeps or imports hands over to another one, and keeps its frames meanwhile.
-/

namespace FiberMachine

open Relation (ReflTransGen)
open OperandStack (SameBelow)

theorem OperandStack.lt_of_peek {s : OperandStack} {distance : Nat} {v : Value}
    (h : s.peek distance = .ok v) : distance < s.size := by
  by_contra hd
  rw [peek_of_le (Nat.not_lt.mp hd)] at h
  cases h

/-- The number of bytes in the code of an instruction that calls. -/
def Opcode.callBytes (op : Opcode) : Nat := if op = .invoke then 4 else 2

namespace Machine

open Running (Goes)

variable {host : HostFunctions} {m m₁ m' : Machine} {row : List Handle} {t : Running} {f : Frame}
  {rest : List Frame} {op : Opcode} {argc : Nat}

/-! ## Calls -/

/-- A call has put a frame on top of the others, with its base in place of the callee, or it has
replaced the callee and the arguments. -/
inductive Called (argc : Nat) (t : Running) (m' : Machine) : Prop
  | entered {g : Frame} {stack : OperandStack} : g.base + (argc + 1) = t.fiber.stack.size →
      SameBelow g.base t.fiber.stack stack →
      m'.running = some ⟨t.id, { t.fiber with stack, frames := g :: t.fiber.frames }⟩ →
      Called argc t m'
  | replaced {t' : Running} : m'.running = some t' →
      Goes (t.fiber.stack.size - (argc + 1)) t t' → Called argc t m'

/-- A value may be put in place of the callee before. -/
theorem Called.of_poke {v : Value} {stack : OperandStack} (hpoke : t.fiber.stack.poke argc v = .ok stack)
    (h : Called argc ⟨t.id, { t.fiber with stack }⟩ m') : Called argc t m' := by
  have hsize := OperandStack.size_of_poke hpoke
  have hlt := (OperandStack.poke_eq_ok hpoke).1
  have hbelow : ∀ {b}, b + (argc + 1) ≤ t.fiber.stack.size → SameBelow b t.fiber.stack stack :=
    fun hb => ((OperandStack.takes_poke (Nat.lt_succ_self argc) v).below _ _ _ hb hpoke).1
  cases h with
  | entered hbase hstack hrun =>
    have hbase := hbase.trans hsize
    exact .entered hbase ((hbelow hbase.le).trans hstack) hrun
  | replaced hrun hgoes =>
    dsimp only at hgoes
    rw [hsize] at hgoes
    have hpoked : Goes (t.fiber.stack.size - (argc + 1)) t ⟨t.id, { t.fiber with stack }⟩ :=
      ⟨rfl, .refl _, hbelow (by omega)⟩
    exact .replaced hrun (hpoked.trans hgoes)

/-- An action calls what is below a number of arguments. -/
class Answers (argc : Nat) (x : Act Unit) : Prop where
  called : ∀ {m m' t v}, m.running = some t → t.fiber.stack.peek argc = .ok v →
    x m = .ok () m' → Called argc t m'

namespace Answers

theorem of_uses {x : Act Unit} {k : Nat} (hx : Uses (argc + 1) x k) : Answers argc x where
  called {m m' t v} ht hv h := by
    have hlt := OperandStack.lt_of_peek hv
    have hb : t.fiber.stack.size - (argc + 1) + (argc + 1) ≤ t.fiber.stack.size := by omega
    obtain ⟨t', ht', hgoes, -⟩ := hx.uses ht hb h
    exact .replaced ht' hgoes

instance (priority := low) of_sameRunning {x : Act Unit} [hx : Makes SameRunning x] :
    Answers argc x where
  called {m m' t v} ht _ h := by
    have hrun : m'.running = m.running := sameRunning_of_row (after_ok h ▸ hx.row m)
    exact .replaced (hrun.trans ht) (.refl ..)

theorem throw (e : Fault) : Answers argc (throw e : Act Unit) := ⟨fun _ _ h => by cases h⟩

theorem behind {α : Type} {x : Act α} {g : α → Act Unit} [hx : Makes SameRunning x]
    (hg : ∀ a, Answers argc (g a)) : Answers argc (x >>= g) where
  called ht hv h := by
    obtain ⟨a, m₁, hxm, hgm⟩ := bind_eq_ok h
    have hrun : m₁.running = _ := sameRunning_of_row (after_ok hxm ▸ hx.row _)
    exact (hg a).called (hrun.trans ht) hv hgm

theorem behind_poke {w : Value} {x : Unit → Act Unit} (hx : ∀ a, Answers argc (x a)) :
    Answers argc (poke argc w >>= x) where
  called {m m' t v} ht hv h := by
    obtain ⟨a, m₁, hpoke, hxm⟩ := bind_eq_ok h
    obtain ⟨stack, hstack, rfl⟩ := changeStack_eq_ok ht hpoke
    have hcalled : Called argc ⟨t.id, { t.fiber with stack }⟩ m' :=
      (hx a).called rfl (OperandStack.peek_poke hstack) hxm
    exact hcalled.of_poke hstack

theorem parts {x : Act Unit} (hx : Answers argc x := by
    repeat' first
      | infer_instance
      | exact Answers.throw _
      | exact Answers.of_uses (Uses.bind inferInstance fun _ => inferInstance)
      | with_reducible refine Answers.behind_poke fun _ => ?_
      | with_reducible refine Answers.behind fun _ => ?_
      | split
      | dsimp only) : Answers argc x := hx

end Answers

instance (r : Handle) (constructs : Bool) : Answers argc (callFunction r argc constructs) where
  called {m m' t zero} ht hzero h := by
    have hlt := OperandStack.lt_of_peek hzero
    cases entered_callFunction ht hzero h with
    | @pushed e f stack _ _ _ _ hpoke hrun =>
      have hbase : t.fiber.stack.size - (argc + 1) + (argc + 1) = t.fiber.stack.size := by omega
      have hbelow := ((OperandStack.takes_poke (Nat.lt_succ_self argc) _).below _ _ _ hbase.le hpoke).1
      exact .entered (g := e.frame f _) hbase hbelow hrun
    | spawned _ _ _ hstack hrun _ _ _ _ _ _ =>
      have htakes : OperandStack.Takes (argc + 1) (·.replaceTop (argc + 1) .nil) 1 := inferInstance
      have hbelow := (htakes.below (t.fiber.stack.size - (argc + 1)) _ _ (by omega) hstack).1
      exact .replaced hrun ⟨rfl, .refl _, hbelow⟩

section Natives

variable [∀ n args, Makes SameRunning (runNative host n args)]

instance (n : Native) (receiver : Option Value) :
    Uses (argc + 1) (callNative host n argc receiver) 1 := by
  unfold callNative
  exact .parts

instance (n : Native) (receiver : Option Value) : Answers argc (callNative host n argc receiver) :=
  .of_uses inferInstance

instance (cls : Handle) : Answers argc (callClass host cls argc) := by
  unfold callClass
  exact .parts

instance (r : Handle) : Answers argc (callUnbound host r argc) := by
  unfold callUnbound
  exact .parts

instance (receiver : Value) (r : Handle) : Answers argc (callBound host receiver r argc) := by
  unfold callBound
  exact .parts

instance (callee : Value) : Answers argc (callValue host callee argc) := by
  unfold callValue
  exact .parts

instance (receiver method : Value) : Answers argc (callMethod host receiver method argc) := by
  unfold callMethod
  exact .parts

instance (name : Handle) : Answers argc (invoke host name argc) := by
  unfold invoke
  exact .parts

end Natives

/-- The frame that calls is behind the instruction. -/
theorem called_execute [∀ n args, Makes SameRunning (runNative host n args)]
    (hop : op = .call ∨ op = .invoke) (ht : m.running = some t) (hf : t.fiber.frames = f :: rest)
    (h : execute host op (m.skip 1) = .ok () m') : Called (f.count op) (t.skip op.callBytes) m' := by
  rcases hop with rfl | rfl
  · obtain ⟨count, m₁, hread, hcallee⟩ := bind_eq_ok (x := readCount) h
    obtain ⟨rfl, rfl⟩ := readCount_skip ht hf hread
    have ht₁ := running_skip (k := 1 + 1) ht
    obtain ⟨v, m₁, hpeek, hcallee⟩ := bind_eq_ok hcallee
    obtain ⟨rfl, hv⟩ := peek_eq_ok ht₁ hpeek
    have hcalls : Answers (f.byteAt 1) (callValue host v (f.byteAt 1)) := inferInstance
    exact hcalls.called ht₁ hv hcallee
  · obtain ⟨name, m₁, hread, hmember⟩ := bind_eq_ok (x := readName) h
    obtain rfl := readName_eq_ok hread
    rw [skip_skip] at hmember
    obtain ⟨count, m₁, hread, hmember⟩ := bind_eq_ok hmember
    obtain ⟨rfl, rfl⟩ := readCount_skip ht hf hread
    have ht₁ := running_skip (k := 1 + 2 + 1) ht
    have hinvoke := hmember
    obtain ⟨v, m₁, hpeek, -⟩ := bind_eq_ok hmember
    obtain ⟨rfl, hv⟩ := peek_eq_ok ht₁ hpeek
    have hcalls : Answers (f.byteAt 3) (invoke host name (f.byteAt 3)) := inferInstance
    exact hcalls.called ht₁ hv hinvoke

/-! ## Handing over -/

/-- The running fiber goes on, or another one runs now; it keeps its work in any case. -/
structure HandsOver (m m' : Machine) : Prop where
  room_le : m.room ≤ m'.room
  keeps : ∀ row t, Nested row m → m.running = some t → m'.room ≤ Heap.slotLimit →
    ∃ row', Nested row' m' ∧ Tended row' m' t.id ∧ m'.work? t.id = some t.fiber.work

theorem HandsOver.of_row (hr : ReflTransGen Move m m') (hs : m'.running = m.running) :
    HandsOver m m' := by
  refine ⟨room_le_of_row hr, fun row t hn ht hfit => ?_⟩
  obtain ⟨hw, ha⟩ := row_alike hr hn.wellFormed hfit
  have ht' := hs.trans ht
  exact ⟨row, hn.alike hw ha, .running (runningId?_some ht'), work?_running ht'⟩

theorem HandsOver.behind (hr : ReflTransGen Move m m₁) (hs : m₁.running = m.running)
    (h : HandsOver m₁ m') : HandsOver m m' := by
  refine ⟨(room_le_of_row hr).trans h.room_le, fun row t hn ht hfit => ?_⟩
  obtain ⟨hw, ha⟩ := row_alike hr hn.wellFormed (h.room_le.trans hfit)
  exact h.keeps row t (hn.alike hw ha) (hs.trans ht) hfit

namespace HandsOver

variable {α β : Type} {x : Act α} {g : α → Act β}

instance (priority := low) quiet [hx : Makes Move x] [hs : Makes SameRunning x] :
    Leads HandsOver x where
  leads m _ _ h := .of_row (after_ok h ▸ hx.row m) (sameRunning_of_row (after_ok h ▸ hs.row m))

theorem bind (hx : Makes Move x) (hs : Makes SameRunning x) (hg : ∀ a, Leads HandsOver (g a)) :
    Leads HandsOver (x >>= g) where
  leads m _ _ h := by
    obtain ⟨a, m₁, hxm, hgm⟩ := bind_eq_ok h
    have hrun := sameRunning_of_row (after_ok hxm ▸ hs.row m)
    exact .behind (after_ok hxm ▸ hx.row m) hrun ((hg a).leads _ _ _ hgm)

theorem parts (hx : Leads HandsOver x := by
    repeat' first
      | infer_instance
      | with_reducible refine HandsOver.bind inferInstance inferInstance fun _ => ?_
      | split
      | dsimp only) : Leads HandsOver x := hx

end HandsOver

/-- What is tended has the work that it had, if no other work is known of it. -/
theorem Adds.work_eq (ha : Adds m m') (hn : Nested row m) (hfit : m'.room ≤ Heap.slotLimit)
    (ht : m.running = some t) {row' : List Handle} (hn' : Nested row' m')
    (ht' : Tended row' m' t.id) : m'.work? t.id = some t.fiber.work := by
  obtain ⟨w, hw⟩ := ht'.exists_work hn'
  rw [hw, ha.work_running hn.toHoused hfit ht hw]

instance (delay : Duration) : Leads HandsOver (sleep delay) where
  leads m u m' h := by
    refine ⟨after_ok h ▸ room_le_after (sleep delay) m, fun row t hn ht hfit => ?_⟩
    have hs : Shifting m m' := Leads.leads _ _ _ h
    have ha : Adds m m' := (Leads.of_rests (x := sleep delay) inferInstance).leads _ _ _ h
    obtain ⟨row', hshifts⟩ := hs.shifts row hn hfit
    have hasleep := (hn.fallsAsleep_sleep ht h).state
    have ht' : Tended row' m' t.id := by
      refine (hshifts.tended t.id (.running (runningId?_some ht))).resolve_right fun hdone => ?_
      rw [hasleep] at hdone
      cases hdone.2
    exact ⟨row', hshifts.nested, ht', ha.work_eq hn hfit ht hshifts.nested ht'⟩

/-- A new fiber runs at once, and the other one waits for it. -/
theorem handsOver_newFiber (kind : FiberKind) (function : Handle) (args : List Value)
    (caller module : Option Handle) :
    Leads HandsOver (do resume (← newFiber kind function args caller module) : Act Unit) where
  leads m _ m' h := by
    have ha : Adds m m' := (leads_newFiber kind function args caller module).leads _ _ _ h
    refine ⟨ha.room_le, fun row t hn ht hfit => ?_⟩
    obtain ⟨r, _, hnew, h⟩ := bind_eq_ok h
    obtain ⟨f, hf, rfl, rfl⟩ := newFiber_eq_ok hnew
    have hroom : (m.withNewFiber f).room ≤ m'.room := after_ok h ▸ room_le_after _ _
    have hj := hn.newFiber (hroom.trans hfit)
    obtain ⟨row', hresumed⟩ := hj.nested.resumed h
    have hn' := hresumed.nested hj.nested
    have ht' := hresumed.tended (.inl (hj.tended t.id (.running (runningId?_some ht))))
    exact ⟨row', hn', ht', ha.work_eq hn hfit ht hn' ht'⟩

instance (key : Handle) (code : Prototype) : Leads HandsOver (startModule key code) := by
  unfold startModule
  refine HandsOver.bind inferInstance inferInstance fun _ =>
    HandsOver.bind inferInstance inferInstance fun _ =>
    HandsOver.bind inferInstance inferInstance fun _ =>
    HandsOver.bind inferInstance inferInstance fun _ => handsOver_newFiber ..

instance (name : String) (key : Handle) : Leads HandsOver (importFile name key) := by
  unfold importFile
  exact HandsOver.parts

instance (name : Handle) (as : Option Handle) : Leads HandsOver (importModule name as) := by
  unfold importModule
  exact HandsOver.parts

/-! ## Returns -/

/-- A return that does not end the fiber. -/
theorem returned_execute (ht : m.running = some t) (hf : t.fiber.frames = f :: rest)
    (hrest : rest ≠ []) (h : execute host .ret (m.skip 1) = .ok () m') : ∃ v below w stack,
      t.fiber.stack.pop = .ok (v, below) ∧ f.Yields v below w ∧
      (below.truncate f.base).push w = .ok stack ∧
      m'.running = some ⟨t.id, { t.fiber with stack, frames := rest }⟩ := by
  obtain ⟨t₁, ht₁, hreturns⟩ := returns_of_ok h
  cases (running_skip ht).symm.trans ht₁
  have hf₁ := Running.frames_skip_cons hf 1
  cases hreturns with
  | on hframes _ hpop hyields hpush hm' =>
    obtain ⟨rfl, rfl⟩ := List.cons.inj (hf₁.symm.trans hframes)
    exact ⟨_, _, _, _, hpop, hyields, hpush, hm' ▸ rfl⟩
  | ends hframes _ _ => exact absurd (List.cons.inj (hf₁.symm.trans hframes)).2 hrest

/-- What a return puts on the stack stands on what was below the frame. -/
theorem sameBelow_yield {s below stack : OperandStack} {b : Nat} {v w : Value}
    (hpop : s.pop = .ok (v, below)) (hb : b + 1 ≤ s.size)
    (hpush : (below.truncate b).push w = .ok stack) : SameBelow b s stack := by
  obtain ⟨hbelow, hsize⟩ := OperandStack.sameBelow_pop hpop hb
  have htruncate : SameBelow b below (below.truncate b) :=
    OperandStack.sameBelow_truncate (Nat.le_refl b)
  have hat : (below.truncate b).size = b := OperandStack.size_truncate (by omega)
  exact (hbelow.trans htruncate).trans (OperandStack.sameBelow_push hpush hat.ge)

/-! ## Instructions -/

variable {b : Nat}

/-- What an instruction that takes its operands from above a level makes of the frames. -/
inductive Turned (b : Nat) (op : Opcode) (f : Frame) (rest : List Frame) : List Frame → Prop
  | on (ip : Nat) : Turned b op f rest ({ f with ip } :: rest)
  | called {g : Frame} (ip : Nat) : b ≤ g.base → Turned b op f rest (g :: { f with ip } :: rest)
  | returned : op = .ret → Turned b op f rest rest

theorem turned_of_onward {frames : List Frame} (h : Onward (f :: rest) frames) :
    Turned b op f rest frames := by
  obtain ⟨ip, rfl⟩ := h.exists_ip
  exact .on ip

/-- A fiber has executed an instruction, and it will go on with some work. -/
structure Executed (b : Nat) (op : Opcode) (f : Frame) (rest : List Frame) (t : Running)
    (row : List Handle) (m' : Machine) (w : Work) : Prop where
  nested : Nested row m'
  tended : Tended row m' t.id
  work : m'.work? t.id = some w
  frames : Turned b op f rest w.frames
  stack : SameBelow b t.fiber.stack w.stack

theorem Nested.executed_running {t' : Running} (hn : Nested row m') (ht' : m'.running = some t')
    (hid : t'.id = t.id) (hframes : Turned b op f rest t'.fiber.frames)
    (hstack : SameBelow b t.fiber.stack t'.fiber.stack) :
    ∃ row' w, Executed b op f rest t row' m' w :=
  ⟨row, t'.fiber.work, hn, .running (hid ▸ runningId?_some ht'), hid ▸ work?_running ht', hframes,
    hstack⟩

theorem HandsOver.executed {t₁ : Running} (h : HandsOver m₁ m') (hn : Nested row m₁)
    (ht₁ : m₁.running = some t₁) (hid : t₁.id = t.id) (hframes : Turned b op f rest t₁.fiber.frames)
    (hstack : SameBelow b t.fiber.stack t₁.fiber.stack) (hfit : m'.room ≤ Heap.slotLimit) :
    ∃ row' w, Executed b op f rest t row' m' w := by
  obtain ⟨row', hn', htended, hwork⟩ := h.keeps row t₁ hn ht₁ hfit
  rw [hid] at htended hwork
  exact ⟨row', _, hn', htended, hwork, hframes, hstack⟩

theorem turned_skip {k : Nat} (hf : t.fiber.frames = f :: rest) :
    Turned b op f rest (t.skip k).fiber.frames := by
  rw [Running.frames_skip_cons hf]
  exact .on (f.ip + k)

theorem Nested.executed_import {name : Handle} {as : Option Handle} {k : Nat} (hn : Nested row m)
    (ht : m.running = some t) (hf : t.fiber.frames = f :: rest)
    (h : importModule name as (m.skip k) = .ok () m') (hfit : m'.room ≤ Heap.slotLimit) :
    ∃ row' w, Executed b op f rest t row' m' w := by
  have hs : HandsOver (m.skip k) m' := Leads.leads _ _ _ h
  exact hs.executed (hn.skip k) (running_skip ht) rfl (turned_skip hf) (.refl ..) hfit

theorem Nested.executed_await (hn : Nested row m) (ht : m.running = some t)
    (hf : t.fiber.frames = f :: rest) (hb : b + 1 ≤ t.fiber.stack.size)
    (h : execute host .await (m.skip 1) = .ok () m') (hfit : m'.room ≤ Heap.slotLimit) :
    ∃ row' w, Executed b op f rest t row' m' w := by
  obtain ⟨v, below, delay, hpop, -, hrow, hsleep⟩ := await_eq_ok ht h
  have hs : HandsOver ((m.skip 1).withStack (t.skip 1) below) m' := Leads.leads _ _ _ hsleep
  obtain ⟨hw, ha⟩ := row_alike hrow (hn.skip 1).wellFormed (hs.room_le.trans hfit)
  exact hs.executed ((hn.skip 1).alike hw ha) rfl rfl (turned_skip hf)
    (OperandStack.sameBelow_pop hpop hb).1 hfit

theorem Nested.executed_call [∀ n args, Makes SameRunning (runNative host n args)]
    (hn : Nested row m') (hop : op = .call ∨ op = .invoke) (ht : m.running = some t)
    (hf : t.fiber.frames = f :: rest) (hb : b + (f.count op + 1) ≤ t.fiber.stack.size)
    (h : execute host op (m.skip 1) = .ok () m') : ∃ row' w, Executed b op f rest t row' m' w := by
  cases called_execute hop ht hf h with
  | @entered g stack hbase hstack hrun =>
    have hbase : g.base + (f.count op + 1) = t.fiber.stack.size := hbase
    have hle : b ≤ g.base := by omega
    have hframes : Turned b op f rest (g :: (t.skip op.callBytes).fiber.frames) := by
      rw [Running.frames_skip_cons hf]
      exact .called (f.ip + op.callBytes) hle
    exact hn.executed_running hrun rfl hframes (hstack.mono hle)
  | replaced hrun hgoes =>
    have hle : b ≤ t.fiber.stack.size - (f.count op + 1) := by omega
    have hframes := hgoes.frames
    rw [Running.frames_skip_cons hf] at hframes
    obtain ⟨ip, hip⟩ := hframes.exists_ip
    exact hn.executed_running hrun hgoes.id (hip ▸ .on ip) (hgoes.stack.mono hle)

/-- An instruction that takes its operands from above a level, puts nothing below it, and does not
end the fiber. -/
theorem Nested.executed (hh : host.Intrudes) (hn : Nested row m) (ht : m.running = some t)
    (hf : t.fiber.frames = f :: rest) (hop : f.opcode? = some op)
    (hb : b + op.takes (f.count op) ≤ t.fiber.stack.size)
    (hassign : op = .setLocal → b ≤ f.base + f.shortAt 1)
    (hret : op = .ret → b ≤ f.base ∧ f.base + 1 ≤ t.fiber.stack.size ∧ rest ≠ [])
    (h : instruction host m = .ok () m') (hfit : m'.room ≤ Heap.slotLimit) :
    ∃ row' w, Executed b op f rest t row' m' w := by
  have := hh.sameRunning
  obtain ⟨row', hshifts⟩ := hn.step hh (.instruction h) hfit
  have hn' := hshifts.nested
  have h := execute_of_instruction (frame?_eq_some ht hf) hop h
  by_cases hlocal : op.isLocal
  · obtain ⟨t', ht', hgoes⟩ := goes_execute ht hf hassign hb hlocal h
    exact hn'.executed_running ht' hgoes.id (turned_of_onward (hf ▸ hgoes.frames)) hgoes.stack
  · -- what is left may push or pop a frame, or hand control to another fiber
    cases op with
    | ret =>
      obtain ⟨hbase, hown, hrest⟩ := hret rfl
      obtain ⟨v, below, w, stack, hpop, -, hpush, hrun⟩ := returned_execute ht hf hrest h
      have hstack := (sameBelow_yield hpop hown hpush).mono hbase
      exact hn'.executed_running hrun rfl (.returned rfl) hstack
    | call => exact hn'.executed_call (.inl rfl) ht hf hb h
    | invoke => exact hn'.executed_call (.inr rfl) ht hf hb h
    | await => exact hn.executed_await ht hf hb h hfit
    | importModule =>
      obtain ⟨name, m₁, hname, h⟩ := bind_eq_ok (x := readName) h
      obtain rfl := readName_eq_ok hname
      rw [skip_skip] at h
      exact hn.executed_import ht hf h hfit
    | importModuleAs =>
      obtain ⟨name, m₁, hname, h⟩ := bind_eq_ok (x := readName) h
      obtain rfl := readName_eq_ok hname
      obtain ⟨as, m₁, has, h⟩ := bind_eq_ok (x := readName) h
      obtain rfl := readName_eq_ok has
      rw [skip_skip, skip_skip] at h
      exact hn.executed_import ht hf h hfit
    | _ => exact absurd rfl hlocal

end Machine

end FiberMachine
