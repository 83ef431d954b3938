import FiberMachine.Proofs.Machine.Frames

/-!
# Calls and returns balance

From a call to the matching return the frame of the call and those above it stand over the
operands and the frames of the caller, and touch neither. So the return leaves the stack as the
call found it, with one value in place of the callee and the arguments, whatever was called,
awaited or imported in between and whichever other fibers ran.
-/

namespace FiberMachine

open Relation (ReflTransGen)
open OperandStack (SameBelow)

/-- A frame, as far as it may have come, and frames above it whose bases are not below its
own, on top of the frames of the callers. -/
inductive Over (g : Frame) (callers : List Frame) : List Frame → Prop
  | itself (ip : Nat) : Over g callers ({ g with ip } :: callers)
  | above {f : Frame} {frames : List Frame} : g.base ≤ f.base → Over g callers frames →
      Over g callers (f :: frames)

namespace Over

variable {g f : Frame} {callers rest frames : List Frame}

theorem length_lt (h : Over g callers frames) : callers.length < frames.length := by
  induction h with
  | itself ip => exact Nat.lt_succ_self _
  | above _ _ ih => exact Nat.lt_succ_of_lt ih

/-- The frame itself is the innermost one when there are no more. -/
theorem exists_ip (h : Over g callers frames) (hl : frames.length = callers.length + 1) :
    ∃ ip, frames = { g with ip } :: callers := by
  cases h with
  | itself ip => exact ⟨ip, rfl⟩
  | above _ h =>
    rw [List.length_cons, Nat.add_right_cancel_iff] at hl
    exact absurd h.length_lt (hl ▸ Nat.lt_irrefl _)

theorem base_le (h : Over g callers (f :: rest)) : g.base ≤ f.base := by
  cases h with
  | itself => exact Nat.le_refl _
  | above hbase _ => exact hbase

end Over

namespace Machine

variable {host : HostFunctions} {m m₁ m₂ m' : Machine} {row : List Handle} {r : Handle}
  {t t₂ : Running} {f g : Frame} {rest callers frames : List Frame} {op : Opcode}
  {s : OperandStack}

/-- An instruction that does not return from the frame leaves it over the callers. -/
theorem Turned.stands (ht : Turned f.base op f rest frames) (h : Over g callers (f :: rest))
    (hdeep : op = .ret → callers.length < rest.length) : Over g callers frames := by
  cases h with
  | itself ip =>
    cases ht with
    | on ip' => exact .itself ip'
    | called ip' hbase => exact .above hbase (.itself ip')
    | returned hret => exact absurd (hdeep hret) (Nat.lt_irrefl _)
  | above hbase h =>
    cases ht with
    | on ip' => exact .above hbase h
    | called ip' hbase' => exact .above (hbase.trans hbase') (.above hbase h)
    | returned => exact h

/-! ## From a call to its return -/

/-- A step between a call and its return: another fiber executes, or this one does, with its
operands in its frame, and does not return from the call. -/
inductive Inside (host : HostFunctions) (r : Handle) (depth : Nat) (m m' : Machine) : Prop
  | apart : Apart host r m m' → Inside host r depth m m'
  | within {t : Running} {f : Frame} {rest : List Frame} {op : Opcode} : m.running = some t →
      t.id = r → t.fiber.frames = f :: rest → f.opcode? = some op →
      f.base + op.takes (f.count op) ≤ t.fiber.stack.size → (op = .ret → depth < rest.length) →
      instruction host m = .ok () m' → Inside host r depth m m'

theorem Inside.room_le {depth : Nat} (hh : host.Intrudes) (hi : Inside host r depth m m') :
    m.room ≤ m'.room := by
  cases hi with
  | apart ha => exact (ha.step.idle hh).room_le
  | within _ _ _ _ _ _ h => exact (Steps.idle hh (.instruction h)).room_le

theorem room_le_of_inside {depth : Nat} (hh : host.Intrudes)
    (h : ReflTransGen (Inside host r depth) m m') : m.room ≤ m'.room := by
  induction h with
  | refl => exact Nat.le_refl _
  | tail _ hi ih => exact ih.trans (hi.room_le hh)

/-- The frame of a call and those above it stand over the frames of the callers and the operands
below. -/
structure Standing (r : Handle) (g : Frame) (callers : List Frame) (s : OperandStack)
    (row : List Handle) (m : Machine) : Prop where
  nested : Nested row m
  tended : Tended row m r
  work : ∃ w, m.work? r = some w ∧ Over g callers w.frames ∧ SameBelow g.base s w.stack

namespace Standing

theorem running (hs : Standing r g callers s row m) (ht : m.running = some t) (hid : t.id = r) :
    Over g callers t.fiber.frames ∧ SameBelow g.base s t.fiber.stack := by
  subst hid
  obtain ⟨w, hw, hover⟩ := hs.work
  rwa [← Option.some.inj ((work?_running ht).symm.trans hw)] at hover

theorem step (hh : host.Intrudes) (hs : Standing r g callers s row m)
    (hi : Inside host r callers.length m m') (hfit : m'.room ≤ Heap.slotLimit) :
    ∃ row', Standing r g callers s row' m' := by
  cases hi with
  | apart ha =>
    obtain ⟨row', haway⟩ := ha.away hh hs.nested hs.tended hfit
    obtain ⟨w, hw, hover⟩ := hs.work
    exact ⟨row', haway.nested, haway.tended, w, haway.work.trans hw, hover⟩
  | @within t f rest op ht hid hf hop hb hdeep h =>
    obtain ⟨hover, hstack⟩ := hs.running ht hid
    rw [hf] at hover
    have hret : op = .ret → f.base ≤ f.base ∧ f.base + 1 ≤ t.fiber.stack.size ∧ rest ≠ [] := by
      rintro rfl
      exact ⟨Nat.le_refl _, hb, List.ne_nil_of_length_pos (Nat.zero_lt_of_lt (hdeep rfl))⟩
    obtain ⟨row', w, he⟩ :=
      hs.nested.executed hh ht hf hop hb (fun _ => Nat.le_add_right ..) hret h hfit
    rw [← hid]
    exact ⟨row', he.nested, he.tended, w, he.work, he.frames.stands hover hdeep,
      hstack.trans (he.stack.mono hover.base_le)⟩

theorem run (hh : host.Intrudes) (hs : Standing r g callers s row m)
    (h : ReflTransGen (Inside host r callers.length) m m') (hfit : m'.room ≤ Heap.slotLimit) :
    ∃ row', Standing r g callers s row' m' := by
  induction h with
  | refl => exact ⟨row, hs⟩
  | tail _ hi ih =>
    obtain ⟨row₁, hs₁⟩ := ih ((hi.room_le hh).trans hfit)
    exact hs₁.step hh hi hfit

end Standing

/-- The frame of a call stands over the caller, which is behind the call. -/
theorem standing_of_call (hh : host.Intrudes) (hn : Nested row m) (ht : m.running = some t)
    (hf : t.fiber.frames = f :: rest) (hop : f.opcode? = some op) (hcall : op = .call ∨ op = .invoke)
    (h : instruction host m = .ok () m') (hfit : m'.room ≤ Heap.slotLimit)
    (hpushed : ∃ t', m'.running = some t' ∧ t'.fiber.frames.length = rest.length + 2) :
    ∃ row' t' g, m'.running = some t' ∧ t'.fiber.frames = g :: f.skip op.callBytes :: rest ∧
      g.base + (f.count op + 1) = t.fiber.stack.size ∧
      Standing t.id g (f.skip op.callBytes :: rest) t.fiber.stack row' m' := by
  have := hh.sameRunning
  obtain ⟨row', hshifts⟩ := hn.step hh (.instruction h) hfit
  have hskip := Running.frames_skip_cons hf op.callBytes
  obtain ⟨t', ht', hlength⟩ := hpushed
  have hexecute := execute_of_instruction (frame?_eq_some ht hf) hop h
  cases called_execute hcall ht hf hexecute with
  | @entered g stack hbase hstack hrun =>
    rw [hskip] at hrun
    let t₁ : Running :=
      ⟨t.id, { t.fiber with stack, frames := g :: f.skip op.callBytes :: rest }⟩
    have ht₁ : m'.running = some t₁ := hrun
    have hover : Over g (f.skip op.callBytes :: rest) t₁.fiber.work.frames := .itself g.ip
    have hid₁ : m'.runningId? = some t.id := runningId?_some (t := t₁) ht₁
    have hwork : m'.work? t.id = some t₁.fiber.work := work?_running (t := t₁) ht₁
    exact ⟨row', t₁, g, ht₁, rfl, hbase, hshifts.nested, .running hid₁, _, hwork, hover, hstack⟩
  | @replaced t'' hrun hgoes =>
    -- without a new frame there would be one too few
    cases ht'.symm.trans hrun
    obtain ⟨ip, hip⟩ := (hskip ▸ hgoes.frames).exists_ip
    rw [hip, List.length_cons] at hlength
    omega

/-- The matching return puts one value in place of what was called. -/
theorem Standing.returned (hs : Standing t.id g callers t.fiber.stack row m) {count : Nat}
    (hcallers : callers ≠ []) (hbase : g.base + count = t.fiber.stack.size)
    (ht : m.running = some t₂) (hid : t₂.id = t.id) (hf : t₂.fiber.frames = f :: rest)
    (hlength : rest.length = callers.length) (hop : f.opcode? = some .ret)
    (hb : f.base + 1 ≤ t₂.fiber.stack.size) (h : instruction host m = .ok () m') :
    (∃ ip, t₂.fiber.frames = { g with ip } :: callers) ∧
      ∃ v below w stack, t₂.fiber.stack.pop = .ok (v, below) ∧ g.Yields v below w ∧
        t.fiber.stack.replaceTop count w = .ok stack ∧
        m'.running = some ⟨t.id, { t₂.fiber with stack, frames := callers }⟩ := by
  obtain ⟨hover, hstack⟩ := hs.running ht hid
  -- there are no frames above that of the call, so that is the one that returns
  obtain ⟨ip, hip⟩ := hover.exists_ip (by rw [hf, List.length_cons, hlength])
  obtain ⟨rfl, rfl⟩ := List.cons.inj (hf.symm.trans hip)
  obtain ⟨v, below, w, stack, hpop, hyields, hpush, hrun⟩ :=
    returned_execute ht hf hcallers (execute_of_instruction (frame?_eq_some ht hf) hop h)
  refine ⟨⟨ip, hip⟩, v, below, w, stack, hpop, hyields, ?_, hid ▸ hrun⟩
  have hsame : SameBelow g.base t.fiber.stack below :=
    hstack.trans (OperandStack.sameBelow_pop hpop hb).1
  have hat : t.fiber.stack.size - count = g.base := by omega
  rw [OperandStack.replaceTop_of_le (by omega), hat, ← hsame.truncate_eq]
  exact hpush

/-! ## What is guaranteed -/

/-- An instruction of a run that calls and pushes a frame. -/
structure Opening (host : HostFunctions) (op : Opcode) (f : Frame) (rest : List Frame)
    (t : Running) (m m₁ : Machine) : Prop where
  run : ∃ begun own, begun.heap.WellFormed ∧ begun.running = none ∧ Run host begun own m
  calls : op = .call ∨ op = .invoke
  running : m.running = some t
  frames : t.fiber.frames = f :: rest
  opcode : f.opcode? = some op
  succeeds : instruction host m = .ok () m₁
  pushed : ∃ t₁, m₁.running = some t₁ ∧ t₁.fiber.frames.length = rest.length + 2

/-- A call, what is executed in its frame and above, and the matching return. -/
structure Bracket (host : HostFunctions) (op : Opcode) (f : Frame) (rest : List Frame)
    (t : Running) (m m₁ m₂ : Machine) (t₂ : Running) (m' : Machine) : Prop
    extends Opening host op f rest t m m₁ where
  inside : ReflTransGen (Inside host t.id (rest.length + 1)) m₁ m₂
  returning : m₂.running = some t₂ ∧ t₂.id = t.id ∧ ∃ f₂ rest₂, t₂.fiber.frames = f₂ :: rest₂ ∧
    rest₂.length = rest.length + 1 ∧ f₂.opcode? = some .ret ∧ f₂.base + 1 ≤ t₂.fiber.stack.size
  returns : instruction host m₂ = .ok () m'

/-- The frame that a call has pushed. It begins where the callee was, above the caller, which is
behind the call. -/
structure PushedFrame (op : Opcode) (f : Frame) (rest : List Frame) (t : Running) (m₁ : Machine)
    (g : Frame) : Prop where
  pushed : ∃ t₁, m₁.running = some t₁ ∧ t₁.fiber.frames = g :: f.skip op.callBytes :: rest
  base : g.base + (f.count op + 1) = t.fiber.stack.size

theorem Opening.standing (hh : host.Intrudes) {m₁ : Machine} (ho : Opening host op f rest t m m₁)
    (hfit : m₁.room ≤ Heap.slotLimit) : ∃ row g, PushedFrame op f rest t m₁ g ∧
      Standing t.id g (f.skip op.callBytes :: rest) t.fiber.stack row m₁ := by
  obtain ⟨⟨begun, own, hbegun, hrun, hr⟩, hcall, ht, hf, hop, h, hpushed⟩ := ho
  have hfit₀ := (Steps.idle hh (.instruction h)).room_le.trans hfit
  obtain ⟨row, hn, -⟩ := hr.nested hh hbegun hrun hfit₀
  obtain ⟨row₁, t₁, g, ht₁, hf₁, hbase, hs⟩ := standing_of_call hh hn ht hf hop hcall h hfit hpushed
  exact ⟨row₁, g, ⟨⟨t₁, ht₁, hf₁⟩, hbase⟩, hs⟩

/-- One value stands in place of the callee and the arguments: the one that is returned, or slot
zero if the frame of the call constructs. The caller goes on behind the call. -/
structure Evened (host : HostFunctions) (op : Opcode) (f : Frame) (rest : List Frame)
    (t : Running) (g : Frame) (t₂ : Running) (m' : Machine) : Prop where
  frames : ∃ ip, t₂.fiber.frames = { g with ip } :: f.skip op.callBytes :: rest
  stack : ∃ v below w stack, t₂.fiber.stack.pop = .ok (v, below) ∧ g.Yields v below w ∧
    t.fiber.stack.replaceTop (f.count op + 1) w = .ok stack ∧
    m'.running = some ⟨t.id, { t₂.fiber with stack, frames := f.skip op.callBytes :: rest }⟩ ∧
    ∀ m'', ReflTransGen (Apart host t.id) m' m'' → m''.room ≤ Heap.slotLimit →
      m''.work? t.id = some ⟨stack, f.skip op.callBytes :: rest, t₂.fiber.module⟩

theorem Bracket.evened (hh : host.Intrudes) (hb : Bracket host op f rest t m m₁ m₂ t₂ m')
    (hfit : m'.room ≤ Heap.slotLimit) :
    ∃ g, PushedFrame op f rest t m₁ g ∧ Evened host op f rest t g t₂ m' := by
  obtain ⟨hopening, hinside, ⟨ht₂, hid, f₂, rest₂, hf₂, hlength, hret, hoperand⟩, hreturns⟩ := hb
  have hfit₂ := (Steps.idle hh (.instruction hreturns)).room_le.trans hfit
  obtain ⟨row₁, g, hframe, hs₁⟩ := hopening.standing hh ((room_le_of_inside hh hinside).trans hfit₂)
  obtain ⟨row₂, hs₂⟩ := hs₁.run hh hinside hfit₂
  obtain ⟨hip, v, below, w, stack, hpop, hyields, hreplace, ht'⟩ :=
    hs₂.returned (List.cons_ne_nil _ _) hframe.base ht₂ hid hf₂ hlength hret hoperand hreturns
  obtain ⟨row', hshifts⟩ := hs₂.nested.step hh (.instruction hreturns) hfit
  refine ⟨g, hframe, hip, v, below, w, stack, hpop, hyields, hreplace, ht', fun m'' hapart hfit'' => ?_⟩
  obtain ⟨row'', haway⟩ := hshifts.nested.away hh (.running (runningId?_some ht')) hapart hfit''
  exact haway.work.trans (work?_running ht')

/-- What holds of every call in every run, as long as the slots of the heap can be told apart. As
long as the instructions of the frame that it pushes and of the frames above that find their
operands in their frames, all these stand over the operands and the frames of the caller, which
stay as they are. Then the matching return puts one value in place of the callee and the
arguments, and that is what the caller goes on with, whenever it does. -/
structure BalanceGuarantees (host : HostFunctions) : Prop where
  stands : ∀ {op f rest t m m₁ m₂}, Opening host op f rest t m m₁ →
    ReflTransGen (Inside host t.id (rest.length + 1)) m₁ m₂ → m₂.room ≤ Heap.slotLimit →
    ∃ g w, PushedFrame op f rest t m₁ g ∧ m₂.work? t.id = some w ∧
      Over g (f.skip op.callBytes :: rest) w.frames ∧ SameBelow g.base t.fiber.stack w.stack
  balanced : ∀ {op f rest t m m₁ m₂ t₂ m'}, Bracket host op f rest t m m₁ m₂ t₂ m' →
    m'.room ≤ Heap.slotLimit →
    ∃ g, PushedFrame op f rest t m₁ g ∧ Evened host op f rest t g t₂ m'

theorem balanceGuarantees (hh : host.Intrudes) : BalanceGuarantees host where
  stands ho hinside hfit := by
    obtain ⟨row₁, g, hframe, hs₁⟩ := ho.standing hh ((room_le_of_inside hh hinside).trans hfit)
    obtain ⟨row₂, hs₂⟩ := hs₁.run hh hinside hfit
    obtain ⟨w, hw, hover, hstack⟩ := hs₂.work
    exact ⟨g, w, hframe, hw, hover, hstack⟩
  balanced hb hfit := hb.evened hh hfit

/-- A program that calls a function with true, above nil, and gets false. -/
def falsifier : Prototype where
  name := "script"
  arity := 0
  isAsync := false
  code := #[Opcode.pushNil.toByte, Opcode.constant.toByte, 0, Opcode.pushTrue.toByte,
    Opcode.call.toByte, 1, Opcode.ret.toByte]
  constants := [.function ⟨"f", 1, false, #[Opcode.pushFalse.toByte, Opcode.ret.toByte], [], #[]⟩]
  lines := #[]

def falsifying (n : Nat) : Machine :=
  (after (instruction Probe.host))^[n] (after (start falsifier) (new {}))

/-- Whether the running fiber comes to an instruction, with so many frames below its own and at
least so many operands in it. -/
def comesTo (m : Machine) (op : Opcode) (depth count : Nat) : Bool :=
  m.running.any fun t => match t.fiber.frames with
    | [] => false
    | f :: rest => f.opcode? = some op && rest.length = depth && f.base + count ≤ t.fiber.stack.size

theorem exists_of_comesTo {depth count : Nat} (h : comesTo m op depth count = true) :
    ∃ t f rest, m.running = some t ∧ t.fiber.frames = f :: rest ∧ f.opcode? = some op ∧
      rest.length = depth ∧ f.base + count ≤ t.fiber.stack.size := by
  simp only [comesTo, Option.any_eq_true] at h
  obtain ⟨t, ht, h⟩ := h
  cases hf : t.fiber.frames with
  | nil => simp [hf] at h
  | cons f rest =>
    simp only [hf, Bool.and_eq_true, decide_eq_true_eq] at h
    exact ⟨t, f, rest, ht, hf, h.1.1, h.1.2, h.2⟩

/-- A program after a number of instructions. -/
def executing (p : Prototype) (n : Nat) : Machine :=
  (after (instruction Probe.host))^[n] (after (start p) (new {}))

theorem executing_succ {p : Prototype} {n : Nat}
    (h : yields (instruction Probe.host) () (executing p n) = true) :
    instruction Probe.host (executing p n) = .ok () (executing p (n + 1)) := by
  rw [eq_ok_of_yields h, executing, executing, Function.iterate_succ_apply']

theorem run_executing {p : Prototype} {n : Nat} (hstart : yields (start p) () (new {}) = true)
    (hn : ∀ k < n, yields (instruction Probe.host) () (executing p k) = true) :
    ∃ own, Run Probe.host (new {}) own (executing p n) := by
  induction n with
  | zero => exact ⟨_, .start (eq_ok_of_yields hstart)⟩
  | succ n ih =>
    obtain ⟨own, hrun⟩ := ih fun k hk => hn k (Nat.lt_succ_of_lt hk)
    exact ⟨_, hrun.step (.instruction (executing_succ (hn n (Nat.lt_succ_self n))))⟩

theorem bracket_falsifier : ∃ f rest t t₂, Bracket Probe.host .call f rest t (falsifying 3)
    (falsifying 4) (falsifying 5) t₂ (falsifying 6) := by
  have hcall : comesTo (falsifying 3) .call 0 2 = true := by decide +kernel
  have hpush : comesTo (falsifying 4) .pushFalse 1 0 = true := by decide +kernel
  have hret : comesTo (falsifying 5) .ret 1 1 = true := by decide +kernel
  have hn : ∀ n < 6, yields (instruction Probe.host) () (falsifying n) = true := by decide +kernel
  have hids : ∀ n < 6, (falsifying n).runningId? = (falsifying 3).runningId? := by decide +kernel
  obtain ⟨t, f, rest, ht, hf, hop, hlength, -⟩ := exists_of_comesTo hcall
  obtain ⟨t₁, f₁, rest₁, ht₁, hf₁, hop₁, hlength₁, hb₁⟩ := exists_of_comesTo hpush
  obtain ⟨t₂, f₂, rest₂, ht₂, hf₂, hop₂, hlength₂, hb₂⟩ := exists_of_comesTo hret
  have hid : ∀ n < 6, ∀ u, (falsifying n).running = some u → u.id = t.id := by
    intro n hlt u hu
    have hsame := hids n hlt
    rw [runningId?_some hu, runningId?_some ht] at hsame
    exact Option.some.inj hsame
  have hopening : Opening Probe.host .call f rest t (falsifying 3) (falsifying 4) := by
    have ho := orderly_new {} (by decide +kernel)
    have hstart : yields (start falsifier) () (new {}) = true := by decide +kernel
    obtain ⟨own, hrun⟩ := run_executing hstart fun k hk =>
      hn k (Nat.lt_of_lt_of_le hk (by decide : 3 ≤ 6))
    refine ⟨⟨new {}, own, ho.scheduled.wellFormed, by decide +kernel, hrun⟩, .inl rfl, ht, hf, hop,
      executing_succ (hn 3 (by decide)), t₁, ht₁, ?_⟩
    rw [hf₁, List.length_cons, hlength₁, hlength]
  have hinside : Inside Probe.host t.id (rest.length + 1) (falsifying 4) (falsifying 5) :=
    .within ht₁ (hid 4 (by decide) t₁ ht₁) hf₁ hop₁ hb₁ nofun (executing_succ (hn 4 (by decide)))
  refine ⟨f, rest, t, t₂, hopening, .single hinside, ?_, executing_succ (hn 5 (by decide))⟩
  refine ⟨ht₂, hid 5 (by decide) t₂ ht₂, f₂, rest₂, hf₂, ?_, hop₂, hb₂⟩
  rw [hlength₂, hlength]

theorem balanceGuarantees_probe : BalanceGuarantees Probe.host ∧ ∃ f rest t t₂ m',
    Bracket Probe.host .call f rest t (falsifying 3) (falsifying 4) (falsifying 5) t₂ m' ∧
      m'.room ≤ Heap.slotLimit := by
  obtain ⟨f, rest, t, t₂, hb⟩ := bracket_falsifier
  have hfit : (falsifying 6).room ≤ Heap.slotLimit := by decide +kernel
  exact ⟨balanceGuarantees intrudes_probe, f, rest, t, t₂, _, hb, hfit⟩

end Machine

end FiberMachine
