import FiberMachine.Proofs.Machine.Instances
import FiberMachine.Proofs.Machine.Snapshots

/-!
# What an instance answers to

A call of a class makes an instance with the members that the class has at that moment. The
instance answers to these names with these members from then on, whatever the class gets later and
whatever is written behind the instance.
-/

namespace FiberMachine

open Relation (ReflTransGen)

namespace Heap

theorem newInstance_snapshot? {h h' : Heap} {cls r : Handle} (hw : h.WellFormed)
    (hmade : newInstance cls h = .ok r h') (hfit : h'.slots.size ≤ slotLimit) :
    ∃ o, h.get? cls = some o ∧ h.get? r = none ∧ h'.snapshot? r = some (cls, o.members) := by
  obtain ⟨o, ho, rfl, rfl⟩ := Machine.newInstance_cases hmade
  rw [Machine.size_withInstance] at hfit
  have ha := alloc_allocated hw.toArena _ hfit
  refine ⟨o, ho, ha.fresh, snapshot?_eq_some.mpr ⟨withMembers o.members
    (.ofBody (.instanceOf cls .empty)), ?_, rfl⟩⟩
  rw [Machine.withInstance, get?_update, if_pos rfl, ha.get?_self]
  rfl

end Heap

namespace Machine

open Heap (slotLimit)

variable {host : HostFunctions} {m m₁ m' : Machine} {cls r name : Handle} {o : Object} {v : Value}
  {t : Members}

/-! ## Calls of classes -/

/-- An instruction calls a class, and an instance is made. -/
inductive Creates (host : HostFunctions) (m m' : Machine) (cls : Handle) (o : Object) (r : Handle) :
    Prop
  | intro {t : Running} {f : Frame} {rest : List Frame} {op : Opcode} {className : Handle} :
      m.running = some t → t.fiber.frames = f :: rest → f.opcode? = some op →
      CallsClass m t f cls op → m.heap.get? cls = some o → o.body = .classObject className →
      instruction host m = .ok () m' → madeInstance cls m.heap = .ofHandle r →
      Creates host m m' cls o r

theorem Creates.happens (hc : Creates host m m' cls o r) : Happens host m m' := by
  obtain ⟨-, -, -, -, -, -, hok, -⟩ := hc
  exact .step (.instruction hok)

section

variable {G : Members → Members → Prop} (hh : host.WellBehaved G)
include hh

/-- The instance is new and has the members of the class, unless a native function of the host is
under `construct` and takes it away. -/
theorem Creates.snapshot? (hc : Creates host m m' cls o r) (hm : Managed host m)
    (hfit : m'.room ≤ slotLimit) : m.heap.get? r = none ∧
      (m'.heap.snapshot? r = some (cls, o.members) ∨ Takes host r m m') := by
  obtain ⟨ht, hf, hop, hcalls, ho, hb, hok, hr⟩ := hc
  rename_i t f rest op className
  have := hh.careful.tends
  have hsound := hm.sound hh ((after_ok hok ▸ room_le_after (instruction host) m).trans hfit)
  have hguarded := (hsound.instruction_guarded hh.careful (after_ok hok ▸ hfit)).trans hok
  obtain ⟨stack, hpoke, hcall⟩ := hcalls.callClass ht hf hop ho hb hguarded
  let m₁ := withStack (t.skip op.callBytes) stack (m.skip op.callBytes)
  obtain ⟨stack₁, -, hmember⟩ := callConstruct_of_callClass (m := m₁) rfl ho hcall
  obtain ⟨m₂, hmade, hconstruct⟩ : ∃ m₂, m₂.heap = withConstruct cls o m.heap ∧
      callConstruct host.guarded cls (f.count op) (madeInstance cls m.heap)
        (constructName cls o m.heap) m₂ = .ok () m' := ⟨_, rfl, hmember⟩
  have hroom : m₂.room ≤ m'.room := by
    have := hh.careful.guarded.tends
    exact after_ok hconstruct ▸ room_le_after (callConstruct host.guarded cls _ _ _) m₂
  have hfit₁ : (withConstruct cls o m.heap).slots.size ≤ slotLimit := hmade ▸ hroom.trans hfit
  have hw₁ := wellFormed_withConstruct (m := m) hsound.heap hfit₁
  obtain ⟨q, hq, hfresh, hget⟩ := isNew_madeInstance (m := m) hsound.heap hfit₁ ho
  obtain rfl := Value.ofHandle_injective (hr.symm.trans hq)
  refine ⟨hfresh, ?_⟩
  have hs : (withConstruct cls o m.heap).snapshot? r = some (cls, o.members) :=
    Heap.snapshot?_eq_some.mpr ⟨_, hget, rfl⟩
  -- what is under `construct` finds the instance made, and only a function of the host may take it
  obtain hsame | ⟨m₃, hrefused⟩ | ⟨m₀, m₃, hheap₀, hruns, hheap⟩ :=
    (@abides_callConstruct host (withConstruct cls o m.heap) _ cls _ _).cases m₂ hmade
  · rw [hsame] at hconstruct
    have hupholds : Upholds Object.snapshot? m₂ m' :=
      after_ok hconstruct ▸ upholds_after (callConstruct HostFunctions.none cls _ _ _) m₂
    rw [Heap.snapshot?_iff_seen] at hs ⊢
    exact .inl (hupholds.bears (hmade ▸ hw₁) hfit r _ (hmade ▸ hs))
  · cases hconstruct.symm.trans hrefused
  · rw [after_ok hconstruct] at hheap
    have hprepared : Prepares m.heap m₀.heap := hheap₀ ▸ .construct cls o
    exact hruns.snapshot? hh.careful hprepared hheap hfit (hheap₀ ▸ hs)

end

/-! ## Names behind instances -/

/-- An object answers to a name with a value. A function is bound to the object where the name is
read and called for it where the name is called; anything else is as it is. -/
structure Responds (host : HostFunctions) (r name : Handle) (v : Value) (m : Machine) : Prop where
  binds : ∀ {f}, v.toHandle? = some f →
    m.heap.kindOf? v = some .function ∨ m.heap.kindOf? v = some .native →
    property (.ofHandle r) name m = .ok (.ofHandle (m.heap.alloc (.boundMethod (.ofHandle r) f)).2)
      (m.withObject (.boundMethod (.ofHandle r) f))
  reads : m.heap.kindOf? v ≠ some .function → m.heap.kindOf? v ≠ some .native →
    property (.ofHandle r) name m = .ok v m
  calls : ∀ {argc f}, peek argc m = .ok (.ofHandle r) m → v.toHandle? = some f →
    m.heap.kindOf? v = some .function ∨ m.heap.kindOf? v = some .native →
    invoke host name argc m = callBound host (.ofHandle r) f argc m
  places : ∀ {argc f p}, peek argc m = .ok (.ofHandle r) m → v.toHandle? = some f →
    m.heap.get? f = some p → m.heap.kindOf? v ≠ some .function →
    m.heap.kindOf? v ≠ some .native → invoke host name argc m = callInPlace host v argc m

theorem property_of_other {receiver : Value} (hr : receiver.toHandle? = some r)
    (ho : m.heap.get? r = some o) (hv : m.findMethod o name = some v)
    (hfunction : m.heap.kindOf? v ≠ some .function) (hnative : m.heap.kindOf? v ≠ some .native) :
    property receiver name m = .ok v m := by
  have hread : property receiver name m = bindMember receiver o v m m := by
    simp only [property, hr, bind_apply, object_apply ho, get_apply, hv]
    rfl
  have hbind : bindMember receiver o v m = return v := by
    simp only [bindMember]
    split <;> simp_all
  rw [hread, hbind]
  rfl

/-- The members come before the fields, so it does not matter what is written behind an instance. -/
theorem responds_of_snapshot? (hs : m.heap.snapshot? r = some (cls, t))
    (hv : t.find? name = some v) : Responds host r name v m := by
  obtain ⟨o, ho, hs⟩ := Heap.snapshot?_eq_some.mp hs
  obtain ⟨rfl, fields, hb⟩ := Object.snapshot?_eq_some.mp hs
  have hr := Value.toHandle?_ofHandle r
  have hfound : m.findMethod o name = some v := by simp only [findMethod, hv]
  have hplain : ¬ holdsPlainMembers o.kind := by
    simp [Object.kind, hb, Body.kind, holdsPlainMembers]
  exact
    { binds := fun hf hk => property_of_bound hr ho ⟨hfound, hf, hk, hplain⟩
      reads := property_of_other hr ho hfound
      calls := fun hpeek hf hk => Bound.invoke_eq hpeek hr ho ⟨hfound, hf, hk, hplain⟩
      places := fun hpeek hf hp hfunction hnative =>
        Found.invoke_eq (.other hfound hfunction hnative) hpeek hr ho hf hp }

/-! ## What is guaranteed -/

/-- What holds of the members of instances, as long as the slots of the heap can be told apart. An
instance is made with the members of its class and has these until it goes, whatever happens to the
machine, and it answers to their names with them. -/
structure SnapshotGuarantees (host : HostFunctions) : Prop where
  made : ∀ {h h' cls r}, h.WellFormed → Heap.newInstance cls h = .ok r h' →
    h'.slots.size ≤ slotLimit →
    ∃ o, h.get? cls = some o ∧ h.get? r = none ∧ h'.snapshot? r = some (cls, o.members)
  created : ∀ {m m' cls o r}, Grown host m → Creates host m m' cls o r → m'.room ≤ slotLimit →
    m.heap.get? r = none ∧
      (m'.heap.snapshot? r = some (cls, o.members) ∨ Takes host r m m')
  kept : ∀ {m m' r s}, Grown host m → m.heap.snapshot? r = some s →
    ReflTransGen (fun n n' => Happens host n n' ∧ ¬ Goes host r n n') m m' → m'.room ≤ slotLimit →
    m'.heap.snapshot? r = some s
  answers : ∀ {m m₁ m' cls o r}, Grown host m → Creates host m m₁ cls o r → ¬ Goes host r m m₁ →
    ReflTransGen (fun n n' => Happens host n n' ∧ ¬ Goes host r n n') m₁ m' →
    m'.room ≤ slotLimit → m'.heap.snapshot? r = some (cls, o.members) ∧
      ∀ name v, o.members.find? name = some v → Responds host r name v m'

theorem snapshotGuarantees {G : Members → Members → Prop} (hh : host.WellBehaved G) :
    SnapshotGuarantees host where
  made := Heap.newInstance_snapshot?
  created hg hc hfit :=
    hc.snapshot? hh (hg.managed hh ((hc.happens.room_le hh).trans hfit)) hfit
  kept hg hs hrow hfit :=
    ((hg.managed hh ((room_le_row hh hrow).trans hfit)).snapshot?_row hh hrow hfit hs).2
  answers hg hc hstays hrow hfit := by
    have hfit₁ := (room_le_row hh hrow).trans hfit
    have hm := hg.managed hh ((hc.happens.room_le hh).trans hfit₁)
    have hs := ((hc.snapshot? hh hm hfit₁).2).resolve_right fun ht => hstays (.inr ht)
    have hm₁ := hm.happens hh hc.happens hfit₁
    have hs' := (hm₁.snapshot?_row hh hrow hfit hs).2
    exact ⟨hs', fun name v hv => responds_of_snapshot? hs' hv⟩

/-- A program that calls a class with a method. Then it gives the class another method under the
same name, writes a field of that name behind the instance and calls the name. -/
def latecomer : Prototype where
  name := "script"
  arity := 0
  isAsync := false
  code := #[Opcode.newClass.toByte, 0, 0, Opcode.constant.toByte, 1, Opcode.method.toByte, 0, 2,
    Opcode.getLocal.toByte, 0, 1, Opcode.call.toByte, 0,
    Opcode.getLocal.toByte, 0, 1, Opcode.constant.toByte, 3, Opcode.method.toByte, 0, 2,
    Opcode.pop.toByte, Opcode.getLocal.toByte, 0, 2, Opcode.pushTrue.toByte,
    Opcode.setProperty.toByte, 0, 2, Opcode.pop.toByte, Opcode.invoke.toByte, 0, 2, 0,
    Opcode.ret.toByte]
  constants := [.text "C",
    .function ⟨"f", 0, false, #[Opcode.pushNil.toByte, Opcode.ret.toByte], [], #[]⟩,
    .text "m",
    .function ⟨"g", 0, false, #[Opcode.pushTrue.toByte, Opcode.ret.toByte], [], #[]⟩]
  lines := #[]

/-- The handle on top of the operands. -/
def topmost (m : Machine) : Handle :=
  ((m.running.bind fun t => t.fiber.stack.values.back?).bind Value.toHandle?).getD ⟨0, .zero⟩

def latecomerName : Handle := ((executing latecomer 0).heap.findText? "m").getD ⟨0, .zero⟩

theorem grown_executing {p : Prototype} {n : Nat} (hstart : yields (start p) () (new {}) = true)
    (hn : ∀ k < n, yields (instruction Probe.host) () (executing p k) = true) :
    Grown Probe.host (executing p n) := by
  refine ⟨{}, ?_⟩
  induction n with
  | zero => exact .single (.start (quiescent_new {}).toVacant (eq_ok_of_yields hstart))
  | succ n ih =>
    have hok := executing_succ (hn n (Nat.lt_succ_self n))
    exact (ih fun k hk => hn k (Nat.lt_succ_of_lt hk)).tail (.step (.instruction hok))

/-- Whether no native function of the host is there. -/
def lacksHost (m : Machine) : Bool :=
  m.heap.slots.toList.all fun slot => slot.object.all fun o => match o.body with
    | .native n => match n.code with
      | .builtin _ => true
      | .host _ => false
    | _ => true

theorem not_takes_of_lacksHost (hg : Grown Probe.host m) (hs : Happens Probe.host m m')
    (hfit : m'.room ≤ slotLimit) (h : lacksHost m = true) : ¬ Takes Probe.host r m m' := by
  have hm := hg.managed wellBehaved_probe ((hs.room_le wellBehaved_probe).trans hfit)
  refine not_takes_of_builtin Probe.careful_host hm.wellFormed hfit fun q n id held hcode => ?_
  obtain ⟨o, ho, hb⟩ := held
  obtain ⟨slot, hslot, -, hobject⟩ := Heap.get?_eq_some_iff.mp ho
  have hmem := Array.mem_toList_iff.mpr (Array.mem_of_getElem? hslot)
  have hall := List.all_eq_true.mp h slot hmem
  simp [hobject, hb, hcode] at hall

theorem stays_executing {p : Prototype} {i n : Nat} (hg : Grown Probe.host (executing p i))
    (hfit : (executing p (i + n)).room ≤ slotLimit)
    (h : ∀ k < n, yields (instruction Probe.host) () (executing p (i + k)) = true ∧
      lacksHost (executing p (i + k)) = true ∧ (executing p (i + k + 1)).heap.isLive r = true) :
    ReflTransGen (fun m m' => Happens Probe.host m m' ∧ ¬ Goes Probe.host r m m')
      (executing p i) (executing p (i + n)) := by
  induction n with
  | zero => exact .refl
  | succ n ih =>
    obtain ⟨hok, hlacks, hlive⟩ := h n (Nat.lt_succ_self n)
    have hstep : Happens Probe.host (executing p (i + n)) (executing p (i + n + 1)) :=
      .step (.instruction (executing_succ hok))
    have hrow := ih ((hstep.room_le wellBehaved_probe).trans hfit) fun k hk =>
      h k (Nat.lt_succ_of_lt hk)
    have hgrown := hg.happens (ReflTransGen.mono (fun _ _ => And.left) _ _ hrow)
    refine hrow.tail ⟨hstep, ?_⟩
    rintro (hgone | htakes)
    · exact hgone hlive
    · exact not_takes_of_lacksHost hgrown hstep hfit hlacks htakes

/-- Whether the innermost frame comes to a call of an object. -/
def comesToCallOf (m : Machine) (cls : Handle) : Bool :=
  m.running.any fun t => match t.fiber.frames with
    | [] => false
    | f :: _ => f.opcode? = some .call && match t.fiber.stack.peek (f.count .call) with
      | .error _ => false
      | .ok v => v = .ofHandle cls

theorem exists_creates {p : Prototype} {n : Nat} (hcalls : comesToCallOf (executing p n) cls = true)
    (hclass : ((executing p n).heap.get? cls).any fun o => o.kind = .classObject)
    (hok : yields (instruction Probe.host) () (executing p n) = true) :
    ∃ o, (executing p n).heap.get? cls = some o ∧
      Creates Probe.host (executing p n) (executing p (n + 1)) cls o
        ((executing p n).heap.alloc (.instanceOf cls .empty)).2 := by
  simp only [comesToCallOf, Option.any_eq_true] at hcalls hclass
  obtain ⟨t, ht, hcalls⟩ := hcalls
  obtain ⟨o, ho, hkind⟩ := hclass
  obtain ⟨className, hb⟩ : ∃ className, o.body = .classObject className := by
    rw [decide_eq_true_eq, Object.kind] at hkind
    cases hb : o.body <;> simp only [hb, Body.kind, reduceCtorEq] at hkind
    exact ⟨_, rfl⟩
  split at hcalls
  case h_1 => cases hcalls
  case h_2 f rest hf =>
    simp only [Bool.and_eq_true, decide_eq_true_eq] at hcalls
    obtain ⟨hop, hpeek⟩ := hcalls
    split at hpeek
    case h_1 => cases hpeek
    case h_2 v hv =>
      rw [decide_eq_true_eq] at hpeek
      exact ⟨o, ho, ht, hf, hop, .call (hpeek ▸ hv), ho, hb, executing_succ hok, rfl⟩

/-- The instance answers with the first method, which the class no longer has. -/
theorem snapshotGuarantees_probe : SnapshotGuarantees Probe.host ∧
    ∃ cls o r name f g, Creates Probe.host (executing latecomer 4) (executing latecomer 5) cls o r ∧
      ReflTransGen (fun m m' => Happens Probe.host m m' ∧ ¬ Goes Probe.host r m m')
        (executing latecomer 5) (executing latecomer 13) ∧
      f ≠ g ∧ o.members.find? name = some (.ofHandle f) ∧
      ((executing latecomer 13).heap.get? cls).bind (·.members.find? name) = some (.ofHandle g) ∧
      ((executing latecomer 13).heap.get? r).bind (fieldOf? · name) = some (.ofBool true) ∧
      Responds Probe.host r name (.ofHandle f) (executing latecomer 13) := by
  have hsnap : SnapshotGuarantees Probe.host := snapshotGuarantees wellBehaved_probe
  have hstart : yields (start latecomer) () (new {}) = true := by decide +kernel
  have hok : ∀ n < 13, yields (instruction Probe.host) () (executing latecomer n) = true := by
    decide +kernel
  have hroom : (executing latecomer 13).room ≤ slotLimit := by decide +kernel
  obtain ⟨o, ho, hcreates⟩ := @exists_creates (topmost (executing latecomer 4)) latecomer 4
    (by decide +kernel) (by decide +kernel) (hok 4 (by decide))
  have hgrown : ∀ n < 13, Grown Probe.host (executing latecomer n) := fun n hn =>
    grown_executing hstart fun k hk => hok k (hk.trans hn)
  have hrow : ReflTransGen (fun m m' => Happens Probe.host m m' ∧
        ¬ Goes Probe.host (topmost (executing latecomer 5)) m m')
      (executing latecomer 5) (executing latecomer (5 + 8)) :=
    stays_executing (hgrown 5 (by decide)) hroom (by decide +kernel)
  have hr : ((executing latecomer 4).heap.alloc
      (.instanceOf (topmost (executing latecomer 4)) .empty)).2 =
      topmost (executing latecomer 5) := by decide +kernel
  rw [hr] at hcreates
  have hstays : ¬ Goes Probe.host (topmost (executing latecomer 5)) (executing latecomer 4)
      (executing latecomer 5) := by
    rintro (hgone | htakes)
    · exact hgone (by decide +kernel)
    · have hfit₅ := (room_le_row wellBehaved_probe hrow).trans hroom
      exact not_takes_of_lacksHost (hgrown 4 (by decide)) hcreates.happens hfit₅
        (by decide +kernel) htakes
  have hf : ((executing latecomer 4).heap.get? (topmost (executing latecomer 4))).bind
      (·.members.find? latecomerName) = some (.ofHandle (topmost (executing latecomer 2))) := by
    decide +kernel
  rw [ho, Option.bind_some] at hf
  have hne : topmost (executing latecomer 2) ≠ topmost (executing latecomer 7) := by decide +kernel
  have hg : ((executing latecomer 13).heap.get? (topmost (executing latecomer 4))).bind
      (·.members.find? latecomerName) = some (.ofHandle (topmost (executing latecomer 7))) := by
    decide +kernel
  have hfield : ((executing latecomer 13).heap.get? (topmost (executing latecomer 5))).bind
      (fieldOf? · latecomerName) = some (.ofBool true) := by decide +kernel
  obtain ⟨-, hanswers⟩ := hsnap.answers (hgrown 4 (by decide)) hcreates hstays hrow hroom
  exact ⟨hsnap, _, o, _, _, _, _, hcreates, hrow, hne, hf, hg, hfield, hanswers _ _ hf⟩

end Machine

end FiberMachine
