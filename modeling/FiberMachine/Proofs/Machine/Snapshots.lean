import FiberMachine.Proofs.Machine.Bindings
import FiberMachine.Proofs.Machine.Hosting

/-!
# Methods of instances

An instance gets the members of its class when it is made. Code gives methods to classes and binds
names in modules, the host gives methods to new classes, and what is written behind an instance is a
field. So nothing reaches the members of an instance for as long as it is there.
-/

namespace FiberMachine

open Relation (ReflTransGen)

/-- The class of an instance and the members that it got from it. -/
def Object.snapshot? (o : Object) : Option (Handle × Members) :=
  match o.body with
  | .instanceOf cls _ => some (cls, o.members)
  | _ => none

theorem Object.snapshot?_eq_some {o : Object} {cls : Handle} {t : Members} :
    o.snapshot? = some (cls, t) ↔ o.members = t ∧ ∃ fields, o.body = .instanceOf cls fields := by
  unfold snapshot?
  cases o.body <;> simp [and_comm]

namespace Heap

variable {h : Heap} {r : Handle} {s : Handle × Members}

def snapshot? (h : Heap) (r : Handle) : Option (Handle × Members) :=
  (h.get? r).bind Object.snapshot?

theorem snapshot?_eq_some : h.snapshot? r = some s ↔
    ∃ o, h.get? r = some o ∧ o.snapshot? = some s :=
  Option.bind_eq_some_iff

theorem snapshot?_iff_seen : h.snapshot? r = some s ↔
    h.seen Object.snapshot? r = some (some s) := by
  rw [snapshot?_eq_some, seen_eq_some]

theorem isLive_of_snapshot? (hs : h.snapshot? r = some s) : h.isLive r := by
  obtain ⟨o, ho, -⟩ := snapshot?_eq_some.mp hs
  exact isLive_iff.mpr ⟨o, ho⟩

theorem not_module_of_snapshot? (hs : h.snapshot? r = some s) : ¬ h.Has .module r := by
  rintro ⟨o, ho, hk⟩
  obtain ⟨o', ho', hs⟩ := snapshot?_eq_some.mp hs
  cases ho.symm.trans ho'
  obtain ⟨-, fields, hb⟩ := Object.snapshot?_eq_some.mp hs
  rw [Object.kind, hb] at hk
  cases hk

instance : Coarse Object.snapshot? where
  items _ := ⟨fun ⟨_, _, b⟩ => by cases b <;> rfl⟩
  fields _ := ⟨fun ⟨_, _, b⟩ => by cases b <;> rfl⟩
  userData _ := ⟨fun ⟨_, _, b⟩ => by cases b <;> rfl⟩
  fiber _ := ⟨fun ⟨_, _, b⟩ => by cases b <;> rfl⟩

instance (f : Table Value Value → Table Value Value) :
    Hidden Object.snapshot? (changeDictionary f) := ⟨fun ⟨_, _, b⟩ => by cases b <;> rfl⟩

end Heap

namespace Machine

open Heap (slotLimit)

variable {host : HostFunctions} {m m₀ m₁ m' : Machine} {r : Handle} {s : Handle × Members}
  {op : Opcode}

/-! ## Methods of classes -/

/-- Only classes get methods from code. -/
instance (name : Handle) : Makes (Unmoved Object.snapshot?) (defineMethod name) := by
  unfold defineMethod
  refine .bind inferInstance fun method => .bind inferInstance fun cls => .single fun m => ?_
  change Unmoved _ m (after (match cls.toHandle?, m.heap.kindOf? cls with
    | some r, some .classObject => do
      change r (Heap.insertMember name method)
      discard pop
    | _, _ => throw (.typeMismatch "method definition" "class" (m.heap.typeName cls))) m)
  split
  · rename_i r hr hk
    have hchange : Unmoved Object.snapshot? m
        (after (change r (Heap.insertMember name method)) m) := by
      refine unmoved_update (fun o ho => ?_) fun hw =>
        hw.update (fun o _ => Heap.Plain.marked o) fun o _ => Heap.text_plain _ o
      have hclass : o.body.kind = .classObject := by
        simpa [Heap.kindOf?, hr, ho, Object.kind] using hk
      unfold Object.snapshot? Heap.insertMember
      cases hb : o.body <;> simp_all [Body.kind]
    rw [after_bind]
    cases hm : change r (Heap.insertMember name method) m with
    | ok u m₁ =>
      have hpop : Makes (Unmoved Object.snapshot?) (discard pop : Act Unit) := inferInstance
      exact trans_of (Unmoved Object.snapshot?) (after_ok hm ▸ hchange) (hpop.preorder m₁)
    | error e m₁ => exact after_error hm ▸ hchange
  · exact .refl m

/-! ## Calls of the host -/

theorem HostCall.honours (h : HostCall m m') : Honours Object.snapshot? m m' := by
  cases h with
  | collect => exact (wanes_collected m).honours
  | addModule | withHost | advance | post =>
    refine Upholds.honours (Unmoved.upholds (Unmoved.of_eq ?_))
    rfl
  | addClass name methods => exact (upholds_addClass name methods m).honours
  | _ => exact (upholds_after _ m).honours

theorem Honours.snapshot? (h : Honours Object.snapshot? m m') (hw : m.heap.WellFormed)
    (hfit : m'.room ≤ slotLimit) (hs : m.heap.snapshot? r = some s) :
    m'.heap.snapshot? r = some s ∨ ¬ m'.heap.isLive r := by
  by_cases hr : m'.heap.isLive r
  · rw [Heap.snapshot?_iff_seen] at hs ⊢
    exact .inl ((h.same hw hfit).seen_eq hs hr)
  · exact .inr hr

/-- A row of calls lets an instance be, or it takes it away on the way. -/
theorem snapshot?_or_gone (h : ReflTransGen HostCall m m') (hw : m.heap.WellFormed)
    (hfit : m'.room ≤ slotLimit) (hs : m.heap.snapshot? r = some s) :
    m'.heap.snapshot? r = some s ∨ ∃ m₁, ReflTransGen HostCall m m₁ ∧ ¬ m₁.heap.isLive r ∧
      ReflTransGen HostCall m₁ m' := by
  suffices h : m'.heap.WellFormed ∧ (m'.heap.snapshot? r = some s ∨
      ∃ m₁, ReflTransGen HostCall m m₁ ∧ ¬ m₁.heap.isLive r ∧ ReflTransGen HostCall m₁ m') from h.2
  induction h with
  | refl => exact ⟨hw, .inl hs⟩
  | tail hrow hcall ih =>
    have ht := hcall.tends
    obtain ⟨hw₁, hs₁ | ⟨m₁, hbefore, hgone, hafter⟩⟩ := ih (ht.room_le.trans hfit)
    · refine ⟨ht.wellFormed hw₁ hfit, (hcall.honours.snapshot? hw₁ hfit hs₁).imp_right ?_⟩
      exact fun hgone => ⟨_, hrow.tail hcall, hgone, .refl⟩
    · exact ⟨ht.wellFormed hw₁ hfit, .inr ⟨m₁, hbefore, hgone, hafter.tail hcall⟩⟩

/-! ## Instructions -/

/-- Nothing but definitions, imports and returns binds names in tables that are there already. -/
theorem upholds_none (hbinds : ¬ op.binds) (hret : op ≠ .ret)
    (himport : op ≠ .importModule ∧ op ≠ .importModuleAs) :
    Makes (Upholds Object.snapshot?) (execute HostFunctions.none op) := by
  have := @upholds_bindings _ Object.snapshot? _ hbinds
  have := @upholds_control _ Object.snapshot? _ hret
  unfold execute
  cases op with
  | ret => exact absurd rfl hret
  | importModule => exact absurd rfl himport.1
  | importModuleAs => exact absurd rfl himport.2
  | _ => infer_instance

theorem Prepares.snapshot? (hp : Prepares m.heap m₁.heap) (hw : m.heap.WellFormed)
    (hfit : m₁.room ≤ slotLimit) (hs : m.heap.snapshot? r = some s) :
    m₁.heap.snapshot? r = some s := by
  obtain ⟨o, ho, hs⟩ := Heap.snapshot?_eq_some.mp hs
  exact Heap.snapshot?_eq_some.mpr ⟨o, hp.remains hw hfit r o ho, hs⟩

/-- A function of the host lets an instance be, or it takes it away. -/
theorem HostRuns.snapshot? (hh : host.Careful) (hp : Prepares m.heap m₀.heap)
    (hruns : HostRuns host m₀ m₁) (hheap : m'.heap = m₁.heap) (hfit : m'.room ≤ slotLimit)
    (hs : m₀.heap.snapshot? r = some s) : m'.heap.snapshot? r = some s ∨ Takes host r m m' := by
  have hrow := hruns.hostCalls hh
  rw [room, hheap] at hfit
  rw [hheap]
  refine (snapshot?_or_gone hrow hruns.sound.heap hfit hs).imp_right ?_
  rintro ⟨m₂, hbefore, hgone, hafter⟩
  exact ⟨hp, hruns, hheap, Heap.isLive_of_snapshot? hs, hbefore, hgone, hafter⟩

/-! ## Whatever happens -/

theorem SparesOthers.snapshot? (h : SparesOthers Object.snapshot? m m')
    (hs : m.heap.snapshot? r = some s) : m'.heap.snapshot? r = some s := by
  have hmodule := Heap.not_module_of_snapshot? hs
  rw [Heap.snapshot?_iff_seen] at hs ⊢
  exact h r _ hmodule hs

/-- Whatever is bound is bound in a module. -/
theorem sparesOthers_execute (hscoped : Scoped m) (hstocked : m.Stocked)
    (hop : op.binds ∨ op = .ret ∨ op = .importModule ∨ op = .importModuleAs)
    (h : execute host op m = .ok () m') (hfit : m'.room ≤ slotLimit) :
    SparesOthers Object.snapshot? m m' := by
  have hscope : (∃ scope, m.scope? = some scope ∧ Besides Object.snapshot? scope m m') →
      SparesOthers Object.snapshot? m m' := fun ⟨scope, hscope, hb⟩ =>
    hb.sparesOthers hscoped.heap hfit (hscoped.scope scope hscope)
  cases op with
  | defineGlobal => exact hscope (besides_popGlobal h)
  | exportGlobal => exact hscope (besides_popGlobal h)
  | setGlobal => exact hscope (besides_setGlobal h)
  | ret => exact sparesOthers_returnFromCall hscoped h hfit
  | importModule =>
    have himport : imports .importModule m = .ok () m' := h
    exact sparesOthers_imports hscoped hstocked himport hfit
  | importModuleAs =>
    have himport : imports .importModuleAs m = .ok () m' := h
    exact sparesOthers_imports hscoped hstocked himport hfit
  | _ => simp [Opcode.binds] at hop

/-- An object goes: it is not there afterwards, or a native function takes it away. -/
def Goes (host : HostFunctions) (r : Handle) (m m' : Machine) : Prop :=
  ¬ m'.heap.isLive r ∨ Takes host r m m'

section

variable {G : Members → Members → Prop} (hh : host.WellBehaved G)
include hh

/-- An instruction that no function of the host runs in lets an instance be. -/
theorem Managed.snapshot?_none (hm : Managed host m)
    (hfit : (after (instruction HostFunctions.none) m).room ≤ slotLimit)
    (hs : m.heap.snapshot? r = some s) :
    (after (instruction HostFunctions.none) m).heap.snapshot? r = some s := by
  have hroom := room_le_after (instruction HostFunctions.none) m
  have hsound := hm.sound hh (hroom.trans hfit)
  cases hends : instruction HostFunctions.none m with
  | error e m' =>
    rw [after_error hends] at hfit ⊢
    have hspared := hsound.spared_of_none (hm.bounded hh) hends hfit
    obtain ⟨o, ho, hs⟩ := Heap.snapshot?_eq_some.mp hs
    exact Heap.snapshot?_eq_some.mpr ⟨o, hspared.heap.remains r o ho, hs⟩
  | ok u m' =>
    rw [after_ok hends] at hfit ⊢
    obtain ⟨f, op, hf, hop, hexecute⟩ := instruction_eq_ok hends
    have hs₁ : (m.skip 1).heap.snapshot? r = some s := hs
    by_cases hkind : op.binds ∨ op = .ret ∨ op = .importModule ∨ op = .importModuleAs
    · have hstocked := (beside_skip 1 m).stocked hm.stocked
      exact (sparesOthers_execute (hsound.scoped.skip 1) hstocked hkind hexecute hfit).snapshot? hs₁
    · simp only [not_or] at hkind
      have := upholds_none hkind.1 hkind.2.1 hkind.2.2
      have hupholds : Upholds Object.snapshot? (m.skip 1) m' :=
        after_ok hexecute ▸ upholds_after (execute HostFunctions.none op) (m.skip 1)
      rw [Heap.snapshot?_iff_seen] at hs₁ ⊢
      exact hupholds.bears hsound.heap hfit r _ hs₁

theorem Managed.snapshot?_instruction (hm : Managed host m)
    (hfit : (after (instruction host) m).room ≤ slotLimit) (hs : m.heap.snapshot? r = some s) :
    (after (instruction host) m).heap.snapshot? r = some s ∨
      Takes host r m (after (instruction host) m) := by
  have := hh.careful.tends
  have hsound := hm.sound hh ((room_le_after (instruction host) m).trans hfit)
  obtain hsame | ⟨m₀, m₁, hprepared, hruns, hheap⟩ :=
    hsound.instruction_or_host hh.careful hfit
  · rw [after, hsame] at hfit ⊢
    exact .inl (hm.snapshot?_none hh hfit hs)
  · have hroom : m₁.room ≤ slotLimit := by rwa [room, ← hheap]
    have hs₀ := hprepared.snapshot? hsound.heap ((hruns.room_le hh.careful).trans hroom) hs
    exact hruns.snapshot? hh.careful hprepared hheap hfit hs₀

/-- An instance has what it had, or it goes. -/
theorem Managed.snapshot?_happens (hm : Managed host m) (h : Happens host m m')
    (hfit : m'.room ≤ slotLimit) (hs : m.heap.snapshot? r = some s) :
    m'.heap.snapshot? r = some s ∨ Goes host r m m' := by
  have hhonours : Honours Object.snapshot? m m' →
      m'.heap.snapshot? r = some s ∨ Goes host r m m' := fun h =>
    (h.snapshot? hm.wellFormed hfit hs).imp_right .inl
  cases h with
  | hostCall _ h => exact hhonours h.honours
  | @start m' p _ h => exact hhonours (after_ok h ▸ upholds_after (Machine.start p) m).honours
  | step h =>
    cases h with
    | safePoint h => exact hhonours (after_ok h ▸ wanes_after Machine.safePoint m).honours
    | instruction h =>
      have hafter := after_ok h
      subst hafter
      exact (hm.snapshot?_instruction hh hfit hs).imp_right .inr
    | outside h => exact hhonours h.hostCall.honours
  | @fault m₁ h =>
    have hsame : Unmoved Object.snapshot? m₁ m₁.reset := .of_eq rfl
    cases h with
    | @start p _ hv h =>
      exact hhonours ((after_error h ▸ upholds_after (Machine.start p) m).honours.then hsame)
    | safePoint h =>
      exact hhonours ((after_error h ▸ wanes_after Machine.safePoint m).honours.then hsame)
    | instruction h =>
      have hafter := after_error h
      subst hafter
      refine (hm.snapshot?_instruction hh hfit hs).imp_right fun htakes => .inr ?_
      obtain ⟨hprepared, hruns, hheap, hlive, hbefore, hgone, hlast⟩ := htakes
      exact ⟨hprepared, hruns, hheap, hlive, hbefore, hgone, hlast⟩

theorem room_le_row (h : ReflTransGen (fun n n' => Happens host n n' ∧ ¬ Goes host r n n') m m') :
    m.room ≤ m'.room := by
  induction h with
  | refl => exact Nat.le_refl _
  | tail _ hstep ih => exact ih.trans (hstep.1.room_le hh)

/-- Through a whole history, for as long as the instance does not go. -/
theorem Managed.snapshot?_row (hm : Managed host m)
    (h : ReflTransGen (fun n n' => Happens host n n' ∧ ¬ Goes host r n n') m m')
    (hfit : m'.room ≤ slotLimit) (hs : m.heap.snapshot? r = some s) :
    Managed host m' ∧ m'.heap.snapshot? r = some s := by
  induction h with
  | refl => exact ⟨hm, hs⟩
  | tail _ hstep ih =>
    obtain ⟨hhappens, hstays⟩ := hstep
    obtain ⟨hm₁, hs₁⟩ := ih ((hhappens.room_le hh).trans hfit)
    exact ⟨hm₁.happens hh hhappens hfit,
      (hm₁.snapshot?_happens hh hhappens hfit hs₁).resolve_right hstays⟩

end

end Machine

end FiberMachine
