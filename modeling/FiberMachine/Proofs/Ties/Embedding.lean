import FiberMachine.Proofs.Machine.Runs
import FiberMachine.Proofs.Ties.Regimes

/-!
# Hosts side by side

A name finds the same in tied machines, although the text of the name may be there in one
of them only as garbage. What a host does with tied machines alike leaves them tied, and
the probing host sees nothing in which they differ.
-/

namespace FiberMachine

variable {ι : Type} {T : Ties ι} {m : ι → Machine} {h : ι → Heap} {v : ι → Value}

open Ties

/-! ## Names -/

/-- A text that is not the same tied handle everywhere is no name of anything. -/
theorem find_name {α : Type} {V : (ι → α) → Prop} (hT : T.Heaps h) {t : ι → Table Handle α}
    (ht : Rows (T.handles .text) V t) (s : String) :
    Maybe V fun i => ((h i).findText? s).bind (t i).find? := by
  by_cases hthere : ∃ r, T.handles .text r ∧ ∀ i, (h i).findText? s = some (r i)
  · obtain ⟨r, hr, hfind⟩ := hthere
    simp only [hfind, Option.bind_some]
    exact Rows.find? ht (hT.apart_handles .text) hr
  · have hnone : ∀ i, ((h i).findText? s).bind (t i).find? = none := by
      intro i
      rw [Option.bind_eq_none_iff]
      intro q hq
      by_contra hsome
      have hkey : q ∈ (t i).keys := by
        by_contra hkey
        exact hsome ((Table.find_eq_none_iff q _).mpr hkey)
      obtain ⟨keys, hkeys, hmap⟩ := ht.keys
      have hi : (t i).keys = keys.map (· i) := hmap i
      rw [hi, List.mem_map] at hkey
      obtain ⟨key, hmem, rfl⟩ := hkey
      obtain ⟨name, hname⟩ := hT.find_text (hkeys key hmem)
      have hs : (h i).get? (key i) = some ⟨false, .empty, .text s⟩ := hT.text_object hq
      have hn : (h i).get? (key i) = some ⟨false, .empty, .text name⟩ := hT.text_object (hname i)
      rw [hs, Option.some.injEq, Object.mk.injEq, Body.text.injEq] at hn
      exact hthere ⟨key, hkeys key hmem, fun j => hn.2.2 ▸ hname j⟩
    simp only [hnone]
    exact .none

namespace Machine

theorem global?_tied (hm : T.Machines m) (name : String) :
    Maybe T.Values fun i => (m i).global? name := find_name hm.heap hm.outside.globals name

theorem field?_tied (hm : T.Machines m) (hv : T.Values v) (name : String) :
    Maybe T.Values fun i => (m i).field? (v i) name := by
  have hshape : ∀ i, (m i).field? (v i) name = ((v i).toHandle?.bind (m i).heap.get?).bind fun o =>
      (((m i).heap.findText? name).bind (fieldOf? o)).or
        (((m i).heap.findText? name).bind o.members.find?) := by
    intro i
    simp only [field?]
    cases (m i).heap.findText? name with
    | none => cases (v i).toHandle?.bind (m i).heap.get? <;> rfl
    | some key =>
      cases (v i).toHandle?.bind (m i).heap.get? with
      | none => rfl
      | some o =>
        simp only [Option.bind_some]
        cases fieldOf? o key <;> rfl
  simp only [hshape]
  rcases hv.handle with hs | ⟨k, r, hr, hv⟩
  · simp only [hs, Option.bind_none]
    exact .none
  · obtain ⟨o, ho, hget⟩ := hm.heap.object hr
    simp only [hv, Option.bind_some, hget]
    have hfield : Maybe T.Values fun i => ((m i).heap.findText? name).bind (fieldOf? (o i)) := by
      cases ho with
      | mk _ hb =>
        cases hb with
        | instanceOf _ hf => exact find_name hm.heap hf name
        | _ => exact ⟨none, nofun, fun i => Option.bind_fun_none _⟩
    rcases hfield.cases with hnone | ⟨w, hw, hsome⟩
    · simp only [hnone, Option.none_or]
      exact find_name hm.heap ho.members name
    · simp only [hsome, Option.some_or]
      exact .some hw

/-! ## What hosts do -/

instance (name : String) (v : Value) : Makes Still (bindGlobal name v) := by
  unfold bindGlobal
  exact .parts

instance (n : Native) : Makes Still (addFunction n) := by
  unfold addFunction
  exact .parts

instance (name : String) (methods : List Native) : Makes Still (addClass name methods) := by
  unfold addClass
  exact .parts

theorem agree_bindGlobal (hm : T.Machines m) (name : String) (hv : T.Values v) :
    Agree m (fun i => bindGlobal name (v i)) (Grown T fun _ _ => True) := by
  refine (agree_intern hm name).grow fun T₁ key m₁ hle hm₁ hkey => ?_
  exact (agree_define (k := .module) hm₁ .none hkey (hv.mono hle) nofun nofun).grown fun _ => id

theorem agree_bindField (hm : T.Machines m) {target : ι → Value} (ht : T.Values target)
    (name : String) (hv : T.Values v) :
    Agree m (fun i => bindField (target i) name (v i)) (Grown T fun _ _ => True) := by
  simp only [bindField]
  rcases ht.handle with hs | ⟨k, r, hr, ht'⟩
  · simp only [hs]
    exact agree_mismatch hm ht.scalarKind
  · simp only [ht']
    refine (agree_intern hm name).grow fun T₁ key m₁ hle hm₁ hkey => ?_
    exact (agree_setField hm₁ "set field" (ht.mono hle) hkey (hv.mono hle)).grown fun _ => id

theorem agree_addFunction (hm : T.Machines m) (n : Native) :
    Agree m (fun _ => addFunction n) (Grown T fun _ _ => True) :=
  (agree_newNative hm n).grow fun _ _ _ _ hm₁ hv => agree_bindGlobal hm₁ n.name hv

theorem agree_addClass (hm : T.Machines m) (name : String) (methods : List Native) :
    Agree m (fun _ => addClass name methods) (Grown T fun T' r => T'.handles .classObject r) := by
  refine (agree_intern hm name).grow fun T₁ key m₁ _ hm₁ hkey => ?_
  refine (agree_alloc hm₁ (.classObject hkey) nofun).grow fun T₂ cls m₂ hle hm₂ hcls => ?_
  refine (agree_define (k := .module) hm₂ .none (hle.handles hkey) (.object hcls) nofun nofun).next
    fun _ m₃ hm₃ _ => ?_
  refine (agree_defineFunctions hm₃ (.some hcls) methods nofun nofun).grow fun T₃ _ m₄ hle₃ hm₄ _ => ?_
  exact agree_pure hm₄ ⟨.refl T₃, hle₃.handles hcls⟩

theorem agree_addModule (hm : T.Machines m) (name : String) (module : NativeModule) :
    Agree m (fun _ => modify (addModule name module)) (Stays T fun _ => True) :=
  agree_modify ⟨hm.heap, { hm.outside with
    library := hm.outside.library.map (·.insert name module) }⟩

theorem agree_withHost (hm : T.Machines m) (host : Host) :
    Agree m (fun _ => modify (withHost host)) (Stays T fun _ => True) :=
  agree_modify ⟨hm.heap, { hm.outside with host := .const host }⟩

theorem agree_advance (hm : T.Machines m) (d : Duration) :
    Agree m (fun _ => modify (advance d)) (Stays T fun _ => True) := by
  have ht := hm.outside.timers
  exact agree_modify ⟨hm.heap, { hm.outside with
    timers := ⟨ht.now.map (· + d), ht.sequence, ht.pending⟩ }⟩

theorem agree_post (hm : T.Machines m) {e : ι → Event} (he : T.Events e) :
    Agree m (fun i => modify (post (e i))) (Stays T fun _ => True) :=
  agree_modify ⟨hm.heap, { hm.outside with
    events := hm.outside.events.append (.singleton he) }⟩

/-! ## The probing host -/

theorem same_stackDepth (hm : T.Machines m) : Same fun i => (m i).stackDepth := by
  simp only [stackDepth]
  rcases hm.outside.running.cases with hnone | ⟨t, ht, hsome⟩
  · simp only [hnone]
    exact .const _
  · cases ht with
    | mk _ hf =>
      simp only [hsome, Option.map_some, Option.getD_some]
      exact hf.stack.size

theorem same_frameDepth (hm : T.Machines m) : Same fun i => (m i).frameDepth := by
  simp only [frameDepth]
  rcases hm.outside.running.cases with hnone | ⟨t, ht, hsome⟩
  · simp only [hnone]
    exact .const _
  · cases ht with
    | mk _ hf =>
      simp only [hsome, Option.map_some, Option.getD_some]
      exact hf.frames.length

theorem same_userData? (hm : T.Machines m) (hv : T.Values v) :
    Same fun i => (m i).userData? (v i) := by
  simp only [userData?]
  rcases hv.handle with hs | ⟨k, r, hr, hv⟩
  · simp only [hs]
    exact .const _
  · obtain ⟨o, ho, hget⟩ := hm.heap.object hr
    simp only [hv, Option.bind_some, hget]
    cases ho with
    | mk _ hb => cases hb <;> exact .const _

end Machine

theorem NativeCall.agree_natural {c : ι → NativeCall} (hT : T.Heaps h) (hc : T.Calls c) (n : Nat) :
    Agree h (fun i => (c i).natural n) (Stays T Same) := by
  have hname : Same fun i => (c i).name := by
    obtain ⟨name, args, -, hc⟩ := hc
    exact ⟨name, fun i => congrArg NativeCall.name (hc i)⟩
  refine (agree_number hT hc n).nextBy (fun _ _ => by split <;> infer_instance)
    fun x h₁ hT₁ hx => ?_
  obtain ⟨x, hx⟩ := hx
  simp only [hx]
  split
  · exact agree_pure hT₁ ⟨rfl, .const _⟩
  · exact agree_fault hT₁ hname (fun name => .typeMismatch name _ _) (by simp)

namespace Probe

open Machine NativeCall

theorem agree_value {args : ι → List Value} (hm : T.Machines m) (hargs : Each T.Values args)
    (name : String) (n : Nat) :
    Agree m (fun i => liftM ((⟨name, args i⟩ : NativeCall).value n)) (Stays T T.Values) :=
  agree_settled hm (settled_value ⟨name, args, hargs, fun _ => rfl⟩ n)

theorem agree_addToField {args : ι → List Value} (hm : T.Machines m) (hargs : Each T.Values args) :
    Agree m (fun i => addToField ⟨"add", args i⟩) T.Yields := by
  refine (agree_value hm hargs "add" 0).next fun me m₁ hm₁ hme => ?_
  refine (agree_lift_stays hm₁ (agree_number (Machines.heap hm₁)
    ⟨"add", args, hargs, fun _ => rfl⟩ 1)).next fun x m₂ hm₂ hx => agree_get ?_
  obtain ⟨x, hx⟩ := hx
  obtain ⟨old, hold⟩ : Same fun i => ((m₂ i).field? (me i) "n").bind Value.toFloat? := by
    rcases (field?_tied hm₂ hme "n").cases with hnone | ⟨v, hv, hsome⟩
    · simp only [hnone]
      exact .const _
    · simp only [hsome, Option.bind_some]
      exact hv.toFloat?
  simp only [hx, hold]
  refine (agree_bindField hm₂ hme "n" (values_ofFloat _)).grow fun _ _ _ _ hm₃ _ => ?_
  exact agree_yield hm₃ (values_ofFloat _)

theorem objects_changeUserData (f : UserData → UserData) {o : ι → Object}
    (ho : T.Objects .userData o) : T.Objects .userData fun i => changeUserData f (o i) := by
  cases ho with
  | mk hm hb =>
    cases hb with
    | userData data => exact .mk hm (.userData (f data))

instance (d : Duration) : Makes Tends (modify (Machine.advance d)) :=
  .single fun _ => .of_heap_eq rfl

instance (v : Value) : Makes Tends (bumpBox v) := by
  unfold bumpBox
  exact .parts

theorem agree_bumpBox (hm : T.Machines m) (hv : T.Values v) :
    Agree m (fun i => bumpBox (v i)) T.Yields := by
  refine agree_get ?_
  simp only [userData?]
  rcases hv.handle with hs | ⟨k, r, hr, hv'⟩
  · simp only [hs]
    exact agree_yield hm (values_ofBool false)
  · obtain ⟨o, ho, hget⟩ := hm.heap.object hr
    simp only [hv', Option.bind_some, hget]
    cases ho with
    | mk _ hb =>
      cases hb with
      | userData data =>
        refine (Machine.agree_change hm hr nofun nofun fun o => objects_changeUserData _).next
          fun _ _ hm₁ _ => ?_
        exact agree_yield hm₁ (values_ofBool true)
      | _ => exact agree_yield hm (values_ofBool false)

theorem agree_run [Inhabited ι] (hm : T.Machines m) (p : Probe) {args : ι → List Value}
    (hargs : Each T.Values args) :
    Agree m (fun i => p.run (args i)) (Anyhow fun T' v => T'.Values v) := by
  have hfirst : ∀ (name : String) {f : ι → Value → Act Value},
      (∀ m₁ v, T.Machines m₁ → T.Values v → Agree m₁ (fun i => f i (v i)) T.Yields) →
      (∀ i a, Grows (f i a)) →
      Agree m (fun i => liftM ((⟨name, args i⟩ : NativeCall).value 0) >>= f i) T.Yields :=
    fun name _ hf hg => (agree_value hm hargs name 0).nextBy hg
      fun v m₁ hm₁ hv => hf m₁ v hm₁ hv
  cases p with
  | count =>
    obtain ⟨n, hn⟩ := hargs.length
    simp only [Probe.run, hn]
    exact (agree_yield hm (values_ofFloat _)).anyhow
  | depth =>
    obtain ⟨n, hn⟩ := same_stackDepth hm
    refine agree_get ?_
    simp only [hn]
    exact (agree_yield hm (values_ofFloat _)).anyhow
  | frames =>
    obtain ⟨n, hn⟩ := same_frameDepth hm
    refine agree_get ?_
    simp only [hn]
    exact (agree_yield hm (values_ofFloat _)).anyhow
  | fail => exact agree_throw hm (by simp)
  | collect =>
    exact (agree_collect hm).bind inferInstance
      (fun T₁ _ m₁ hm₁ _ => (agree_yield hm₁ values_nil).anyhow) fun _ h => h
  | postCollect =>
    exact (agree_post hm .collect).next fun _ m₁ hm₁ _ => (agree_yield hm₁ values_nil).anyhow
  | tick =>
    refine (agree_lift_stays hm (agree_natural hm.heap ⟨"tick", args, hargs, fun _ => rfl⟩ 0)).next
      fun ms m₁ hm₁ hms => ?_
    obtain ⟨ms, hms⟩ := hms
    simp only [hms]
    exact (agree_advance hm₁ _).next fun _ m₂ hm₂ _ => (agree_yield hm₂ values_nil).anyhow
  | same =>
    refine (agree_value hm hargs "same" 0).next fun v m₁ hm₁ hv => ?_
    refine (agree_value hm₁ hargs "same" 1).next fun w m₂ (hm₂ : T.Machines m₂) hw => ?_
    rcases hv.eq_or_ne hm₂.heap hw with heq | hne
    · simp only [heq, decide_true]
      exact (agree_yield hm₂ (values_ofBool true)).anyhow
    · simp only [hne, decide_false]
      exact (agree_yield hm₂ (values_ofBool false)).anyhow
  | display =>
    refine (hfirst "show" (fun m₁ v hm₁ hv => agree_get ?_) inferInstance).anyhow
    obtain ⟨text, htext⟩ := hm₁.heap.display hv
    simp only [Machine.display, htext]
    exact (Machine.agree_intern hm₁ text).grow fun _ _ _ _ hm₂ hr => agree_yield hm₂ (.object hr)
  | keep =>
    have hlast : T.Values fun i => (args i).getLast?.getD .nil := by
      simp only [List.getLast?_eq_getElem?]
      obtain ⟨n, hn⟩ := hargs.length
      simp only [hn]
      exact (hargs.getElem? _).getD values_nil
    exact (agree_yield hm hlast).anyhow
  | box =>
    refine (agree_lift_stays hm (agree_number hm.heap ⟨"box", args, hargs, fun _ => rfl⟩ 0)).next
      fun x m₁ hm₁ hx => ?_
    obtain ⟨x, hx⟩ := hx
    simp only [hx]
    exact (Machine.agree_alloc hm₁ (.userData _) (by simp)).before fun _ _ _ _ hm₂ hr =>
      (agree_yield hm₂ (.object hr)).anyhow
  | unbox =>
    refine (hfirst "unbox" (fun m₁ v hm₁ hv => agree_get ?_) inferInstance).anyhow
    obtain ⟨data, hdata⟩ := same_userData? hm₁ hv
    simp only [hdata]
    cases data with
    | none => exact agree_yield hm₁ values_nil
    | some data => exact agree_yield hm₁ (values_ofFloat _)
  | bump => exact (hfirst "bump" (fun _ _ hm₁ hv => agree_bumpBox hm₁ hv) inferInstance).anyhow
  | construct =>
    refine (agree_value hm hargs "construct" 0).next fun me m₁ hm₁ hme => ?_
    refine (agree_value hm₁ hargs "construct" 1).next fun x m₂ (hm₂ : T.Machines m₂) hx => ?_
    refine (agree_bindField hm₂ hme "n" hx).before fun _ _ _ _ hm₃ _ => ?_
    exact (agree_yield hm₃ (values_ofFloat _)).anyhow
  | add => exact (agree_addToField hm hargs).anyhow
  | me => exact ((agree_value hm hargs "me" 0).grown fun _ => id).anyhow
  | answer => exact (agree_yield hm (values_ofFloat _)).anyhow

theorem agrees_host [Inhabited ι] : Probe.host.Agrees ι where
  agree id hm hargs := by
    simp only [Probe.host]
    cases ofId? id with
    | some p => exact agree_run hm p hargs
    | none => exact agree_throw hm (by simp)
  running id args := inferInstance
  tends id args := tends_of_leavesFibers leavesFibers_probe id args

end Probe
end FiberMachine
