import FiberMachine.Machine.Imports
import FiberMachine.Machine.Properties
import FiberMachine.Proofs.Ties.Calls

/-!
# Properties and imports side by side

Members, methods of a kind and fields are found under tied names. What an import brings
along is made of the same texts, numbers and programs for all.
-/

namespace FiberMachine

variable {ι : Type} {T : Ties ι} {m : ι → Machine} {v : ι → Value} {name : ι → Handle} {k : Kind}

open Ties

namespace Machine

/-! ## Properties -/

theorem apart_same {α : Type} : FiberMachine.Apart (ι := ι) (α := α) Same := by
  intro a b ⟨c, ha⟩ ⟨d, hb⟩ i hi
  funext j
  rw [ha, hb, ← ha i, ← hb i, hi]

theorem findMethod_tied (hm : T.Machines m) {o : ι → Object} (ho : T.Objects k o)
    (hn : T.handles .text name) : Maybe T.Values fun i => (m i).findMethod (o i) (name i) := by
  have hapart := hm.heap.apart_handles .text
  rcases (Rows.find? ho.members hapart hn).cases with hnone | ⟨v, hv, hsome⟩
  · have hkind := Rows.find? hm.outside.methods apart_same (.const k)
    simp only [findMethod, hnone, ho.kind]
    exact hkind.bind (fun i members => members.find? (name i)) fun members hmembers =>
      Rows.find? hmembers hapart hn
  · simp only [findMethod, hsome]
    exact .some hv

theorem fieldOf?_tied (hm : T.Machines m) {o : ι → Object} (ho : T.Objects k o)
    (hn : T.handles .text name) : Maybe T.Values fun i => fieldOf? (o i) (name i) := by
  cases ho with
  | mk _ hb =>
    cases hb with
    | instanceOf _ hfields => exact Rows.find? hfields (hm.heap.apart_handles .text) hn
    | _ => exact .none

theorem agree_property (hm : T.Machines m) (hv : T.Values v) (hn : T.handles .text name) :
    Agree m (fun i => property (v i) (name i)) T.Yields := by
  simp only [property]
  rcases hv.handle with hs | ⟨k, r, hr, hv'⟩
  · simp only [hs]
    exact agree_mismatch hm hv.scalarKind
  · simp only [hv']
    refine (agree_object hm hr).nextBy
      (fun _ _ => .andThen fun _ => by repeat' first | infer_instance | split)
      fun o m₁ hm₁ ho => agree_get ?_
    rcases (findMethod_tied hm₁ ho hn).cases with hnone | ⟨method, hmethod, hsome⟩
    · rcases (fieldOf?_tied hm₁ ho hn).cases with hnone' | ⟨w, hw, hsome⟩
      · simp only [hnone, hnone']
        exact agree_fault hm₁ (Machines.nameText hm₁ hn) .undefinedProperty (by simp)
      · simp only [hnone, hsome]
        exact agree_yield hm₁ hw
    · simp only [hsome]
      rcases hmethod.handle with hs | ⟨l, f, hf, hmethod'⟩
      · simp only [hs]
        exact agree_yield hm₁ hmethod
      · have hbound : T.handles .function f ∨ T.handles .native f →
            Agree m₁ (fun i => if holdsPlainMembers (o i).kind = true then pure (method i)
              else alloc (.boundMethod (v i) (f i)) >>= fun r => pure (.ofHandle r))
              T.Yields := by
          intro hf
          simp only [ho.kind]
          split
          · exact agree_yield hm₁ hmethod
          · exact (agree_alloc hm₁ (.boundMethod hv hf) (by simp)).grow fun _ _ _ _ hm₂ hr =>
              agree_yield hm₂ (.object hr)
        simp only [hmethod', Heaps.kindOf?_handle (Machines.heap hm₁) hf hmethod']
        cases l with
        | function => exact hbound (.inl hf)
        | native => exact hbound (.inr hf)
        | _ => exact agree_yield hm₁ hmethod

theorem agree_setField (hm : T.Machines m) (operation : String) {target : ι → Value}
    (ht : T.Values target) (hn : T.handles .text name) (hv : T.Values v) :
    Agree m (fun i => setField operation (target i) (name i) (v i)) (Stays T fun _ => True) := by
  simp only [setField]
  rcases ht.handle with hs | ⟨k, r, hr, ht'⟩
  · simp only [hs]
    exact agree_mismatch hm ht.scalarKind
  · simp only [ht']
    refine (agree_object hm hr).nextBy (fun _ _ => by split <;> infer_instance)
      fun o m₁ (hm₁ : T.Machines m₁) ho => ?_
    cases ho with
    | mk _ hb =>
      have hkind := hb.kindName
      cases hb with
      | instanceOf _ _ =>
        exact agree_change hm₁ hr (by simp) (by simp) fun o ho =>
          objects_changeFields (fun i fields => fields.insert (name i) (v i))
            (fun _ hf => Rows.insert hf (hm₁.heap.apart_handles .text) hn hv) ho
      | _ => exact agree_mismatch hm₁ hkind

theorem agree_defineMethod (hm : T.Machines m) (hn : T.handles .text name) :
    Agree m (fun i => defineMethod (name i)) (Stays T fun _ => True) := by
  refine (agree_peek hm 0).nextBy
    (fun _ _ => .andThen fun _ => .andThen fun _ => by dsimp only; split <;> infer_instance)
    fun method m₁ hm₁ hmethod => ?_
  refine (agree_peek hm₁ 1).nextBy
    (fun _ _ => .andThen fun _ => by dsimp only; split <;> infer_instance)
    fun cls m₂ (hm₂ : T.Machines m₂) hcls => agree_get ?_
  have hname := hm₂.heap.typeName hcls
  rcases hcls.handle with hs | ⟨k, r, hr, hcls'⟩
  · simp only [hs]
    exact agree_mismatch hm₂ hname
  · simp only [hcls', hm₂.heap.kindOf?_handle hr hcls']
    cases k with
    | classObject =>
      refine (agree_change hm₂ hr (by simp) (by simp) fun o ho =>
        objects_insertMember hm₂.heap hn hmethod ho).next fun _ m₃ hm₃ _ => ?_
      exact agree_discard_pop hm₃
    | _ => exact agree_mismatch hm₂ hname

theorem agree_invoke [Inhabited ι] {host : HostFunctions} (hh : host.Agrees ι)
    (hm : T.Machines m) (hn : T.handles .text name) (argc : Nat) :
    Agree m (fun i => invoke host (name i) argc) (Anyhow fun _ _ => True) := by
  have := hh.tends
  have hcall : ∀ (m : ι → Machine) (v : ι → Value), T.Machines m → T.Values v →
      Agree m (fun i => poke argc (v i) >>= fun _ => callValue host (v i) argc)
        (Anyhow fun _ _ => True) := fun m v hm hv =>
    (agree_poke hm argc hv).next fun _ _ hm₁ _ => agree_callValue hh hm₁ hv argc
  refine (agree_peek hm argc).nextBy (fun _ _ => by
      split
      · infer_instance
      · exact .andThen fun _ => .andThen fun _ => by repeat' first | infer_instance | split)
    fun receiver m₁ hm₁ hreceiver => ?_
  rcases hreceiver.handle with hs | ⟨k, r, hr, hreceiver'⟩
  · simp only [hs]
    exact agree_mismatch hm₁ hreceiver.scalarKind
  · simp only [hreceiver']
    refine (agree_object hm₁ hr).nextBy
      (fun _ _ => .andThen fun _ => by repeat' first | infer_instance | split)
      fun o m₂ (hm₂ : T.Machines m₂) ho => agree_get ?_
    rcases (findMethod_tied hm₂ ho hn).cases with hnone | ⟨method, hmethod, hsome⟩
    · rcases (fieldOf?_tied hm₂ ho hn).cases with hnone' | ⟨w, hw, hsome⟩
      · simp only [hnone, hnone']
        exact agree_get (agree_fault hm₂ (hm₂.nameText hn) .undefinedProperty (by simp))
      · simp only [hnone, hsome]
        exact hcall m₂ w hm₂ hw
    · obtain ⟨kind, hkind⟩ := hm₂.heap.kindOf? hmethod
      simp only [hsome, ho.kind]
      refine agree_get ?_
      simp only [hkind]
      split
      · exact hcall m₂ method hm₂ hmethod
      · exact agree_callMethod hh hm₂ hreceiver hmethod argc

/-! ## Imports -/

theorem importedModule_tied (hm : T.Machines m) (hn : T.handles .text name) :
    Maybe (T.handles .module) fun i => (m i).importedModule (name i) := by
  simp only [importedModule]
  rcases (Rows.find? hm.outside.modules (hm.heap.apart_handles .text) hn).cases with
    hnone | ⟨v, hv, hsome⟩
  · simp only [hnone]
    exact .none
  · simp only [hsome]
    rcases hv.handle with hs | ⟨k, r, hr, hv'⟩
    · simp only [hs, ite_self]
      exact .none
    · simp only [hm.heap.kindOf?_handle hr hv', hv', Option.some.injEq]
      cases k with
      | module => exact .some hr
      | _ => exact .none

theorem agree_newModule (hm : T.Machines m) (hn : T.handles .text name)
    {importer : ι → Option Handle} (hi : Maybe (T.handles .module) importer) :
    Agree m (fun i => newModule (name i) (importer i))
      (Grown T fun T' r => T'.handles .module r) := by
  refine (agree_alloc hm (.module hn hi) nofun).grow fun T₁ r m₁ hle hm₁ hr => ?_
  have ho := Machines.outside hm₁
  have hmodules := Rows.insert ho.modules (Heaps.apart_handles (Machines.heap hm₁) .text)
    (hle.handles hn) (.object hr)
  have hm₂ : T₁.Machines fun i =>
      { m₁ i with modules := (m₁ i).modules.insert (name i) (.ofHandle (r i)) } :=
    ⟨hm₁.heap, { ho with modules := hmodules }⟩
  exact agree_set (agree_pure hm₂ ⟨.refl _, hr⟩)

theorem agree_aliasModule (hm : T.Machines m) (hn : T.handles .text name)
    {importer : ι → Option Handle} (hi : Maybe (T.handles .module) importer) :
    Agree m (fun i => aliasModule (name i) (importer i))
      (Grown T fun T' r => T'.handles .module r) := by
  have hdefine : ∀ T₁ m₁ r, T.Within T₁ → T₁.Machines m₁ → T₁.handles .module r →
      Agree m₁ (fun i => define (importer i) (name i) (.ofHandle (r i)) >>= fun _ => pure (r i))
        (Grown T₁ fun T' r => T'.handles .module r) := by
    intro T₁ m₁ r hle hm₁ hr
    exact (agree_define hm₁ (hle.maybe hi) (hle.handles hn) (.object hr) nofun nofun).next fun _ m₂ hm₂ _ =>
      agree_pure hm₂ ⟨.refl _, hr⟩
  refine agree_get ?_
  rcases (importedModule_tied hm hn).cases with hnone | ⟨r, hr, hsome⟩
  · simp only [hnone]
    exact (agree_newModule hm hn hi).grow fun T₁ r m₁ hle hm₁ hr => hdefine T₁ m₁ r hle hm₁ hr
  · simp only [hsome]
    exact hdefine T m r (.refl T) hm hr

theorem agree_newNative (hm : T.Machines m) (n : Native) :
    Agree m (fun _ => newNative n) T.Yields :=
  (agree_alloc hm (.native n) nofun).grow fun _ _ _ _ hm₁ hr => agree_yield hm₁ (.object hr)

theorem agree_defineFunctions {k : Kind} (hm : T.Machines m) {target : ι → Option Handle}
    (ht : Maybe (T.handles k) target) (ns : List Native) (htext : k ≠ .text)
    (hfunction : k ≠ .function) :
    Agree m (fun i => defineFunctions (target i) ns) (Grown T fun _ _ => True) := by
  induction ns generalizing T m with
  | nil => exact agree_pure hm ⟨.refl T, trivial⟩
  | cons n rest ih =>
    refine (agree_newNative hm n).grow fun T₁ native m₁ hle₁ hm₁ hnative => ?_
    refine (agree_intern hm₁ n.name).grow fun T₂ name m₂ hle₂ hm₂ hname => ?_
    have ht₂ := hle₂.maybe (hle₁.maybe ht)
    refine (agree_define hm₂ ht₂ hname (hnative.mono hle₂) htext hfunction).next fun _ m₃ hm₃ _ => ?_
    exact ih hm₃ ht₂

theorem agree_defineNumbers (hm : T.Machines m) {target : ι → Option Handle}
    (ht : Maybe (T.handles .module) target) (ns : List (String × Float)) :
    Agree m (fun i => defineNumbers (target i) ns) (Grown T fun _ _ => True) := by
  induction ns generalizing T m with
  | nil => exact agree_pure hm ⟨.refl T, trivial⟩
  | cons n rest ih =>
    refine (agree_intern hm n.1).grow fun T₁ name m₁ hle hm₁ hname => ?_
    exact (agree_define hm₁ (hle.maybe ht) hname (values_ofFloat n.2) nofun nofun).next fun _ m₂ hm₂ _ =>
      ih hm₂ (hle.maybe ht)

theorem agree_importNative (hm : T.Machines m) (native : NativeModule)
    {as : ι → Option Handle} (has : Maybe (T.handles .text) as) :
    Agree m (fun i => importNative native (as i)) (Grown T fun _ _ => True) := by
  have hbring : ∀ (T₁ : Ties ι) m₁ target, T₁.Machines m₁ → Maybe (T₁.handles .module) target →
      Agree m₁ (fun i => defineFunctions (target i) native.functions >>= fun _ =>
        defineNumbers (target i) native.constants) (Grown T₁ fun _ _ => True) := by
    intro T₁ m₁ target hm₁ ht
    exact (agree_defineFunctions hm₁ ht native.functions nofun nofun).grow fun T₂ _ m₂ hle hm₂ _ =>
      agree_defineNumbers hm₂ (hle.maybe ht) native.constants
  refine (agree_scope hm).nextBy (fun _ _ => by dsimp only; split <;> infer_instance)
    fun importer m₁ hm₁ hi => ?_
  rcases has.cases with hnone | ⟨name, hn, hsome⟩
  · simp only [hnone]
    exact hbring T m₁ importer hm₁ hi
  · simp only [hsome, map_bind]
    exact (agree_aliasModule hm₁ hn hi).grow fun T₂ module m₂ _ hm₂ hmodule =>
      hbring T₂ m₂ _ hm₂ (.some hmodule)

theorem agree_startModule (hm : T.Machines m) {key : ι → Handle} (hk : T.handles .text key)
    (code : Prototype) :
    Agree m (fun i => startModule (key i) code) (Grown T fun _ _ => True) := by
  refine (agree_scope hm).next fun importer m₁ hm₁ hi => ?_
  refine (agree_newModule hm₁ hk hi).grow fun T₂ module m₂ hle hm₂ hmodule => ?_
  have ho := Machines.outside hm₂
  have hm₃ : T₂.Machines fun i => { m₂ i with loading := (m₂ i).loading ++ [module i] } :=
    ⟨hm₂.heap, { ho with loading := ho.loading.append (.singleton hmodule) }⟩
  refine agree_set ?_
  refine (agree_lift hm₃ (agree_load (Machines.heap hm₃) (.some hmodule) code)).grow
    fun T₄ function m₄ hle' hm₄ hfunction => ?_
  refine (agree_newFiber hm₄ .module hfunction .nil .none (.some (hle'.handles hmodule))).grow
    fun T₅ fiber m₅ _ hm₅ hfiber => ?_
  exact (agree_resume hm₅ ⟨_, hfiber⟩).grown fun _ => id

theorem agree_importFile (hm : T.Machines m) (text : String) {key : ι → Handle}
    (hk : T.handles .text key) :
    Agree m (fun i => importFile text (key i)) (Grown T fun _ _ => True) := by
  obtain ⟨known, hknown⟩ := Rows.contains hm.outside.modules (hm.heap.apart_handles .text) hk
  obtain ⟨extension, hextension⟩ := hm.outside.config.map Config.moduleExtension
  have hextension : ∀ i, (m i).config.moduleExtension = extension := hextension
  obtain ⟨host, hhost⟩ := hm.outside.host
  refine agree_get ?_
  simp only [hknown, hextension, hhost]
  split
  · exact agree_pure hm ⟨.refl T, trivial⟩
  · refine (agree_onHost hm _).nextBy
      (fun _ _ => by repeat' first | infer_instance | split)
      fun contents m₁ hm₁ hcontents => ?_
    obtain ⟨contents, hcontents⟩ := hcontents
    simp only [hcontents]
    split
    · exact agree_throw hm₁ (by simp)
    · cases host.json.compile contents with
      | error cause => exact agree_throw hm₁ (by simp)
      | ok code => exact agree_startModule hm₁ hk code

theorem agree_importModule (hm : T.Machines m) (hn : T.handles .text name)
    {as : ι → Option Handle} (has : Maybe (T.handles .text) as) :
    Agree m (fun i => importModule (name i) (as i)) (Grown T fun _ _ => True) := by
  obtain ⟨text, htext⟩ := hm.nameText hn
  obtain ⟨library, hlibrary⟩ := hm.outside.library
  refine agree_get ?_
  simp only [htext, hlibrary]
  cases library.find? text with
  | some native => exact agree_importNative hm native has
  | none => exact agree_importFile hm text (has.getD hn)

end Machine
end FiberMachine
