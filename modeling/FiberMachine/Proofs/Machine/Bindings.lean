import FiberMachine.Proofs.Machine.Upkeep

/-!
# What binding names does to views

Code binds names in the table of the module that it belongs to, a module that ends is bound in the
table of the module that imported it, and a native module is bound in the table of one or the other.
So a view of an object that is no module stays as it is. The host binds names in a class as well,
but only while the class is new.
-/

namespace FiberMachine

open Relation (ReflTransGen)

namespace Machine

variable {α β : Type} {view : Object → β} {m m₁ m' : Machine} {scope : Option Handle} {M : Handle}
  {op : Opcode} {u : Unit}

/-- The views of all objects but one stay as they are. -/
structure Besides (view : Object → β) (scope : Option Handle) (m m' : Machine) : Prop
    extends Tends m m' where
  bears : m.heap.WellFormed → m'.room ≤ Heap.slotLimit → ∀ r c, r ∉ scope →
    m.heap.seen view r = some c → m'.heap.seen view r = some c

theorem Upholds.besides (h : Upholds view m m') : Besides view scope m m' :=
  ⟨h.tends, fun hw hfit r c _ => h.bears hw hfit r c⟩

instance : IsPreorder Machine (Besides view scope) where
  refl m := (refl_of (Upholds view) m).besides
  trans _ _ _ h h' := by
    refine ⟨h.toTends.trans h'.toTends, fun hw hfit r c hr hc => ?_⟩
    have hfit₁ := h'.room_le.trans hfit
    exact h'.bears (h.wellFormed hw hfit₁) hfit r c hr (h.bears hw hfit₁ r c hr hc)

instance (priority := low) (x : Act α) [hx : Makes (Upholds view) x] :
    Makes (Besides view scope) x := hx.mono fun _ _ h => h.besides

theorem besides_after (x : Act α) [hx : Makes (Besides view scope) x] (m : Machine) :
    Besides view scope m (after x m) := hx.preorder m

/-! ## Names in a scope -/

instance (name : Handle) (v : Value) : Makes (Besides view scope) (define scope name v) := by
  cases scope with
  | none => infer_instance
  | some M =>
    refine .single fun m => ⟨tends_after _ m, fun _ _ r c hr hc => ?_⟩
    change (after (change M (Heap.insertMember name v)) m).heap.seen view r = some c
    simp only [after, change_apply]
    by_cases hM : m.heap.isLive M <;> simp only [hM, ↓reduceIte, Bool.false_eq_true]
    · rw [Heap.seen_update_ne _ fun h => hr (by rw [h]; rfl)]
      exact hc
    · exact hc

instance (ns : List Native) : Makes (Besides view scope) (defineFunctions scope ns) := by
  induction ns with
  | nil => exact .pure ()
  | cons n rest ih =>
    unfold defineFunctions
    exact .parts

instance (ns : List (String × Float)) : Makes (Besides view scope) (defineNumbers scope ns) := by
  induction ns with
  | nil => exact .pure ()
  | cons n rest ih =>
    unfold defineNumbers
    exact .parts

instance (name : Handle) : Makes (Besides view scope) (aliasModule name scope) := by
  unfold aliasModule
  exact .parts

instance (native : NativeModule) : Makes (Besides view scope) (do
    defineFunctions scope native.functions
    defineNumbers scope native.constants : Act Unit) := .parts

/-! ## Scopes are modules -/

/-- The views of all objects that are no modules stay as they are. -/
def SparesOthers (view : Object → β) (m m' : Machine) : Prop :=
  ∀ r c, ¬ m.heap.Has .module r → m.heap.seen view r = some c → m'.heap.seen view r = some c

theorem Besides.sparesOthers (h : Besides view scope m m') (hw : m.heap.WellFormed)
    (hfit : m'.room ≤ Heap.slotLimit) (hs : ∀ M ∈ scope, m.heap.Has .module M) :
    SparesOthers view m m' :=
  fun r c hr hc => h.bears hw hfit r c (fun hM => hr (hs r hM)) hc

theorem Upholds.sparesOthers (h : Upholds view m m') (hw : m.heap.WellFormed)
    (hfit : m'.room ≤ Heap.slotLimit) : SparesOthers view m m' :=
  fun r c _ hc => h.bears hw hfit r c hc

theorem SparesOthers.of_heap (h : SparesOthers view m₁ m') (hh : m₁.heap = m.heap) :
    SparesOthers view m m' := by
  unfold SparesOthers at h ⊢
  rwa [hh] at h

/-- What code belongs to is a module, and so is what has imported one. -/
structure Scoped (m : Machine) : Prop where
  heap : m.heap.WellFormed
  scope : ∀ target, m.scope? = some target → ∀ M ∈ target, m.heap.Has .module M
  importer : ∀ M name target, m.heap.module M = .ok (name, target) →
    ∀ N ∈ target, m.heap.Has .module N

theorem Sound.scoped (hs : m.Sound) : Scoped m where
  heap := hs.heap
  scope target h := by
    obtain ⟨f, hf, rfl⟩ := Option.map_eq_some_iff.mp h
    obtain ⟨t, ht, hhead⟩ := Option.bind_eq_some_iff.mp hf
    exact ((hs.running t ht).2.frames f (List.mem_of_mem_head? hhead)).scope
  importer M name target h := by
    obtain ⟨o, ho, hb⟩ := Heap.module_eq_ok.mp h
    have hbody := (hs.objects M o ho).body
    rw [hb] at hbody
    exact hbody.2

theorem Scoped.skip (hs : Scoped m) (k : Nat) : Scoped (m.skip k) where
  heap := hs.heap
  scope target h := by
    rw [scope?, frame?_skip, Option.map_map] at h
    exact hs.scope target h
  importer := hs.importer

/-! ## Definitions and assignments -/

instance : Makes Reads pop := by
  refine .single fun m => ?_
  simp only [after, pop]
  rcases h : m.running with _ | ⟨id, stack, frames, caller, kind, state, module⟩
  · exact ⟨rfl, rfl⟩
  · simp only
    cases stack.pop with
    | ok popped => exact ⟨rfl, by simp only [scope?, frame?, h]; rfl⟩
    | error e => exact ⟨rfl, rfl⟩

theorem besides_popGlobal {exports : Bool} (h : popGlobal exports m = .ok u m') :
    ∃ scope, m.scope? = some scope ∧ Besides view scope m m' := by
  obtain ⟨name, m₁, hname, hpopped⟩ := bind_eq_ok h
  obtain ⟨v, m₂, hpop, hscoped⟩ := bind_eq_ok hpopped
  obtain ⟨scope, m₃, hscope, hdefined⟩ := bind_eq_ok hscoped
  obtain ⟨rfl, f, hf, rfl⟩ := scope_eq_ok hscope
  have hreads : Reads m m₃ :=
    trans_of Reads (after_ok hname ▸ reads_after readName m) (after_ok hpop ▸ reads_after pop m₁)
  have hread : Unmoved view m m₃ := .of_eq hreads.heap
  have hdefines : Makes (Besides view f.scope) (do
    define f.scope name v
    if exports then recordExport name : Act Unit) := .parts
  refine ⟨f.scope, by rw [← hreads.scope, scope?, hf, Option.map_some], ?_⟩
  have hdefine := after_ok hdefined ▸ hdefines.preorder m₃
  exact trans_of (Besides view f.scope) hread.upholds.besides hdefine

theorem besides_setGlobal (h : setGlobal m = .ok u m') :
    ∃ scope, m.scope? = some scope ∧ Besides view scope m m' := by
  have hskip : Unmoved view m (m.skip 2) := .of_eq rfl
  obtain ⟨f, name, v, hnames, ⟨M, o, hM, -, -, hdefine⟩ | ⟨-, -, hdefine⟩⟩ := setGlobal_eq_ok h <;>
    obtain ⟨g, hg, hscope⟩ := hnames.scope <;>
    refine ⟨f.scope, by rw [scope?, hg, ← hscope, Option.map_some], ?_⟩
  · rw [hM]
    have hdefines : Besides view (some M) (m.skip 2) m' :=
      after_ok hdefine ▸ besides_after (define (some M) name v) (m.skip 2)
    exact trans_of (Besides view (some M)) hskip.upholds.besides hdefines
  · have hdefines : Besides view f.scope (m.skip 2) m' :=
      after_ok hdefine ▸ besides_after (define none name v) (m.skip 2)
    exact trans_of (Besides view f.scope) hskip.upholds.besides hdefines

/-! ## Modules that end -/

theorem besides_completeModule (h : completeModule M m = .ok u m') :
    ∃ name scope, m.heap.module M = .ok (name, scope) ∧ Besides view scope m m' := by
  obtain ⟨_, m₁, hm₁, hread⟩ := bind_eq_ok h
  cases hm₁
  obtain ⟨_, m₂, hm₂, hnamed⟩ := bind_eq_ok hread
  cases hm₂
  obtain ⟨⟨name, scope⟩, m₃, hmodule, hdefined⟩ := bind_eq_ok hnamed
  obtain ⟨rfl, hread⟩ := except_eq_ok hmodule
  have hloads : Unmoved view m { m with loading := m.loading.filter (· != M) } := .of_eq rfl
  have hdefines : Makes (Besides view scope) (do
    define scope name (.ofHandle M)
    define none name (.ofHandle M) : Act Unit) := .parts
  have hdefine := after_ok hdefined ▸ hdefines.preorder _
  exact ⟨name, scope, hread, trans_of (Besides view scope) hloads.upholds.besides hdefine⟩

theorem sparesOthers_returnFromCall [Heap.Coarse view] (hs : Scoped m)
    (h : returnFromCall m = .ok u m') (hfit : m'.room ≤ Heap.slotLimit) :
    SparesOthers view m m' := by
  obtain ⟨t, ht, hreturns⟩ := returns_of_ok h
  cases hreturns with
  | on _ _ _ _ _ hm =>
    have hsame : Unmoved view m m' := .of_eq (by rw [hm]; rfl)
    exact hsame.upholds.sparesOthers hs.heap hfit
  | ends _ _ hfinish =>
    have hdeparts : ∀ id, Makes (Unmoved view) (depart id) := fun id => by
      unfold depart
      exact .parts
    obtain ⟨t', -, ⟨N, m₁, -, hcomplete, hdepart⟩ | ⟨-, hdepart⟩⟩ := finish_cases hfinish
    · obtain ⟨name, scope, hmodule, hbesides⟩ :
          ∃ name scope, Heap.module _ N = .ok (name, scope) ∧ Besides view scope _ m₁ :=
        besides_completeModule hcomplete
      have hdeparted : Unmoved view m₁ m' := after_ok hdepart ▸ (hdeparts _).preorder m₁
      have hrest := trans_of (Besides view scope) hbesides hdeparted.upholds.besides
      exact (hrest.sparesOthers hs.heap hfit (hs.importer N name scope hmodule)).of_heap rfl
    · have hdeparted : Unmoved view _ m' := after_ok hdepart ▸ (hdeparts _).preorder _
      exact (hdeparted.upholds.sparesOthers hs.heap hfit).of_heap rfl

/-! ## Imports -/

/-- A native module is bound in a module that stands under the alias, or in a new one. -/
theorem sparesOthers_importNative {native : NativeModule} {as : Option Handle} (hs : Scoped m)
    (hstocked : m.Stocked) (h : importNative native as m = .ok u m')
    (hfit : m'.room ≤ Heap.slotLimit) : SparesOthers view m m' := by
  obtain ⟨importer, m₀, hscope, htargeted⟩ := bind_eq_ok h
  obtain ⟨rfl, f, hf, rfl⟩ := scope_eq_ok hscope
  have hmodule := hs.scope f.scope (by rw [scope?, hf, Option.map_some])
  have hfills : ∀ {target m₁}, (do
      defineFunctions target native.functions
      defineNumbers target native.constants : Act Unit) m₁ = .ok u m' →
      Besides view target m₁ m' := fun h => after_ok h ▸ besides_after _ _
  cases as with
  | none =>
    obtain ⟨target, m₁, htarget, hdefined⟩ := bind_eq_ok htargeted
    cases htarget
    exact (hfills hdefined).sparesOthers hs.heap hfit hmodule
  | some name =>
    obtain ⟨target, m₁, htarget, hdefined⟩ := bind_eq_ok htargeted
    obtain ⟨N, halias, rfl⟩ := map_eq_ok htarget
    have hfills := hfills hdefined
    have hfit₁ := hfills.room_le.trans hfit
    have hbesides : Besides view f.scope m₀ m₁ :=
      after_ok halias ▸ besides_after (aliasModule name f.scope) m₀
    have hw₁ := hbesides.wellFormed hs.heap hfit₁
    obtain ⟨hfound, -, -⟩ := aliasModule_eq_ok hs.heap hstocked halias hfit₁
    intro r c hr hc
    have hN : r ∉ some N := by
      rintro hrN
      obtain rfl := Option.mem_some_iff.mp hrN
      obtain hfind | hnew := hfound
      · obtain ⟨M, hM, hmod⟩ := hstocked name _ hfind
        rw [Value.ofHandle_injective hM] at hr
        exact hr hmod
      · obtain ⟨o, ho, -⟩ := Heap.seen_eq_some.mp hc
        exact hnew (Heap.isLive_iff.mpr ⟨o, ho⟩)
    exact hfills.bears hw₁ hfit r c hN (hbesides.sparesOthers hs.heap hfit₁ hmodule r c hr hc)

theorem sparesOthers_imports [Heap.Coarse view] (hs : Scoped m) (hstocked : m.Stocked)
    (h : imports op m = .ok u m') (hfit : m'.room ≤ Heap.slotLimit) : SparesOthers view m m' := by
  obtain ⟨name, as, k, -, himport⟩ := imports_eq_ok h
  obtain ⟨-, hfile⟩ | ⟨native, f, -, -, -, hnative⟩ := importModule_cases himport
  · have hupholds : Upholds view (m.skip k) m' :=
      after_ok hfile ▸ upholds_after (importFile _ _) (m.skip k)
    exact (hupholds.sparesOthers hs.heap hfit).of_heap rfl
  · have himported : SparesOthers view (m.skip k) m' :=
      sparesOthers_importNative (hs.skip k) hstocked hnative hfit
    exact himported.of_heap rfl

/-! ## Classes of the host -/

/-- The class that gets its native methods is new. -/
theorem upholds_addClass (name : String) (methods : List Native) (m : Machine) :
    Upholds view m (after (addClass name methods) m) := by
  let h₁ := (m.heap.intern name).1
  let key := (m.heap.intern name).2
  let cls := (h₁.alloc (.classObject key)).2
  let m₂ : Machine := { m with heap := (h₁.alloc (.classObject key)).1 }
  let rest : Act Handle := do
    define none key (.ofHandle cls)
    defineFunctions (some cls) methods
    return cls
  have hafter : after (addClass name methods) m = after rest m₂ := rfl
  have hmakes : Makes (Besides view (some cls)) rest := .parts
  have hbesides := hmakes.preorder m₂
  have hinterned : Heap.Upholds view m.heap h₁ := .intern m.heap name
  have hmade : Heap.Upholds view m.heap m₂.heap := hinterned.trans (.alloc h₁ (by simp [Body.kind]))
  rw [hafter]
  refine ⟨hmade.size_le.trans hbesides.room_le, fun hw hfit => ?_, fun hw hfit r c hc => ?_⟩
  · exact hbesides.wellFormed (hmade.wellFormed hw (hbesides.room_le.trans hfit)) hfit
  · have hfit₂ : m₂.heap.slots.size ≤ Heap.slotLimit := hbesides.room_le.trans hfit
    have hfit₁ : h₁.slots.size ≤ Heap.slotLimit := (Heap.size_le_alloc ..).trans hfit₂
    have hc₁ := hinterned.bears hw hfit₁ r c hc
    have hr : r ∉ some cls := by
      rintro hr
      obtain rfl := Option.mem_some_iff.mp hr
      have hnew := Heap.get?_alloc_snd (hinterned.wellFormed hw hfit₁) hfit₂
      obtain ⟨o, ho, -⟩ := Heap.seen_eq_some.mp hc₁
      rw [hnew] at ho
      cases ho
    exact hbesides.bears (hmade.wellFormed hw hfit₂) hfit r c hr (hmade.bears hw hfit₂ r c hc)

end Machine

end FiberMachine
