import FiberMachine.Proofs.Machine.Atomicity
import FiberMachine.Proofs.Machine.Returns
import FiberMachine.Proofs.Machine.Roles

/-!
# Modules come and go

What a step does to the modules: none leaves the table, a module with code comes into it
when a fiber begins to run that code, and it is among those that load until that fiber ends.
-/

namespace FiberMachine

open Relation (ReflTransGen)

namespace Machine

variable {α : Type} {m m₁ m' : Machine} {row row' : List Handle} {r M : Handle} {t : Running}
  {G : Members → Members → Prop}

/-- A fiber begins to run the code of a module, which is new. -/
structure Loads (r M : Handle) (m m' : Machine) : Prop where
  fresh : ¬ m.heap.isLive M
  new : ¬ m.IsFiber r
  role : m'.role? r = some (.module, some M)
  running : m'.runningId? = some r
  loading : M ∈ m'.loading
  entry : ∃ k, m'.modules.find? k = some (.ofHandle M)

/-- No module leaves the table, and one that is new there is new altogether. -/
structure Restocks (m m' : Machine) : Prop where
  stocked : m'.Stocked
  kept : ∀ k v, m.modules.find? k = some v → m'.modules.find? k = some v
  entered : ∀ k v, m'.modules.find? k = some v →
    m.modules.find? k = some v ∨ ∃ M, v = .ofHandle M ∧ ¬ m.heap.isLive M

/-- What a step makes of the modules: one that loads is new or loaded before, and it does so
until the fiber ends that runs its code. -/
structure Turnover (m m' : Machine) : Prop extends Restocks m m' where
  roles : ∀ r ρ, m'.role? r = some ρ → m.role? r = some ρ ∨
    ¬ m.IsFiber r ∧ (ρ.2 = none ∨ ∃ M, ρ = (.module, some M) ∧ Loads r M m m')
  loading : ∀ M ∈ m'.loading, M ∈ m.loading ∨ ∃ r, Loads r M m m'
  ends : ∀ M ∈ m.loading, M ∈ m'.loading ∨ ∃ r, m.runningId? = some r ∧
    m.role? r = some (.module, some M) ∧ m'.stateOf? r = some .done
  ended : ∀ r M, m.runningId? = some r → m.role? r = some (.module, some M) →
    m'.stateOf? r = some .done → M ∉ m'.loading

theorem Keeps.restocks (hk : Keeps G m m') (hw : m.heap.WellFormed) (hs : m.Stocked)
    (hfit : m'.room ≤ Heap.slotLimit) : Restocks m m' :=
  ⟨hk.stocked hw hfit hs, fun _ _ h => hk.modules.symm ▸ h, fun _ _ h => .inl (hk.modules ▸ h)⟩

theorem Restocks.keeps (h : Restocks m m₁) (hk : Keeps G m₁ m') (hw : m₁.heap.WellFormed)
    (hfit : m'.room ≤ Heap.slotLimit) : Restocks m m' :=
  ⟨hk.stocked hw hfit h.stocked, fun k v hv => hk.modules ▸ h.kept k v hv,
    fun k v hv => h.entered k v (hk.modules ▸ hv)⟩

theorem Keeps.turnover (hk : Keeps G m m') (hw : m.heap.WellFormed) (hs : m.Stocked)
    (hfit : m'.room ≤ Heap.slotLimit)
    (hroles : ∀ r ρ, m'.role? r = some ρ → m.role? r = some ρ ∨ ¬ m.IsFiber r ∧ ρ.2 = none)
    (hactive : ∀ r M, m.runningId? = some r → m.role? r = some (.module, some M) →
      m'.stateOf? r ≠ some .done) : Turnover m m' where
  toRestocks := hk.restocks hw hs hfit
  roles r ρ h := (hroles r ρ h).imp id fun ⟨hold, hnone⟩ => ⟨hold, .inl hnone⟩
  loading _ h := .inl (hk.loading ▸ h)
  ends _ h := .inl (hk.loading.symm ▸ h)
  ended r M hr hrole hd := absurd hd (hactive r M hr hrole)

theorem Enlists.active_role (he : Enlists m m') (hr : m.runningId? = some r) :
    m'.stateOf? r ≠ some .done := by
  obtain ⟨t, ht, rfl⟩ := Option.map_eq_some_iff.mp hr
  exact he.active t ht

/-- Operands, frames and the host do not matter. -/
theorem Turnover.behind (hw : Works m m₁) (hk : Keeps G m m₁) (h : Turnover m₁ m') :
    Turnover m m' := by
  have hrole : ∀ r, m₁.role? r = m.role? r :=
    role?_eq_of_outline hw.running fun _ => by rw [hw.heap]
  have hid : m₁.runningId? = m.runningId? :=
    (Alike.mk hw.toSameOutline (hw.heap ▸ .refl m.heap)).runningId?_eq
  have hfiber : ∀ r, m₁.IsFiber r ↔ m.IsFiber r := fun r => by rw [IsFiber, hw.heap, IsFiber]
  have hloads : ∀ {r M}, Loads r M m₁ m' → Loads r M m m' := fun hl =>
    { hl with fresh := hw.heap ▸ hl.fresh, new := (hfiber _).not.mp hl.new }
  obtain ⟨⟨hstocked, hkept, hentered⟩, hroles, hloading, hends, hended⟩ := h
  refine ⟨⟨hstocked, fun k v hv => hkept k v (hk.modules ▸ hv), fun k v hv => ?_⟩,
    fun r ρ hr => ?_, fun M hM => ?_, fun M hM => ?_, fun r M hr hM => ?_⟩
  · exact hk.modules ▸ hw.heap ▸ hentered k v hv
  · rw [← hrole, ← hfiber]
    refine (hroles r ρ hr).imp id (And.imp id (Or.imp id ?_))
    exact Exists.imp fun M => And.imp id hloads
  · exact (hloading M hM).imp (hk.loading ▸ id) (Exists.imp fun r => hloads)
  · simpa only [hid, hrole] using hends M (hk.loading ▸ hM)
  · exact hended r M (hid.trans hr) ((hrole r).trans hM)

/-! ## Safe points -/

theorem Tended.ne_done (hn : Nested row m) (h : Tended row m r) : m.stateOf? r ≠ some .done := by
  have hline : r ∈ m.line row → m.stateOf? r ≠ some .done := fun hr hd => by
    rcases hn.stateOf?_line hr with h | h <;> rw [hd] at h <;> cases h
  cases h with
  | running h => exact hline (mem_line.mpr (.inl h))
  | waiting h => exact hline (mem_line.mpr (.inr h))
  | suspended h | ready h => rw [h]; decide

theorem Nested.turnover_safePoint (hn : Nested row m) (hs : m.Stocked) {found : Bool}
    (h : Machine.safePoint m = .ok found m') (hfit : m'.room ≤ Heap.slotLimit) :
    Turnover m m' := by
  have hh := after_ok h ▸ handover_after Machine.safePoint m
  obtain ⟨row', hp, -⟩ := hn.safePoint h
  exact hh.keeps.turnover hn.wellFormed hs hfit
    (fun r ρ hr => .inl (hh.roles hn.toHoused hfit r ρ hr))
    fun r _ hr _ => (hp.tended r (.running hr)).ne_done hp.nested

/-! ## The end of a fiber -/

theorem depart_eq_ok (hn : Nested row m) (ht : m.running = some t) {u : Unit}
    (h : depart t.id m = .ok u m') : m'.stateOf? t.id = some .done := by
  obtain ⟨_, m₁, hm₁, h⟩ := bind_eq_ok h
  cases hm₁
  have hn' : Nested row { m with root := m.root.filter (· != t.id) } := hn.of_eq rfl rfl
  have hreturned := hn'.returned ht h
  exact hreturned.state

/-- The fiber of a module first completes it. -/
theorem finish_cases {u : Unit} (h : finish m = .ok u m') : ∃ t, m.running = some t ∧
    ((∃ M m₁, t.fiber.role = (.module, some M) ∧ completeModule M m = .ok () m₁ ∧
        depart t.id m₁ = .ok () m') ∨
      (∀ M, t.fiber.role ≠ (.module, some M)) ∧ depart t.id m = .ok () m') := by
  obtain ⟨id, _, hid, h⟩ := bind_eq_ok h
  obtain ⟨rfl, t, ht, rfl⟩ := runningId_eq_ok hid
  obtain ⟨f, _, hf, h⟩ := bind_eq_ok h
  obtain ⟨rfl, rfl⟩ := fiber_eq_ok ht hf
  refine ⟨t, ht, ?_⟩
  obtain ⟨id, stack, frames, caller, kind, state, module⟩ := t
  cases kind with
  | module =>
    cases module with
    | none => exact .inr ⟨nofun, h⟩
    | some M =>
      obtain ⟨_, m₁, hc, h⟩ := bind_eq_ok h
      exact .inl ⟨M, m₁, rfl, hc, h⟩
  | _ => exact .inr ⟨nofun, h⟩

theorem completeModule_eq_ok {u : Unit} (h : completeModule M m = .ok u m') :
    Keeps Whatever { m with loading := m.loading.filter (· != M) } m' := by
  obtain ⟨_, m₁, hm₁, h⟩ := bind_eq_ok h
  cases hm₁
  obtain ⟨_, m₂, hm₂, h⟩ := bind_eq_ok h
  cases hm₂
  obtain ⟨⟨name, importer⟩, m₂, hm₂, h⟩ := bind_eq_ok h
  have hk := after_ok hm₂ ▸ keeps_after Whatever _ { m with loading := m.loading.filter (· != M) }
  have hrest : Makes (Keeps Whatever) (do
    define importer name (.ofHandle M); define none name (.ofHandle M) : Act Unit) := .parts
  exact hk.trans (after_ok h ▸ @keeps_after _ Whatever _ _ hrest m₂)

theorem Nested.turnover_finish (hn : Nested row m) (hs : m.Stocked) {u : Unit}
    (h : finish m = .ok u m') (hfit : m'.room ≤ Heap.slotLimit) : Turnover m m' := by
  obtain ⟨t, ht, ⟨M, m₁, hrole, hcomplete, hdepart⟩ | ⟨hrole, hdepart⟩⟩ := finish_cases h
  · have hrow : ReflTransGen Move m m₁ := after_ok hcomplete ▸ Makes.row (x := completeModule M) m
    have hk := completeModule_eq_ok hcomplete
    have hh := after_ok hdepart ▸ handover_after (depart t.id) m₁
    have hfit₁ := hh.room_le.trans hfit
    obtain ⟨hw₁, ha⟩ := row_alike hrow hn.wellFormed hfit₁
    have hn₁ := hn.alike hw₁ ha
    obtain ⟨t₁, ht₁, hid⟩ := ha.running_id ht
    have hdone := depart_eq_ok hn₁ ht₁ (hid ▸ hdepart)
    rw [hid] at hdone
    have hloading : m'.loading = m.loading.filter (· != M) := hh.keeps.loading.trans hk.loading
    have hrun := runningId?_some ht
    have hrole' : m.role? t.id = some (.module, some M) := hrole ▸ role?_running ht
    have hr := (hk.restocks hn.wellFormed hs hfit₁).keeps hh.keeps hw₁ hfit
    refine ⟨⟨hr.stocked, hr.kept, hr.entered⟩, fun r ρ hr => ?_, fun N hN => ?_, fun N hN => ?_,
      fun r N hr hN _ => ?_⟩
    · exact .inl (ha.role?_eq r ▸ hh.roles hn₁.toHoused hfit r ρ hr)
    · exact .inl (List.mem_of_mem_filter (hloading ▸ hN))
    · by_cases hNM : N = M
      · exact .inr ⟨t.id, hrun, hNM ▸ hrole', hdone⟩
      · rw [hloading]
        exact .inl (List.mem_filter.mpr ⟨hN, by simpa using hNM⟩)
    · cases hrun.symm.trans hr
      cases hrole'.symm.trans hN
      rw [hloading]
      simp
  · have hh := after_ok hdepart ▸ handover_after (depart t.id) m
    refine hh.keeps.turnover hn.wellFormed hs hfit
      (fun r ρ hr => .inl (hh.roles hn.toHoused hfit r ρ hr)) fun r M hr hM => ?_
    cases (runningId?_some ht).symm.trans hr
    rw [role?_running ht, Option.some.injEq] at hM
    exact absurd hM (hrole M)

instance (f : OperandStack → Except Fault OperandStack) : Makes Works (changeStack f) := by
  refine ⟨fun m => ?_⟩
  simp only [after, changeStack]
  rcases h : m.running with _ | ⟨id, stack, frames, caller, kind, state, module⟩
  · exact .refl
  · simp only
    cases f stack with
    | ok stack => exact .single ⟨⟨by rw [h]; rfl, rfl, rfl, rfl, rfl⟩, rfl, rfl⟩
    | error fault => exact .refl

instance (v : Value) : Makes Works (push v) := by
  unfold push
  infer_instance

/-- Nothing that fibers share differs, nor the table of modules. -/
structure Beside (m m' : Machine) : Prop where
  works : Works m m'
  keeps : Keeps Eq m m'

theorem Works.trans (h : Works m m₁) (h' : Works m₁ m') : Works m m' :=
  ⟨h.toSameOutline.trans h'.toSameOutline, h'.heap.trans h.heap, h'.config.trans h.config⟩

theorem Beside.trans (h : Beside m m₁) (h' : Beside m₁ m') : Beside m m' :=
  ⟨h.works.trans h'.works, h.keeps.trans h'.keeps⟩

theorem beside_of_ok {x : Act α} [hx : Makes Works x] [Makes (Keeps Eq) x] {a : α}
    (h : x m = .ok a m') : Beside m m' :=
  ⟨after_ok h ▸ works_of_row (hx.row m), after_ok h ▸ keeps_after Eq x m⟩

theorem beside_withCalls (ht : m.running = some t) (stack : OperandStack) (frames : List Frame) :
    Beside m (m.withCalls t stack frames) where
  works := ⟨⟨by rw [ht]; rfl, rfl, rfl, rfl, rfl⟩, rfl, rfl⟩
  keeps := .of_eq rfl rfl rfl rfl

theorem Beside.nested (hb : Beside m m') (hn : Nested row m) : Nested row m' :=
  hn.alike (hb.works.heap ▸ hn.wellFormed)
    ⟨hb.works.toSameOutline, hb.works.heap ▸ .refl m.heap⟩

theorem Beside.stocked (hb : Beside m m') (hs : m.Stocked) : m'.Stocked :=
  hs.mono hb.keeps.modules fun _ h => hb.works.heap ▸ h

theorem Nested.turnover_ret (hn : Nested row m) (hs : m.Stocked) {u : Unit}
    (h : returnFromCall m = .ok u m') (hfit : m'.room ≤ Heap.slotLimit) : Turnover m m' := by
  obtain ⟨t, ht, hreturns⟩ := returns_of_ok h
  cases hreturns with
  | @ends f _ below _ _ hfinish =>
    have hb := beside_withCalls ht (below.truncate f.base) []
    exact ((hb.nested hn).turnover_finish (hb.stocked hs) hfinish hfit).behind hb.works hb.keeps
  | on _ _ _ _ _ hm =>
    have hb : Beside m m' := hm ▸ beside_withCalls ht ..
    have ha : Alike m m' := ⟨hb.works.toSameOutline, hb.works.heap ▸ .refl m.heap⟩
    refine hb.keeps.turnover hn.wellFormed hs hfit (fun r ρ hr => .inl (ha.role?_eq r ▸ hr))
      fun r _ hr _ => ?_
    cases (runningId?_some ht).symm.trans hr
    rw [ha.stateOf?_eq, hn.stateOf?_running ht]
    decide

/-! ## Imports -/

/-- A new module stands in the table under a name. -/
structure Shelved (name M : Handle) (m m' : Machine) : Prop where
  fresh : ¬ m.heap.isLive M
  modules : m'.modules = m.modules.insert name (.ofHandle M)
  loading : m'.loading = m.loading
  stocked : m.Stocked → m'.Stocked

theorem newModule_apply (name : Handle) (importer : Option Handle) (m : Machine) :
    newModule name importer m = .ok (m.heap.alloc (.module name importer)).2
      { m with
        heap := (m.heap.alloc (.module name importer)).1
        modules := m.modules.insert name (.ofHandle (m.heap.alloc (.module name importer)).2) } := rfl

theorem shelved_newModule {name : Handle} {importer : Option Handle} (hw : m.heap.WellFormed)
    (h : newModule name importer m = .ok M m') (hfit : m'.room ≤ Heap.slotLimit) :
    Shelved name M m m' := by
  rw [newModule_apply] at h
  injection h with hM hm
  subst hM hm
  have hb := Heap.alloc_allocated hw.toArena (.module name importer) hfit
  refine ⟨?_, rfl, rfl, fun hs k v hv => ?_⟩
  · rw [Heap.isLive, hb.fresh]
    simp
  · by_cases hk : k = name
    · subst hk
      cases (Table.find?_insert_self ..).symm.trans hv
      exact ⟨_, rfl, _, (hb.get? _).trans (if_pos rfl), rfl⟩
    · obtain ⟨q, rfl, hq⟩ := hs k v ((Table.find?_insert_ne _ hk _).symm.trans hv)
      exact ⟨q, rfl, (Heap.Remains.alloc hw.toArena _ hfit).has hq⟩

theorem Shelved.restocks {name : Handle} (h : Shelved name M m m') (hs : m.Stocked)
    (hnone : m.modules.find? name = none) : Restocks m m' := by
  refine ⟨h.stocked hs, fun k v hv => ?_, fun k v hv => ?_⟩
  · have hk : k ≠ name := fun he => by simp [he, hnone] at hv
    rw [h.modules, Table.find?_insert_ne _ hk, hv]
  · rw [h.modules] at hv
    by_cases hk : k = name
    · subst hk
      cases (Table.find?_insert_self ..).symm.trans hv
      exact .inr ⟨M, rfl, h.fresh⟩
    · exact .inl ((Table.find?_insert_ne _ hk _).symm.trans hv)

theorem Stocked.importedModule_eq_none (hs : m.Stocked) {name : Handle}
    (h : m.importedModule name = none) : m.modules.find? name = none := by
  rw [Option.eq_none_iff_forall_ne_some]
  intro v hv
  obtain ⟨r, rfl, o, ho, hk⟩ := hs name v hv
  simp [importedModule, hv, Heap.kindOf?, Value.toHandle?_ofHandle, ho, hk] at h

/-- A module for native functions loads nothing. -/
theorem Stocked.aliasModule (hs : m.Stocked) (hw : m.heap.WellFormed) {name : Handle}
    {importer : Option Handle} (h : aliasModule name importer m = .ok M m')
    (hfit : m'.room ≤ Heap.slotLimit) : Restocks m m' ∧ m'.loading = m.loading := by
  have hdefine : ∀ M, Makes (Keeps Whatever) (do
      define importer name (.ofHandle M)
      return M : Act Handle) := fun _ => .parts
  obtain ⟨_, _, hget, h⟩ := bind_eq_ok h
  cases hget
  cases hi : m.importedModule name with
  | some N =>
    simp only [hi] at h
    have hk := after_ok h ▸ @keeps_after _ Whatever _ _ (hdefine N) m
    exact ⟨hk.restocks hw hs hfit, hk.loading⟩
  | none =>
    simp only [hi] at h
    obtain ⟨N, m₁, hnew, h⟩ := bind_eq_ok h
    have hk := after_ok h ▸ @keeps_after _ Whatever _ _ (hdefine N) m₁
    have hfit₁ := hk.room_le.trans hfit
    have hshelf := shelved_newModule hw hnew hfit₁
    have hw₁ := (after_ok hnew ▸ tends_after (newModule name importer) m).wellFormed hw hfit₁
    exact ⟨(hshelf.restocks hs (hs.importedModule_eq_none hi)).keeps hk hw₁ hfit,
      hk.loading.trans hshelf.loading⟩

theorem map_eq_ok {σ β : Type} {x : EStateM Fault σ α} {g : α → β} {s s' : σ} {b : β}
    (h : (g <$> x) s = .ok b s') : ∃ a, x s = .ok a s' ∧ g a = b := by
  change EStateM.map g x s = _ at h
  unfold EStateM.map at h
  split at h <;> cases h
  exact ⟨_, by assumption, rfl⟩

theorem unchanged_of_ok {x : Act α} [Makes Probe.Unchanged x] {a : α} (h : x m = .ok a m') :
    m' = m := (after_ok h).symm.trans (Probe.after_unchanged m)

theorem Stocked.importNative (hs : m.Stocked) (hw : m.heap.WellFormed) {native : NativeModule}
    {as : Option Handle} {u : Unit} (h : importNative native as m = .ok u m')
    (hfit : m'.room ≤ Heap.slotLimit) : Restocks m m' ∧ m'.loading = m.loading := by
  have hdefine : ∀ target, Makes (Keeps Whatever) (do
      defineFunctions target native.functions
      defineNumbers target native.constants : Act Unit) := fun _ => .parts
  obtain ⟨importer, m₀, hscope, hrest⟩ := bind_eq_ok h
  obtain rfl := unchanged_of_ok hscope
  cases as with
  | none =>
    have hk : Keeps Whatever m₀ m' := after_ok (x := (do
      defineFunctions importer native.functions
      defineNumbers importer native.constants : Act Unit)) hrest ▸
        @keeps_after _ Whatever _ _ (hdefine importer) m₀
    exact ⟨hk.restocks hw hs hfit, hk.loading⟩
  | some name =>
    obtain ⟨target, m₁, halias, hdefined⟩ := bind_eq_ok hrest
    obtain ⟨M, halias, -⟩ := map_eq_ok halias
    have hk := after_ok hdefined ▸ @keeps_after _ Whatever _ _ (hdefine target) m₁
    have hfit₁ := hk.room_le.trans hfit
    obtain ⟨hr, hl⟩ := hs.aliasModule hw halias hfit₁
    have hw₁ := (after_ok halias ▸ tends_after (Machine.aliasModule name importer) m₀).wellFormed hw hfit₁
    exact ⟨hr.keeps hk hw₁ hfit, hk.loading.trans hl⟩

theorem Nested.turnover_importNative (hn : Nested row m) (hs : m.Stocked) {native : NativeModule}
    {as : Option Handle} {u : Unit} (h : importNative native as m = .ok u m')
    (hfit : m'.room ≤ Heap.slotLimit) : Turnover m m' := by
  obtain ⟨hr, hl⟩ := hs.importNative hn.wellFormed h hfit
  obtain ⟨-, ha⟩ := row_alike (after_ok h ▸ Makes.row (M := Move) m) hn.wellFormed hfit
  refine ⟨hr, fun r ρ hρ => .inl (ha.role?_eq r ▸ hρ), fun M hM => .inl (hl ▸ hM),
    fun M hM => .inl (hl.symm ▸ hM), fun r M hid _ hd => ?_⟩
  obtain ⟨t, ht, rfl⟩ := Option.map_eq_some_iff.mp hid
  rw [ha.stateOf?_eq, hn.stateOf?_running ht] at hd
  cases hd

/-! ### Modules with code -/

theorem work?_newFiberHandle (hm : m.Housed) {f : Fiber}
    (hfit : (m.withNewFiber f).room ≤ Heap.slotLimit) :
    (m.withNewFiber f).work? (m.newFiberHandle f) = some f.work := by
  have hne : (m.withNewFiber f).runningId? ≠ some (m.newFiberHandle f) := fun he => by
    obtain ⟨t, ht, hid⟩ := Option.map_eq_some_iff.mp he
    have hout := hm.out t ht
    rw [hid] at hout
    exact not_isLive_newFiber hm.wellFormed hfit (Heap.isLive_of_fiberAt? hout)
  rw [work?_parked hne]
  exact parkedWork?_of_fiberAt? ((fiberAt?_newFiber hm.wellFormed hfit _).trans (if_pos rfl))

/-- A fiber for a new module starts at once, and the one that imports it waits. -/
structure Started (function r M : Handle) (m m' : Machine) : Prop where
  new : ¬ m.IsFiber r
  casts : ∀ q ρ, m'.role? q = some ρ → m.role? q = some ρ ∨
    ¬ m.IsFiber q ∧ q = r ∧ ρ = (.module, some M)
  role : m'.role? r = some (.module, some M)
  running : m'.runningId? = some r
  waits : ∀ q, m.runningId? = some q → m'.stateOf? q ≠ some .done
  frames : ∃ f, m.heap.function function = .ok f ∧
    ∀ t, m'.running = some t → t.fiber.frames = [.enter function f.chunk 0 f.module]

theorem Nested.started (hn : Nested row m) {function : Handle} {args : List Value} {u : Unit}
    (h : (do Machine.resume (← Machine.newFiber .module function args none (some M)) : Act Unit) m =
      .ok u m') (hfit : m'.room ≤ Heap.slotLimit) : ∃ r, Started function r M m m' := by
  obtain ⟨r, m₁, hfiber, hresume⟩ := bind_eq_ok h
  obtain ⟨f, stack, hf, -, hm₁, hr⟩ := newFiber_eq_ok_body hfiber
  subst hm₁ hr
  have hh := after_ok hresume ▸ handover_after (Machine.resume _) _
  have hrests := after_ok hresume ▸ rests_after (Machine.resume _) _
  have hfit₁ := hh.room_le.trans hfit
  have hn₁ := (hn.newFiber hfit₁).nested
  have hnew := not_isFiber_newFiberHandle hn.toHoused hfit₁
  obtain ⟨row', hresumed⟩ := hn₁.resumed hresume
  cases hresumed with
  | ignored hne _ => exact absurd (stateOf?_newFiberHandle hn hfit₁) hne
  | called _ hn' _ hrun _ =>
    have hcasts : ∀ q ρ, m'.role? q = some ρ → m.role? q = some ρ ∨
        ¬ m.IsFiber q ∧ q = m.newFiberHandle _ ∧ ρ = (.module, some M) := fun q ρ hq => by
      have hq := hh.roles hn₁.toHoused hfit q ρ hq
      rw [role?_newFiber hn.toHoused hfit₁] at hq
      split at hq
      · rename_i he
        cases hq
        exact .inr ⟨he ▸ hnew, he, rfl⟩
      · exact .inl hq
    refine ⟨_, hnew, hcasts, ?_, hrun, fun q hq => ?_, f, hf, fun t ht => ?_⟩
    · obtain ⟨t, ht, hid⟩ := Option.map_eq_some_iff.mp hrun
      have ht' := hid ▸ role?_running ht
      rcases hcasts _ _ ht' with hold | ⟨-, -, hρ⟩
      · exact absurd (isFiber_of_role? hn.toHoused hold) hnew
      · rw [ht', hρ]
    · exact Tended.ne_done hn' (.waiting (mem_line.mpr (.inl hq)))
    · -- the fiber enters with the work that it was given
      have hid : t.id = m.newFiberHandle _ :=
        Option.some.inj ((runningId?_some ht).symm.trans hrun)
      have hw := hrests.work hn₁.toHoused hfit _ _ (work?_running ht)
      rw [hid, work?_newFiberHandle hn.toHoused hfit₁] at hw
      exact (congrArg Work.frames (Option.some.inj hw)).symm

/-- The code of a module runs from its beginning, and the module is in the table. -/
structure Launched (key : Handle) (code : Prototype) (r M : Handle) (m m' : Machine) : Prop where
  loads : Loads r M m m'
  modules : m'.modules = m.modules.insert key (.ofHandle M)
  loading : m'.loading = m.loading ++ [M]
  frames : ∃ (function : Handle) (f : Function), f.chunk.code = code.code ∧
    ∀ t, m'.running = some t → t.fiber.frames = [.enter function f.chunk 0 (some M)]

theorem Nested.launched (hn : Nested row m) (hs : m.Stocked) {key : Handle} {code : Prototype}
    {importer : Option Handle} (hkey : m.modules.find? key = none) {u : Unit}
    (h : launch key code importer m = .ok u m') (hfit : m'.room ≤ Heap.slotLimit) :
    Turnover m m' ∧ ∃ r M, Launched key code r M m m' := by
  obtain ⟨M, m₁, hnew, h₁⟩ := bind_eq_ok h
  obtain ⟨_, m₂, hloading, h₂⟩ := bind_eq_ok h₁
  obtain ⟨function, m₃, hload, h₃⟩ := bind_eq_ok h₂
  have hstart : Makes (Keeps Whatever)
    (do Machine.resume (← Machine.newFiber .module function [] none (some M)) : Act Unit) := .parts
  have hk₃ : Keeps Whatever m₂ m₃ := after_ok hload ▸ keeps_after Whatever _ m₂
  have hk : Keeps Whatever m₃ m' := after_ok h₃ ▸ @keeps_after _ Whatever _ _ hstart m₃
  have hfit₃ := hk.room_le.trans hfit
  have hrow₂ : ReflTransGen Move m m₂ := (after_ok hnew ▸ Makes.row m).trans
    (after_ok hloading ▸ Makes.row m₁)
  obtain ⟨hw₂, -⟩ := row_alike hrow₂ hn.wellFormed (hk₃.room_le.trans hfit₃)
  obtain ⟨hw₃, ha⟩ := row_alike (hrow₂.trans (after_ok hload ▸ Makes.row m₂)) hn.wellFormed hfit₃
  obtain ⟨r, hr⟩ := (hn.alike hw₃ ha).started h₃ hfit
  have hm₂ : m₂ = { m₁ with loading := m₁.loading ++ [M] } := by
    cases hloading
    rfl
  subst hm₂
  have hfit₁ : m₁.room ≤ Heap.slotLimit := hk₃.room_le.trans hfit₃
  have hshelf := shelved_newModule hn.wellFormed hnew hfit₁
  have hr₁ := hshelf.restocks hs hkey
  have hr₂ : Restocks m { m₁ with loading := m₁.loading ++ [M] } :=
    ⟨hr₁.stocked, hr₁.kept, hr₁.entered⟩
  have hmodules := hk.modules.trans (hk₃.modules.trans hshelf.modules)
  have hloads : m'.loading = m.loading ++ [M] :=
    hk.loading.trans (hk₃.loading.trans (congrArg (· ++ [M]) hshelf.loading))
  have hl : Loads r M m m' := ⟨hshelf.fresh, (ha.isFiber r).not.mp hr.new, hr.role, hr.running,
    by simp [hloads], key, by rw [hmodules, Table.find?_insert_self]⟩
  refine ⟨⟨(hr₂.keeps hk₃ hw₂ hfit₃).keeps hk hw₃ hfit,
    fun q ρ hq => ?_, fun N hN => ?_, fun N hN => ?_, fun q N hq _ hd => ?_⟩,
    r, M, hl, hmodules, hloads, function, ?_⟩
  · rw [← ha.role?_eq, ← ha.isFiber]
    exact (hr.casts q ρ hq).imp id fun ⟨hnew, hqr, hρ⟩ => ⟨hnew, .inr ⟨M, hρ, hqr ▸ hl⟩⟩
  · rw [hloads] at hN
    rcases List.mem_append.mp hN with hold | hN
    · exact .inl hold
    · exact .inr ⟨r, List.mem_singleton.mp hN ▸ hl⟩
  · exact .inl (hloads ▸ List.mem_append_left _ hN)
  · exact absurd hd (hr.waits q (ha.runningId?_eq.trans hq))
  · obtain ⟨f, hf, hframes⟩ := hr.frames
    rw [lift_apply] at hload
    cases hload
    obtain ⟨f', hf', hcode, hmodule⟩ := function_load hw₂ (some M) code hfit₃
    cases hf'.symm.trans hf
    exact ⟨f, hcode, hmodule ▸ hframes⟩

theorem Nested.turnover_startModule (hn : Nested row m) (hs : m.Stocked) {key : Handle}
    {code : Prototype} (hkey : m.modules.find? key = none) {u : Unit}
    (h : startModule key code m = .ok u m') (hfit : m'.room ≤ Heap.slotLimit) :
    Turnover m m' := by
  obtain ⟨importer, m₀, hscope, hlaunch⟩ := bind_eq_ok h
  obtain rfl := unchanged_of_ok hscope
  exact (hn.launched hs hkey hlaunch hfit).1

/-- The file of a module holds code. -/
def Source (m : Machine) (name : String) (code : Prototype) : Prop :=
  m.host.json.compile (m.host.fetch (name ++ m.config.moduleExtension)).1 = .ok code

/-- A file is imported once under a name. -/
theorem importFile_cases {name : String} {key : Handle} {u : Unit}
    (h : importFile name key m = .ok u m') : m' = m ∧ m.modules.contains key ∨
      ∃ m₁ code, Beside m m₁ ∧ m.modules.find? key = none ∧ m.Source name code ∧
        startModule key code m₁ = .ok () m' := by
  obtain ⟨_, _, hget, h⟩ := bind_eq_ok h
  cases hget
  dsimp only at h
  split at h
  · rename_i hkey
    cases h
    exact .inl ⟨rfl, hkey⟩
  · rename_i hkey
    refine .inr ?_
    have hnone : m.modules.find? key = none := by simpa [Table.contains] using hkey
    obtain ⟨contents, m₁, hfetch, h⟩ := bind_eq_ok h
    have hb := beside_of_ok hfetch
    have hcontents : (m.host.fetch (name ++ m.config.moduleExtension)).1 = contents := by
      cases hfetch
      rfl
    split at h
    · obtain ⟨_, _, hthrow, -⟩ := bind_eq_ok h
      cases hthrow
    · cases hread : m.host.json.compile contents with
      | error cause =>
        simp only [hread] at h
        cases h
      | ok code =>
        simp only [hread] at h
        exact ⟨m₁, code, hb, hnone, (congrArg m.host.json.compile hcontents).trans hread, h⟩

theorem Nested.turnover_refl (hn : Nested row m) (hs : m.Stocked) : Turnover m m := by
  refine ⟨⟨hs, fun _ _ => id, fun _ _ => .inl⟩, fun _ _ => .inl, fun _ => .inl, fun _ => .inl,
    fun r M hid _ hd => ?_⟩
  obtain ⟨t, ht, rfl⟩ := Option.map_eq_some_iff.mp hid
  rw [hn.stateOf?_running ht] at hd
  cases hd

theorem Nested.turnover_importFile (hn : Nested row m) (hs : m.Stocked) {name : String}
    {key : Handle} {u : Unit} (h : importFile name key m = .ok u m')
    (hfit : m'.room ≤ Heap.slotLimit) : Turnover m m' := by
  obtain ⟨rfl, -⟩ | ⟨m₁, code, hb, hkey, -, hstart⟩ := importFile_cases h
  · exact hn.turnover_refl hs
  · exact ((hb.nested hn).turnover_startModule (hb.stocked hs) (hb.keeps.modules ▸ hkey) hstart
      hfit).behind hb.works hb.keeps

theorem Nested.turnover_importModule (hn : Nested row m) (hs : m.Stocked) {name : Handle}
    {as : Option Handle} {u : Unit} (h : importModule name as m = .ok u m')
    (hfit : m'.room ≤ Heap.slotLimit) : Turnover m m' := by
  obtain ⟨_, _, hget, h⟩ := bind_eq_ok h
  cases hget
  cases hlib : m.library.find? (m.nameText name) with
  | some native =>
    simp only [hlib] at h
    exact hn.turnover_importNative hs h hfit
  | none =>
    simp only [hlib] at h
    exact hn.turnover_importFile hs h hfit

/-! ## All instructions -/

theorem beside_skip (k : Nat) (m : Machine) : Beside m (m.skip k) :=
  ⟨works_skip k m, .of_eq rfl rfl rfl rfl⟩

theorem Nested.turnover_imports (hn : Nested row m) (hs : m.Stocked) {op : Opcode} {u : Unit}
    (h : imports op m = .ok u m') (hfit : m'.room ≤ Heap.slotLimit) : Turnover m m' := by
  cases op with
  | importModule =>
    obtain ⟨name, m₁, h₁, h⟩ := bind_eq_ok h
    obtain rfl := readName_eq_ok h₁
    have hb := beside_skip 2 m
    exact ((hb.nested hn).turnover_importModule (hb.stocked hs) h hfit).behind hb.works hb.keeps
  | importModuleAs =>
    obtain ⟨name, m₁, h₁, h⟩ := bind_eq_ok h
    obtain rfl := readName_eq_ok h₁
    obtain ⟨as, m₂, h₂, h⟩ := bind_eq_ok h
    obtain rfl := readName_eq_ok h₂
    have hb := (beside_skip 2 m).trans (beside_skip 2 (m.skip 2))
    exact ((hb.nested hn).turnover_importModule (hb.stocked hs) h hfit).behind hb.works hb.keeps
  | _ => cases h

variable {host : HostFunctions}

theorem keeps_execute [IsPreorder Members G] [∀ id args, Makes (Keeps G) (host.call id args)]
    {op : Opcode} (hret : op ≠ .ret) (himport : op ≠ .importModule ∧ op ≠ .importModuleAs)
    (hbinds : Makes (Keeps G) (bindings op)) : Makes (Keeps G) (execute host op) := by
  have := keeps_control (G := G) hret
  unfold execute
  cases op with
  | ret => exact absurd rfl hret
  | importModule => exact absurd rfl himport.1
  | importModuleAs => exact absurd rfl himport.2
  | _ => infer_instance

theorem Nested.turnover_execute (hh : host.Intrudes)
    (hk : ∀ id args, Makes (Keeps Whatever) (host.call id args)) (hn : Nested row m)
    (hs : m.Stocked) {op : Opcode} {u : Unit} (h : execute host op m = .ok u m')
    (hfit : m'.room ≤ Heap.slotLimit) : Turnover m m' := by
  by_cases hret : op = .ret
  · subst hret
    exact hn.turnover_ret hs h hfit
  · by_cases himport : op ≠ .importModule ∧ op ≠ .importModuleAs
    · have hkeeps : Makes (Keeps Whatever) (execute host op) :=
        keeps_execute hret himport inferInstance
      have hlead : Leads Enlisting (execute host op) := enlisting_execute hh hret himport
      have he := (hlead.leads m u m' h).enlists row hn hfit
      have hk := after_ok h ▸ @keeps_after _ Whatever _ _ hkeeps m
      exact hk.turnover hn.wellFormed hs hfit he.roles fun r _ hr _ => he.active_role hr
    · rw [not_and_or, not_not, not_not] at himport
      have himports : imports op m = .ok u m' := by rcases himport with rfl | rfl <;> exact h
      exact hn.turnover_imports hs himports hfit

theorem Nested.turnover_instruction (hh : host.Intrudes)
    (hk : ∀ id args, Makes (Keeps Whatever) (host.call id args)) (hn : Nested row m)
    (hs : m.Stocked) {u : Unit} (h : instruction host m = .ok u m')
    (hfit : m'.room ≤ Heap.slotLimit) : Turnover m m' := by
  obtain ⟨byte, m₁, h₁, h⟩ := bind_eq_ok h
  obtain ⟨rfl, -⟩ := readByte_eq_ok h₁
  have hb := beside_skip 1 m
  cases hop : Opcode.ofByte? byte with
  | none =>
    simp only [hop] at h
    cases h
  | some op =>
    simp only [hop] at h
    exact ((hb.nested hn).turnover_execute hh hk (hb.stocked hs) h hfit).behind hb.works hb.keeps

/-- What goes on outside leaves the modules alone. -/
theorem Nested.turnover_outside (hn : Nested row m) (hs : m.Stocked) (h : Outside m m') :
    Turnover m m' := by
  have hended := (hn.turnover_refl hs).ended
  cases h <;> exact ⟨⟨hs, fun _ _ => id, fun _ _ => .inl⟩, fun _ _ => .inl, fun _ => .inl,
    fun _ => .inl, hended⟩

theorem Nested.turnover_step (hh : host.Intrudes)
    (hk : ∀ id args, Makes (Keeps Whatever) (host.call id args)) (hn : Nested row m)
    (hs : m.Stocked) (h : Steps host m m') (hfit : m'.room ≤ Heap.slotLimit) : Turnover m m' := by
  cases h with
  | safePoint h => exact hn.turnover_safePoint hs h hfit
  | instruction h => exact hn.turnover_instruction hh hk hs h hfit
  | outside h => exact hn.turnover_outside hs h

instance [IsPreorder Members G] (p : Prototype) : Makes (Keeps G) (start p) := by
  unfold start
  exact .parts

theorem turnover_start (hw : m.heap.WellFormed) (hrun : m.running = none) (hs : m.Stocked)
    {p : Prototype} {u : Unit} (h : start p m = .ok u m') (hfit : m'.room ≤ Heap.slotLimit) :
    Turnover m m' := by
  have hn := nested_nobody hw hrun
  have hk := after_ok h ▸ keeps_after Eq (start p) m
  refine hk.turnover hw hs hfit (fun r ρ hr => ?_) fun r _ hr _ => by
    rw [runningId?, hrun] at hr
    cases hr
  obtain ⟨function, m₁, hload, h⟩ := bind_eq_ok h
  obtain ⟨root, m₂, hnew, h⟩ := bind_eq_ok h
  obtain ⟨f, stack, -, -, hm₂, hroot⟩ := newFiber_eq_ok_body hnew
  have hrest : Makes Handover (do
    modify fun m : Machine => { m with root := some root }
    resume root : Act Unit) := .parts
  have hh := after_ok h ▸ @handover_after _ _ hrest m₂
  subst hm₂ hroot
  have hfit₂ := hh.room_le.trans hfit
  have hfit₁ : m₁.room ≤ Heap.slotLimit := Nat.le_trans (Heap.size_le_alloc ..) hfit₂
  obtain ⟨hw₁, ha⟩ := row_alike (after_ok hload ▸ Makes.row (M := Move) m) hw hfit₁
  have hn₁ := hn.alike hw₁ ha
  have hr := hh.roles (hn₁.newFiber hfit₂).nested.toHoused hfit r ρ hr
  rw [role?_newFiber hn₁.toHoused hfit₂] at hr
  split at hr
  · rename_i hnew
    cases hr
    refine .inr ⟨fun hf => ?_, rfl⟩
    exact not_isFiber_newFiberHandle hn₁.toHoused hfit₂ (hnew ▸ (ha.isFiber r).mpr hf)
  · exact .inl (ha.role?_eq r ▸ hr)

end Machine

end FiberMachine
