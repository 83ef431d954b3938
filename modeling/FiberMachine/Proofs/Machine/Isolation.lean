import FiberMachine.Proofs.Machine.Provenance
import FiberMachine.Proofs.Machine.Registry

/-!
# Tables of modules

Names come into the table of a module by definitions and assignments of its own code, by its
imports, when a module that it imported ends, and when a native module is imported under an
alias that the module stands under. Nothing else changes the table, and the code of a module
changes the globals in few ways.
-/

namespace FiberMachine

open Relation (ReflTransGen)

namespace Heap

variable {h h' : Heap} {M : Handle} {t : Members} {ws : Handle → List (Handle × Value)}

/-- The table of a module. -/
def table? (h : Heap) (M : Handle) : Option Members :=
  (h.get? M).bind fun o => if o.kind = .module then some o.members else none

theorem table?_eq_some : h.table? M = some t ↔
    ∃ o, h.get? M = some o ∧ o.kind = .module ∧ o.members = t := by
  simp [table?, Option.bind_eq_some_iff]

theorem isLive_of_table? (ht : h.table? M = some t) : h.isLive M := by
  obtain ⟨o, ho, -⟩ := table?_eq_some.mp ht
  exact isLive_iff.mpr ⟨o, ho⟩

theorem Records.table? (hr : Records h ws h') (ht : h.table? M = some t) :
    h'.table? M = some (t.insertAll (ws M)) := by
  obtain ⟨o, ho, hk, rfl⟩ := table?_eq_some.mp ht
  exact table?_eq_some.mpr ⟨_, hr M o ho hk, hk, rfl⟩

theorem within_eq_nil_or {scope : Option Handle} {bs : List (Handle × Value)}
    {P : List (Handle × Value) → Prop} (h : scope = some M → P bs) :
    within scope bs M = [] ∨ P (within scope bs M) := by
  unfold within
  split
  · exact .inr (h (by assumption))
  · exact .inl rfl

/-- The tables of the modules that are there before and after differ by the names that are
bound in them. -/
def Tabled (h : Heap) (ws : Handle → List (Handle × Value)) (h' : Heap) : Prop :=
  ∀ M t t', h.table? M = some t → h'.table? M = some t' → t' = t.insertAll (ws M)

/-- The tables of the modules that are there before and after are the same. -/
def SameTables (h h' : Heap) : Prop := Tabled h (fun _ => []) h'

theorem Records.tabled (hr : Records h ws h') : Tabled h ws h' := by
  intro M t t' ht ht'
  rw [hr.table? ht] at ht'
  exact (Option.some.inj ht').symm

theorem Remains.sameTables (hr : Remains h h') : SameTables h h' := hr.records.tabled

end Heap

namespace Machine

variable {α : Type} {m m₁ m' : Machine} {M name : Handle} {u : Unit} {op : Opcode}
  {ws : Handle → List (Handle × Value)}

theorem Modest.table? (h : Modest m m') (hw : m.heap.WellFormed) (hfit : m'.room ≤ Heap.slotLimit)
    {t : Members} (ht : m'.heap.table? M = some t) : m.heap.table? M = some t := by
  obtain ⟨o, ho, hk, hmembers⟩ := Heap.table?_eq_some.mp ht
  exact Heap.table?_eq_some.mpr ⟨o, h.modules hw hfit M o ho hk, hk, hmembers⟩

/-- Names are bound, and then no table changes any more. -/
theorem Modest.tabled (h : Modest m₁ m') (hr : m.heap.Records ws m₁.heap)
    (hw : m₁.heap.WellFormed) (hfit : m'.room ≤ Heap.slotLimit) : m.heap.Tabled ws m'.heap :=
  fun M t t' ht ht' => hr.tabled M t t' ht (h.table? hw hfit ht')

theorem Modest.sameTables (h : Modest m m') (hw : m.heap.WellFormed)
    (hfit : m'.room ≤ Heap.slotLimit) : m.heap.SameTables m'.heap :=
  h.tabled (Heap.Remains.refl m.heap).records hw hfit

theorem Readies.sameTables {module : Option Handle} {h : Heap} (hr : Readies module h m m')
    (hremains : m₁.heap.Remains h) (hfit : m'.room ≤ Heap.slotLimit) :
    m₁.heap.SameTables m'.heap :=
  hr.modest.tabled (hremains.trans hr.loaded.remains).records hr.wellFormed hfit

/-! ## What instructions bind in tables -/

/-- The names that an instruction binds in the table of a module when it succeeds, in order. -/
inductive Enrols (m m' : Machine) (M : Handle) : Opcode → List (Handle × Value) → Prop
  | defined {op : Opcode} {name : Handle} {v : Value} : op = .defineGlobal ∨ op = .exportGlobal →
      Names m (some M) name v → Enrols m m' M op [(name, v)]
  | assigned {name : Handle} {v : Value} {t : Members} : Names m (some M) name v →
      m.heap.table? M = some t → t.contains name → Enrols m m' M .setGlobal [(name, v)]
  | completed {N name : Handle} : Completes m N → m.heap.module N = .ok (name, some M) →
      Enrols m m' M .ret [(name, .ofHandle N)]
  | native {op : Opcode} {name : Handle} {f : Frame} {native : NativeModule}
      {bs : List (Handle × Value)} : Imports m op name none →
      m.library.find? (m.nameText name) = some native → m.frame? = some f → f.scope = some M →
      Provides m'.heap native bs → Enrols m m' M op bs
  | aliased {op : Opcode} {N name as : Handle} {f : Frame} {native : NativeModule} :
      Imports m op name (some as) → m.library.find? (m.nameText name) = some native →
      m.frame? = some f → f.scope = some M → m'.modules.find? as = some (.ofHandle N) → M ≠ N →
      Enrols m m' M op [(as, .ofHandle N)]
  | filled {op : Opcode} {name as : Handle} {f : Frame} {native : NativeModule}
      {bs : List (Handle × Value)} : Imports m op name (some as) →
      m.library.find? (m.nameText name) = some native → m.frame? = some f →
      m.modules.find? as = some (.ofHandle M) → Provides m'.heap native bs →
      Enrols m m' M op (Heap.within f.scope [(as, .ofHandle M)] M ++ bs)

/-- The tables of all modules, across an instruction. -/
def Accounts (m m' : Machine) (op : Opcode) : Prop :=
  ∃ ws, m.heap.Tabled ws m'.heap ∧
    ∀ M t, m.heap.table? M = some t → ws M = [] ∨ Enrols m m' M op (ws M)

theorem accounts_of_sameTables (h : m.heap.SameTables m'.heap) : Accounts m m' op :=
  ⟨fun _ => [], h, fun _ _ _ => .inl rfl⟩

theorem accounts_popGlobal (exports : Bool) (hop : op = .defineGlobal ∨ op = .exportGlobal)
    (h : popGlobal exports m = .ok u m') : Accounts m m' op := by
  obtain ⟨scope, name, v, hnames, hdeclares⟩ := popGlobal_eq_ok h
  refine ⟨_, hdeclares.records.tabled, fun M t _ => Heap.within_eq_nil_or fun hscope => ?_⟩
  exact .defined hop (hscope ▸ hnames)

theorem accounts_setGlobal (h : setGlobal m = .ok u m') : Accounts m m' .setGlobal := by
  obtain ⟨f, name, v, hnames, ⟨N, o, hN, ho, hmember, hdefine⟩ | ⟨-, -, hdefine⟩⟩ := setGlobal_eq_ok h
  · refine ⟨_, (define_eq_ok hdefine).records.tabled, fun M t ht =>
      Heap.within_eq_nil_or fun hscope => ?_⟩
    cases hscope
    obtain ⟨o', ho', -, rfl⟩ := Heap.table?_eq_some.mp ht
    cases ho.symm.trans ho'
    exact .assigned (hN ▸ hnames) ht hmember
  · exact ⟨_, (define_eq_ok hdefine).records.tabled, fun _ _ _ => .inl rfl⟩

theorem accounts_ret (hw : m.heap.WellFormed) (h : returnFromCall m = .ok u m')
    (hfit : m'.room ≤ Heap.slotLimit) : Accounts m m' .ret := by
  obtain ⟨t, ht, hreturns⟩ := returns_of_ok h
  cases hreturns with
  | on _ _ _ _ _ hm =>
    subst hm
    exact accounts_of_sameTables (Heap.Remains.refl m.heap).sameTables
  | @ends f _ below hframes _ hfinish =>
    obtain ⟨t', ht', ⟨N, m₁, hrole, hcomplete, hdepart⟩ | ⟨-, hdepart⟩⟩ := finish_cases hfinish
    · cases ht'
      obtain ⟨name, importer, hmodule, hrecords, -⟩ := completeModule_binds hcomplete
      have hmodest : Modest m₁ m' := after_ok hdepart ▸ modest_after (depart _) m₁
      have hcarries := after_ok hcomplete ▸ carries_after (completeModule N) _
      have hw₁ := hcarries.wellFormed hw (hmodest.room_le.trans hfit)
      refine ⟨_, hmodest.tabled hrecords hw₁ hfit, fun M s _ =>
        Heap.within_eq_nil_or fun himporter => ?_⟩
      exact .completed ⟨t, f, ht, hframes, hrole⟩ (himporter ▸ hmodule)
    · cases ht'
      have hmodest := after_ok hdepart ▸ modest_after (depart _) _
      exact accounts_of_sameTables (hmodest.sameTables hw hfit)

/-! ## Imports -/

theorem sameTables_launch {key : Handle} {code : Prototype} {importer : Option Handle}
    (hw : m.heap.WellFormed) (h : launch key code importer m = .ok u m')
    (hfit : m'.room ≤ Heap.slotLimit) : m.heap.SameTables m'.heap := by
  have hafter := after_ok h
  subst hafter
  obtain ⟨h₁, N, m₁, hnew, hready⟩ := readies_launch hw hfit
  exact hready.sameTables (fun _ _ ho => hnew.get?_of_get? ho) hfit

theorem sameTables_start {p : Prototype} (hw : m.heap.WellFormed)
    (hfit : (after (start p) m).room ≤ Heap.slotLimit) :
    m.heap.SameTables (after (start p) m).heap := by
  obtain ⟨m₁, hready⟩ := readies_start hw hfit
  exact hready.sameTables (.refl m.heap) hfit

theorem sameTables_importFile {text : String} {key : Handle} (hw : m.heap.WellFormed)
    (h : importFile text key m = .ok u m') (hfit : m'.room ≤ Heap.slotLimit) :
    m.heap.SameTables m'.heap := by
  obtain ⟨rfl, -⟩ | ⟨m₁, code, hb, -, -, hstart⟩ := importFile_cases h
  · exact (Heap.Remains.refl _).sameTables
  · obtain ⟨importer, m₀, hscope, hlaunch⟩ := bind_eq_ok hstart
    obtain ⟨rfl, -⟩ := scope_eq_ok hscope
    rw [← hb.works.heap] at hw ⊢
    exact sameTables_launch hw hlaunch hfit

theorem accounts_importModule (hw : m.heap.WellFormed) (hs : m.Stocked) {k : Nat}
    {as : Option Handle} (hi : Imports m op name as)
    (h : importModule name as (m.skip k) = .ok u m') (hfit : m'.room ≤ Heap.slotLimit) :
    Accounts m m' op := by
  obtain ⟨-, hfile⟩ | ⟨native, f, hlib, hf, hg, hnative⟩ := importModule_cases h
  · exact accounts_of_sameTables (sameTables_importFile (m := m.skip k) hw hfile hfit)
  · have hb := beside_skip k m
    obtain ⟨rfl, bs, hbs, hdeclares⟩ | ⟨as, N, m₁, bs, rfl, hfound, hfind, hbs, hdeclares, hfilled⟩ :=
      importNative_eq_ok (m := m.skip k) hw (hb.stocked hs) hg hnative hfit
    · refine ⟨_, hdeclares.records.tabled, fun M t _ => Heap.within_eq_nil_or fun hscope => ?_⟩
      exact .native hi hlib hf hscope hbs
    · refine ⟨_, (hdeclares.records.trans hfilled.records).tabled, fun M t ht => ?_⟩
      by_cases hM : M = N
      · subst hM
        have hfind₀ := hfound.resolve_right (not_not_intro (Heap.isLive_of_table? ht))
        have hsame : Heap.within (some M) bs M = bs := if_pos rfl
        rw [hsame]
        exact .inr (Enrols.filled (f := f) hi hlib hf hfind₀ hbs)
      · have hnil : Heap.within (some N) bs M = [] := if_neg fun h => hM (Option.some.inj h).symm
        simp only [hnil, List.append_nil]
        refine Heap.within_eq_nil_or fun hscope => ?_
        exact .aliased hi hlib hf hscope hfind hM

/-! ## All instructions -/

variable {host : HostFunctions}

theorem accounts_execute [hm : ∀ id args, Makes Modest (host.call id args)]
    (hw : m.heap.WellFormed) (hs : m.Stocked)
    (h : execute host op m = .ok u m') (hfit : m'.room ≤ Heap.slotLimit) : Accounts m m' op := by
  by_cases himport : op ≠ .importModule ∧ op ≠ .importModuleAs
  · by_cases hret : op = .ret
    · subst hret
      exact accounts_ret hw h hfit
    · by_cases hbinds : op.binds
      · cases op with
        | defineGlobal => exact accounts_popGlobal false (.inl rfl) h
        | exportGlobal => exact accounts_popGlobal true (.inr rfl) h
        | setGlobal => exact accounts_setGlobal h
        | _ => cases hbinds
      · have hmakes : Makes Modest (execute host op) := modest_execute hbinds hret himport
        have hmodest := after_ok h ▸ @modest_after _ _ hmakes m
        exact accounts_of_sameTables (hmodest.sameTables hw hfit)
  · rw [not_and_or, not_not, not_not] at himport
    have himports : imports op m = .ok u m' := by rcases himport with rfl | rfl <;> exact h
    obtain ⟨name, as, k, hi, himport⟩ := imports_eq_ok himports
    exact accounts_importModule hw hs hi himport hfit

/-! ## Calls of the host -/

/-- No module but one is new or has changed. -/
structure Spares (r : Handle) (m m' : Machine) : Prop extends Tends m m' where
  others : m.heap.WellFormed → m'.room ≤ Heap.slotLimit →
    ∀ M o, M ≠ r → m'.heap.get? M = some o → o.kind = .module → m.heap.get? M = some o

theorem Modest.spares (r : Handle) (h : Modest m m') : Spares r m m' where
  toTends := h.toTends
  others hw hfit M o _ := h.modules hw hfit M o

theorem Spares.trans {r : Handle} (h : Spares r m m₁) (h' : Spares r m₁ m') : Spares r m m' where
  toTends := h.toTends.trans h'.toTends
  others hw hfit M o hM ho hk := by
    have hfit₁ := h'.room_le.trans hfit
    exact h.others hw hfit₁ M o hM (h'.others (h.wellFormed hw hfit₁) hfit M o hM ho hk) hk

instance (r : Handle) : IsPreorder Machine (Spares r) where
  refl m := (Modest.refl m).spares r
  trans _ _ _ := .trans

instance (priority := low) (r : Handle) (x : Act α) [hx : Makes Modest x] : Makes (Spares r) x :=
  hx.mono fun _ _ h => h.spares r

instance (r name : Handle) (v : Value) : Makes (Spares r) (define (some r) name v) := by
  refine .single fun m => ⟨tends_after _ m, fun _ _ M o hM ho _ => ?_⟩
  change (after (change r (Heap.insertMember name v)) m).heap.get? M = some o at ho
  by_cases hr : m.heap.isLive r
  · rw [after_ok ((change_apply r _ m).trans (if_pos hr))] at ho
    simpa only [Heap.get?_update, if_neg hM] using ho
  · rw [after_error ((change_apply r _ m).trans (if_neg hr))] at ho
    exact ho

instance (r : Handle) (ns : List Native) : Makes (Spares r) (defineFunctions (some r) ns) := by
  induction ns with
  | nil => exact .pure ()
  | cons n rest ih =>
    unfold defineFunctions
    exact .parts

theorem sameTables_addClass (name : String) (methods : List Native) (hw : m.heap.WellFormed)
    (hfit : (after (addClass name methods) m).room ≤ Heap.slotLimit) :
    m.heap.SameTables (after (addClass name methods) m).heap := by
  let h₁ := (m.heap.intern name).1
  let key := (m.heap.intern name).2
  let cls := (h₁.alloc (.classObject key)).2
  let m₂ : Machine := { m with heap := (h₁.alloc (.classObject key)).1 }
  let rest : Act Handle := do
    define none key (.ofHandle cls)
    defineFunctions (some cls) methods
    return cls
  have hafter : after (addClass name methods) m = after rest m₂ := rfl
  have hmakes : Makes (Spares cls) rest := .parts
  have hspares := hmakes.preorder m₂
  rw [hafter] at hfit ⊢
  have hfit₂ : m₂.room ≤ Heap.slotLimit := hspares.room_le.trans hfit
  have hfit₁ : h₁.slots.size ≤ Heap.slotLimit := Nat.le_trans (Heap.size_le_alloc ..) hfit₂
  have hw₁ : h₁.WellFormed := hw.intern hfit₁
  have hw₂ : m₂.heap.WellFormed := hw₁.alloc (by simp) hfit₂
  have hnew := Heap.alloc_allocated hw₁.toArena (.classObject key) hfit₂
  have hinterned := Heap.Remains.intern hw.toArena name hfit₁
  intro M t t' ht ht'
  obtain ⟨o, ho, hk, rfl⟩ := Heap.table?_eq_some.mp ht
  obtain ⟨o', ho', hk', rfl⟩ := Heap.table?_eq_some.mp ht'
  have ho₁ := hinterned M o ho
  -- the class is new, so it is not the module
  have hM : M ≠ cls := fun h => by
    rw [h] at ho₁
    cases hnew.fresh.symm.trans ho₁
  have ho₂ := hspares.others hw₂ hfit M o' hM ho' hk'
  cases (hnew.get?_of_get? ho₁).symm.trans ho₂
  rfl

theorem HostCall.sameTables (h : HostCall m m') (hw : m.heap.WellFormed)
    (hfit : m'.room ≤ Heap.slotLimit) : m.heap.SameTables m'.heap := by
  cases h with
  | collect => exact (modest_collected m).sameTables hw hfit
  | addModule | withHost | advance | post => exact (Heap.Remains.refl m.heap).sameTables
  | addClass name methods => exact sameTables_addClass name methods hw hfit
  | _ => exact (modest_after _ m).sameTables hw hfit

/-! ## Histories -/

section

variable {G : Members → Members → Prop} (hh : host.WellBehaved G)
include hh

variable [hm : ∀ id args, Makes Modest (host.call id args)]

theorem Managed.sameTables_breaks (hmanaged : Managed host m) (h : Breaks host m m')
    (hfit : m'.room ≤ Heap.slotLimit) : m.heap.SameTables m'.heap := by
  have hw := hmanaged.wellFormed
  cases h with
  | start _ h =>
    have hafter := after_error h
    subst hafter
    exact sameTables_start hw hfit
  | safePoint h =>
    have hmodest : Modest m m' := after_error h ▸ modest_after Machine.safePoint m
    exact hmodest.sameTables hw hfit
  | instruction h =>
    obtain ⟨m₀, hs, ht, hends⟩ := hmanaged.fails_instruction hh h hfit
    have hremains := hs.heap.remains
    obtain rfl | ⟨_, _, hcall⟩ := hends
    · exact hremains.sameTables
    · -- a function of the host binds nothing in a table before it fails
      have hmodest := after_error hcall ▸ modest_after (host.call _ _) m₀
      exact hmodest.tabled hremains.records (ht.wellFormed hw (hmodest.room_le.trans hfit)) hfit

/-- The table of a module changes with instructions only. -/
theorem Managed.accounts (hmanaged : Managed host m) (h : Happens host m m')
    (hfit : m'.room ≤ Heap.slotLimit) :
    m.heap.SameTables m'.heap ∨ instruction host m = .ok () m' ∧
      ∃ f op, m.frame? = some f ∧ f.opcode? = some op ∧ Accounts (m.skip 1) m' op := by
  have hw := hmanaged.wellFormed
  cases h with
  | hostCall _ h => exact .inl (h.sameTables hw hfit)
  | start _ h =>
    have hafter := after_ok h
    subst hafter
    exact .inl (sameTables_start hw hfit)
  | @fault m₁ h =>
    have htabled : m.heap.SameTables m₁.heap := hmanaged.sameTables_breaks hh h hfit
    exact .inl htabled
  | step h =>
    cases h with
    | safePoint h =>
      have hmodest : Modest m m' := after_ok h ▸ modest_after Machine.safePoint m
      exact .inl (hmodest.sameTables hw hfit)
    | instruction h =>
      obtain ⟨f, op, hf, hop, hexecute⟩ := instruction_eq_ok h
      have hb := beside_skip 1 m
      have hs := hb.stocked hmanaged.stocked
      exact .inr ⟨h, f, op, hf, hop, accounts_execute (m := m.skip 1) hw hs hexecute hfit⟩
    | outside h => exact .inl (h.hostCall.sameTables hw hfit)

theorem Managed.enrols (hmanaged : Managed host m) (h : Happens host m m')
    (hfit : m'.room ≤ Heap.slotLimit) {t t' : Members} (ht : m.heap.table? M = some t)
    (ht' : m'.heap.table? M = some t') : t' = t ∨ instruction host m = .ok () m' ∧
      ∃ f op bs, m.frame? = some f ∧ f.opcode? = some op ∧ Enrols (m.skip 1) m' M op bs ∧
        t' = t.insertAll bs := by
  rcases hmanaged.accounts hh h hfit with hsame | ⟨hinst, f, op, hf, hop, ws, htabled, hws⟩
  · exact .inl (hsame M t t' ht ht')
  · have hbound := htabled M t t' ht ht'
    rcases hws M t ht with hnil | henrols
    · rw [hnil] at hbound
      exact .inl hbound
    · exact .inr ⟨hinst, f, op, _, hf, hop, henrols, hbound⟩

end

/-! ## Code of other modules -/

theorem scope_of_skip {f g : Frame} {k : Nat} (hf : m.frame? = some f)
    (hg : (m.skip k).frame? = some g) : g.scope = f.scope := by
  rw [frame?_skip, hf] at hg
  cases hg
  rfl

theorem Names.scope_of_skip {scope : Option Handle} {v : Value} {f : Frame} {k : Nat}
    (hn : Names (m.skip k) scope name v) (hf : m.frame? = some f) : f.scope = scope := by
  obtain ⟨g, hg, rfl⟩ := hn.scope
  exact (Machine.scope_of_skip hf hg).symm

/-- What code that is not of a module binds in its table: a module that ends under its name, or
a native module that is imported under an alias that the module stands under. -/
inductive Foreign (m m' : Machine) (M : Handle) : Opcode → List (Handle × Value) → Prop
  | completed {N name : Handle} : Completes m N → m.heap.module N = .ok (name, some M) →
      Foreign m m' M .ret [(name, .ofHandle N)]
  | filled {name as : Handle} {native : NativeModule} {bs : List (Handle × Value)} :
      Imports m .importModuleAs name (some as) →
      m.library.find? (m.nameText name) = some native →
      m.modules.find? as = some (.ofHandle M) → Provides m'.heap native bs →
      Foreign m m' M .importModuleAs bs

theorem Enrols.foreign {bs : List (Handle × Value)} {f : Frame} (he : Enrols (m.skip 1) m' M op bs)
    (hf : m.frame? = some f) (hM : f.scope ≠ some M) : Foreign (m.skip 1) m' M op bs := by
  cases he with
  | defined _ hnames => exact absurd (hnames.scope_of_skip hf) hM
  | assigned hnames _ _ => exact absurd (hnames.scope_of_skip hf) hM
  | completed hc hmodule => exact .completed hc hmodule
  | native _ _ hg hscope _ => exact absurd ((scope_of_skip hf hg).symm.trans hscope) hM
  | aliased _ _ hg hscope _ _ => exact absurd ((scope_of_skip hf hg).symm.trans hscope) hM
  | @filled _ name as g native bs hi hlib hg hfind hbs =>
    have hnil : Heap.within g.scope [(as, .ofHandle M)] M = [] :=
      if_neg fun h => hM ((scope_of_skip hf hg).symm.trans h)
    rw [hnil, List.nil_append]
    cases hi with
    | under hname has => exact .filled (.under hname has) hlib hfind hbs

/-- What code of a module binds among the globals: a global that the module does not define is
assigned to, or a module that ends stands under its name. What a native function of the host
does is given. -/
inductive Shares (G : Members → Members → Prop) (m : Machine) (M : Handle) :
    Opcode → List (Handle × Value) → Prop
  | assigned {name : Handle} {v : Value} : Names m (some M) name v → m.globals.contains name →
      (∀ t, m.heap.table? M = some t → ¬ t.contains name) → Shares G m M .setGlobal [(name, v)]
  | completed {N name : Handle} {importer : Option Handle} : Completes m N →
      m.heap.module N = .ok (name, importer) → Shares G m M .ret [(name, .ofHandle N)]
  | called {op : Opcode} {bs : List (Handle × Value)} : op = .call ∨ op = .invoke →
      G m.globals (m.globals.insertAll bs) → Shares G m M op bs

theorem Writes.shares {G : Members → Members → Prop} {bs : List (Handle × Value)} {f : Frame}
    (hw : Writes G (m.skip 1) m' op bs) (hf : m.frame? = some f) (hM : f.scope = some M) :
    bs = [] ∨ Shares G (m.skip 1) M op bs := by
  match hw with
  | .inModule .. | .member .. | .returned .. | .file .. | .scoped .. | .other .. => exact .inl rfl
  | .defined _ hnames => cases hM.symm.trans (hnames.scope_of_skip hf)
  | .assigned hnames hmember hglobal =>
    cases hM.symm.trans (hnames.scope_of_skip hf)
    refine .inr (.assigned hnames hglobal fun t ht => ?_)
    obtain ⟨o, ho, -, rfl⟩ := Heap.table?_eq_some.mp ht
    exact hmember M rfl o ho
  | .completed hc hmodule => exact .inr (.completed hc hmodule)
  | .native _ _ hg hscope _ => cases hM.symm.trans ((scope_of_skip hf hg).symm.trans hscope)
  | .alias _ _ hg hscope _ => cases hM.symm.trans ((scope_of_skip hf hg).symm.trans hscope)
  | .called hop hG => exact .inr (.called hop hG)

/-- Who changes the table of a module and what the code of a module changes, through all the
programs that one machine runs and as long as the slots of the heap can be told apart. -/
structure IsolationGuarantees (host : HostFunctions) (G : Members → Members → Prop) : Prop where
  tables : ∀ {m m' M t t'}, Grown host m → Happens host m m' → m'.room ≤ Heap.slotLimit →
    m.heap.table? M = some t → m'.heap.table? M = some t' →
    t' = t ∨ instruction host m = .ok () m' ∧ ∃ f op bs, m.frame? = some f ∧
      f.opcode? = some op ∧ Enrols (m.skip 1) m' M op bs ∧ t' = t.insertAll bs
  foreign : ∀ {m m' f M t t'}, Grown host m → instruction host m = .ok () m' →
    m'.room ≤ Heap.slotLimit → m.frame? = some f → f.scope ≠ some M →
    m.heap.table? M = some t → m'.heap.table? M = some t' →
    t' = t ∨ ∃ op bs, f.opcode? = some op ∧ Foreign (m.skip 1) m' M op bs ∧ t' = t.insertAll bs
  globals : ∀ {m m' f M}, Grown host m → instruction host m = .ok () m' →
    m'.room ≤ Heap.slotLimit → m.frame? = some f → f.scope = some M →
    m'.globals = m.globals ∨ ∃ op bs, f.opcode? = some op ∧ Shares G (m.skip 1) M op bs ∧
      m'.globals = m.globals.insertAll bs
  stamped : ∀ {m}, Grown host m → m.room ≤ Heap.slotLimit → m.Stamped
  loaded : ∀ {m m' r fn}, Grown host m → Happens host m m' → m'.room ≤ Heap.slotLimit →
    m'.heap.function r = .ok fn → m.heap.function r = .ok fn ∨
      ¬ m.heap.isLive r ∧ ∀ M ∈ fn.module, ¬ m.heap.isLive M
  imported : ∀ {m M name importer}, Grown host m → m.room ≤ Heap.slotLimit →
    m.heap.module M = .ok (name, importer) → ∃ m₁ m₂, Grown host m₁ ∧ m₁.Importing ∧
      m₁.scope? = some importer ∧ Happens host m₁ m₂ ∧
      m₁.heap.module M ≠ .ok (name, importer) ∧ m₂.heap.module M = .ok (name, importer) ∧
      ReflTransGen (fun n n' => Happens host n n' ∧ n'.heap.module M = .ok (name, importer)) m₂ m

theorem isolationGuarantees {G : Members → Members → Prop} [IsPreorder Members G]
    (hh : host.WellBehaved G) (hG : ∀ g g', G g g' → Inserted g g')
    (hm : ∀ id args, Makes Modest (host.call id args)) : IsolationGuarantees host G where
  tables hg h hfit ht ht' := (hg.managed hh ((h.room_le hh).trans hfit)).enrols hh h hfit ht ht'
  foreign {m m' f M t t'} hg h hfit hf hM ht ht' := by
    have hstep : Happens host m m' := .step (.instruction h)
    have hmanaged := hg.managed hh ((hstep.room_le hh).trans hfit)
    rcases hmanaged.enrols hh hstep hfit ht ht' with hsame | ⟨-, g, op, bs, hg, hop, he, hbound⟩
    · exact .inl hsame
    · cases hf.symm.trans hg
      exact .inr ⟨op, bs, hop, he.foreign hf hM, hbound⟩
  globals {m m' f M} hg h hfit hf hM := by
    have hstep : Happens host m m' := .step (.instruction h)
    have hmanaged := hg.managed hh ((hstep.room_le hh).trans hfit)
    have := hh.keeps
    obtain ⟨bs, ⟨g, op, hg, hop, hwrites⟩, hbound⟩ :=
      defines_instruction hG hmanaged.wellFormed hmanaged.stocked h hfit
    cases hf.symm.trans hg
    rcases hwrites.shares hf hM with rfl | hshares
    · exact .inl hbound
    · exact .inr ⟨op, bs, hop, hshares, hbound⟩
  stamped hg hfit := hg.stamped hh hm hfit
  loaded {m m' r fn} hg h hfit hf := by
    have hw := (hg.managed hh ((h.room_le hh).trans hfit)).wellFormed
    exact (h.supplied hm).functions hw hfit r fn hf
  imported hg hfit hid := hg.imported hh hm hfit hid

theorem modest_probe (id : Nat) (args : List Value) : Makes Modest (Probe.host.call id args) := by
  simp only [Probe.host]
  split
  · unfold Probe.run Probe.addToField Probe.bumpBox
    exact .parts
  · exact .throw _

/-- The code of a module that defines a global. -/
def parsing : Prototype where
  name := "one"
  arity := 0
  isAsync := false
  code := #[Opcode.pushTrue.toByte, Opcode.defineGlobal.toByte, 0, 0, Opcode.pushNil.toByte,
    Opcode.ret.toByte]
  constants := [.text "parse"]
  lines := #[]

/-- A program that imports the module, and a native module under its name. -/
def intruding : Prototype where
  name := "script"
  arity := 0
  isAsync := false
  code := #[Opcode.importModule.toByte, 0, 0, Opcode.importModuleAs.toByte, 0, 1, 0, 0,
    Opcode.pushNil.toByte, Opcode.ret.toByte]
  constants := [.text "one", .text "std:json"]
  lines := #[]

def intruding₀ : Machine := after (start intruding) (withCode [("one.ember", parsing)])

/-- The machine in which the module is done and the second import comes next. -/
def intruding₁ : Machine := after (run Probe.host 5) intruding₀

def intruding₂ : Machine := after (instruction Probe.host) intruding₁

/-- An import of a native module binds a name in the module of a file, in a call that is not for
the module. -/
theorem isolationGuarantees_probe : IsolationGuarantees Probe.host Eq ∧
    ∃ one M parse t t' op bs, Grown Probe.host intruding₁ ∧
      instruction Probe.host intruding₁ = .ok () intruding₂ ∧ intruding₂.room ≤ Heap.slotLimit ∧
      intruding₁.scope? = some none ∧ intruding₁.heap.findText? "one" = some one ∧
      intruding₁.importedModule one = some M ∧ intruding₁.heap.findText? "parse" = some parse ∧
      intruding₁.heap.table? M = some t ∧ intruding₂.heap.table? M = some t' ∧
      t.find? parse = some (.ofBool true) ∧ t'.find? parse ≠ some (.ofBool true) ∧
      Foreign (intruding₁.skip 1) intruding₂ M op bs ∧ t' = t.insertAll bs := by
  have hisolates : IsolationGuarantees Probe.host Eq :=
    isolationGuarantees wellBehaved_probe (fun _ _ h => h ▸ .refl) modest_probe
  obtain ⟨hstart, hrun, himport, hfit, hscope, hchanges⟩ :
      yields (start intruding) () (withCode [("one.ember", parsing)]) = true ∧
      yields (run Probe.host 5) false intruding₀ = true ∧
      yields (instruction Probe.host) () intruding₁ = true ∧
      intruding₂.room ≤ Heap.slotLimit ∧ intruding₁.scope? = some none ∧
      ∃ one ∈ intruding₁.heap.findText? "one", ∃ M ∈ intruding₁.importedModule one,
        ∃ parse ∈ intruding₁.heap.findText? "parse",
        (∃ t ∈ intruding₁.heap.table? M, t.find? parse = some (.ofBool true)) ∧
        ∃ t' ∈ intruding₂.heap.table? M, t'.find? parse ≠ some (.ofBool true) := by decide +kernel
  obtain ⟨one, hone, M, hM, parse, hparse, ⟨t, ht, htrue⟩, t', ht', hother⟩ := hchanges
  have himport : instruction Probe.host intruding₁ = .ok () intruding₂ := eq_ok_of_yields himport
  have hhappens : Happens Probe.host (withCode [("one.ember", parsing)]) intruding₀ :=
    .start (vacant_withCode _) (eq_ok_of_yields hstart)
  have hsteps : ReflTransGen (Happens Probe.host) intruding₀ intruding₁ :=
    happens_of_steps (steps_of_proceeds (proceeds_of_run (eq_ok_of_yields hrun)))
  have hg := (grown_withCode _).happens (.head hhappens hsteps)
  obtain ⟨f, hf, hnone⟩ := Option.map_eq_some_iff.mp hscope
  rcases hisolates.foreign hg himport hfit hf (by simp [hnone]) ht ht' with
    hsame | ⟨op, bs, -, hforeign, hbound⟩
  · exact absurd (hsame ▸ htrue) hother
  · exact ⟨hisolates, one, M, parse, t, t', op, bs, hg, himport, hfit, hscope, hone, hM, hparse,
      ht, ht', htrue, hother, hforeign, hbound⟩

end Machine

end FiberMachine
