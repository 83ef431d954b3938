import FiberMachine.Proofs.Machine.Definitions
import FiberMachine.Proofs.Machine.Histories
import FiberMachine.Proofs.Machine.Preemption

/-!
# The table of modules through a history

A module comes into the table when the name that an import binds is free there: an import of
a file begins to run its code, and an import of a native module under an alias makes an object
for it. While the name is taken an import of a file does nothing, whatever took it. An entry
stays until a fault strikes while its module loads, so the code of a module begins once under
each name, and again only after such a fault.
-/

namespace FiberMachine

open Relation (ReflTransGen)

namespace Machine

variable {host : HostFunctions} {m m₁ m₂ m₃ m₄ m' : Machine} {row : List Handle}
  {name key M r : Handle} {as : Option Handle} {op : Opcode} {u : Unit}

/-- The next instruction imports the module with a name, under another one if there is an
alias. -/
inductive Asks (m : Machine) (name : Handle) (as : Option Handle) : Prop
  | mk {f : Frame} {op : Opcode} : m.frame? = some f → f.opcode? = some op →
      Imports (m.skip 1) op name as → Asks m name as

/-- The next instruction imports the file of a module with a name, and binds a key. -/
structure AsksFile (m : Machine) (name key : Handle) : Prop where
  asks : ∃ as : Option Handle, Asks m name as ∧ as.getD name = key
  file : m.library.find? (m.nameText name) = none

/-- A module comes into the table under a key that is free: it is loaded from the file that is
imported, or it is for the native module that is imported under the key. -/
inductive Enters (m m' : Machine) (key M : Handle) : Prop
  | file {name r : Handle} {code : Prototype} : AsksFile m name key →
      m.modules.find? key = none → m.Source (m.nameText name) code →
      Launched key code r M m m' → Enters m m' key M
  | native {name : Handle} {native : NativeModule} : Asks m name (some key) →
      m.library.find? (m.nameText name) = some native → m.modules.find? key = none →
      ¬ m.heap.isLive M → m'.loading = m.loading → Enters m m' key M

/-! ## Imports -/

theorem Loads.behind (hb : Beside m m₁) (h : Loads r M m₁ m') : Loads r M m m' :=
  { h with
    fresh := hb.works.heap ▸ h.fresh
    new := by simpa only [IsFiber, hb.works.heap] using h.new }

theorem Launched.behind {code : Prototype} (hb : Beside m m₁) (h : Launched key code r M m₁ m') :
    Launched key code r M m m' :=
  ⟨h.loads.behind hb, hb.keeps.modules ▸ h.modules, hb.keeps.loading ▸ h.loading, h.frames⟩

/-- A file is loaded if nothing stands under its key, and else the import does nothing. -/
theorem Nested.importFile_cases (hn : Nested row m) (hs : m.Stocked) {text : String}
    (h : importFile text key m = .ok u m') (hfit : m'.room ≤ Heap.slotLimit) :
    m' = m ∧ m.modules.contains key ∨ m.modules.find? key = none ∧
      ∃ code r M, m.Source text code ∧ Launched key code r M m m' := by
  obtain hold | ⟨m₁, code, hb, hkey, hsource, hstart⟩ := Machine.importFile_cases h
  · exact .inl hold
  · obtain ⟨importer, m₀, hscope, hlaunch⟩ := bind_eq_ok hstart
    obtain rfl := unchanged_of_ok hscope
    obtain ⟨-, r, M, hl⟩ :=
      (hb.nested hn).launched (hb.stocked hs) (hb.keeps.modules ▸ hkey) hlaunch hfit
    exact .inr ⟨hkey, code, r, M, hsource, hl.behind hb⟩

/-- A native module gets an object under an alias that is free. -/
theorem Stocked.aliasModule_cases (hs : m.Stocked) (hw : m.heap.WellFormed)
    {importer : Option Handle} (h : Machine.aliasModule name importer m = .ok M m')
    (hfit : m'.room ≤ Heap.slotLimit) : m'.modules = m.modules ∨ m.modules.find? name = none ∧
      ∃ N, ¬ m.heap.isLive N ∧ m'.modules = m.modules.insert name (.ofHandle N) := by
  have hdefine : ∀ M, Makes (Keeps Whatever) (do
      define importer name (.ofHandle M)
      return M : Act Handle) := fun _ => .parts
  obtain ⟨_, _, hget, hchosen⟩ := bind_eq_ok h
  cases hget
  cases hi : m.importedModule name with
  | some N =>
    simp only [hi] at hchosen
    exact .inl (after_ok hchosen ▸ @keeps_after _ Whatever _ _ (hdefine N) m).modules
  | none =>
    simp only [hi] at hchosen
    obtain ⟨N, m₁, hnew, hdefined⟩ := bind_eq_ok hchosen
    have hk := after_ok hdefined ▸ @keeps_after _ Whatever _ _ (hdefine N) m₁
    have hshelf := shelved_newModule hw hnew (hk.room_le.trans hfit)
    exact .inr ⟨hs.importedModule_eq_none hi, N, hshelf.fresh, hk.modules.trans hshelf.modules⟩

theorem Stocked.importNative_cases (hs : m.Stocked) (hw : m.heap.WellFormed)
    {native : NativeModule} (h : Machine.importNative native as m = .ok u m')
    (hfit : m'.room ≤ Heap.slotLimit) : m'.modules = m.modules ∨
      ∃ key N, as = some key ∧ m.modules.find? key = none ∧ ¬ m.heap.isLive N ∧
        m'.modules = m.modules.insert key (.ofHandle N) := by
  have hdefine : ∀ target, Makes (Keeps Whatever) (do
      defineFunctions target native.functions
      defineNumbers target native.constants : Act Unit) := fun _ => .parts
  obtain ⟨importer, m₀, hscope, htargeted⟩ := bind_eq_ok h
  obtain rfl := unchanged_of_ok hscope
  cases as with
  | none =>
    obtain ⟨target, m₁, htarget, hdefined⟩ := bind_eq_ok htargeted
    cases htarget
    exact .inl (after_ok hdefined ▸ @keeps_after _ Whatever _ _ (hdefine importer) m₀).modules
  | some key =>
    obtain ⟨target, m₁, htarget, hdefined⟩ := bind_eq_ok htargeted
    obtain ⟨M, halias, -⟩ := map_eq_ok htarget
    have hk := after_ok hdefined ▸ @keeps_after _ Whatever _ _ (hdefine target) m₁
    rcases hs.aliasModule_cases hw halias (hk.room_le.trans hfit) with
      hsame | ⟨hfree, N, hfresh, hnew⟩
    · exact .inl (hk.modules.trans hsame)
    · exact .inr ⟨key, N, rfl, hfree, hfresh, hk.modules.trans hnew⟩

theorem Imports.unique {name' : Handle} {as' : Option Handle} (h : Imports m op name as)
    (h' : Imports m op name' as') : name' = name ∧ as' = as := by
  cases h with
  | plain hname =>
    cases h' with
    | plain hname' =>
      cases hname.symm.trans hname'
      exact ⟨rfl, rfl⟩
  | under hname has =>
    cases h' with
    | under hname' has' =>
      cases hname.symm.trans hname'
      cases has.symm.trans has'
      exact ⟨rfl, rfl⟩

theorem Imports.execute (hi : Imports m op name as) (host : HostFunctions) :
    execute host op = imports op := by
  cases hi <;> rfl

theorem Asks.importModule (ha : Asks m name as) (h : instruction host m = .ok u m') :
    ∃ k, Machine.importModule name as (m.skip k) = .ok u m' := by
  obtain ⟨hf, hop, hi⟩ := ha
  have himports := hi.execute host ▸ execute_of_instruction hf hop h
  obtain ⟨name', as', k, hi', himport⟩ := imports_eq_ok himports
  obtain ⟨rfl, rfl⟩ := hi.unique hi'
  exact ⟨_, skip_skip 1 k m ▸ himport⟩

/-! ### What comes next

Whether the next instruction imports a module can be read off a machine. -/

/-- The name that is read next. -/
def nextName? (m : Machine) : Option Handle :=
  match readName m with
  | .ok name _ => some name
  | .error _ _ => none

theorem readName_of_nextName? (h : m.nextName? = some name) :
    readName m = .ok name (m.skip 2) := by
  simp only [nextName?] at h
  cases hread : readName m with
  | ok r m' =>
    simp only [hread, Option.some.injEq] at h
    rw [h, readName_eq_ok hread]
  | error e m' => simp [hread] at h

/-- What the next instruction imports, and the alias for it. -/
def asked? (m : Machine) : Option (Handle × Option Handle) :=
  match m.frame?.bind Frame.opcode? with
  | some .importModule => (m.skip 1).nextName?.map fun name => (name, none)
  | some .importModuleAs => (m.skip 1).nextName?.bind fun name =>
    ((m.skip 1).skip 2).nextName?.map fun as => (name, some as)
  | _ => none

theorem asks_of_asked? (h : m.asked? = some (name, as)) : Asks m name as := by
  unfold asked? at h
  cases hop : m.frame?.bind Frame.opcode? with
  | none => simp [hop] at h
  | some op =>
    obtain ⟨f, hf, hop'⟩ := Option.bind_eq_some_iff.mp hop
    rw [hop] at h
    cases op with
    | importModule =>
      obtain ⟨r, hr, heq⟩ := Option.map_eq_some_iff.mp h
      cases heq
      exact .mk hf hop' (.plain (readName_of_nextName? hr))
    | importModuleAs =>
      obtain ⟨r, hr, h⟩ := Option.bind_eq_some_iff.mp h
      obtain ⟨s, hs, heq⟩ := Option.map_eq_some_iff.mp h
      cases heq
      have hs := readName_of_nextName? hs
      rw [skip_skip 2 2 (m.skip 1)] at hs
      exact .mk hf hop' (.under (readName_of_nextName? hr) hs)
    | _ => simp at h

/-- The name and the key of the file that the next instruction imports. -/
def askedFile? (m : Machine) : Option (Handle × Handle) :=
  m.asked?.bind fun (name, as) =>
    if (m.library.find? (m.nameText name)).isNone then some (name, as.getD name) else none

theorem asksFile_of_askedFile? (h : m.askedFile? = some (name, key)) : AsksFile m name key := by
  obtain ⟨⟨r, as⟩, hasks, h⟩ := Option.bind_eq_some_iff.mp h
  simp only [Option.ite_none_right_eq_some, Option.isNone_iff_eq_none, Option.some.injEq,
    Prod.mk.injEq] at h
  obtain ⟨hfile, rfl, rfl⟩ := h
  exact ⟨⟨as, asks_of_asked? hasks, rfl⟩, hfile⟩

/-- An import of a file that is not there yet, as far as it can be read off the machine. -/
def asksAnew (m : Machine) (text : String) : Bool :=
  m.askedFile?.any fun p => m.nameText p.1 = text && (m.modules.find? p.2).isNone

/-! ## Instructions -/

theorem modules_returnFromCall (h : returnFromCall m = .ok u m') : m'.modules = m.modules := by
  obtain ⟨t, ht, hreturns⟩ := returns_of_ok h
  cases hreturns with
  | on _ _ _ _ _ hm =>
    rw [hm]
    rfl
  | ends _ _ hfinish =>
    obtain ⟨t', -, ⟨M, m₁, -, hcomplete, hdepart⟩ | ⟨-, hdepart⟩⟩ := finish_cases hfinish
    · exact (after_ok hdepart ▸ handover_after (depart _) m₁).keeps.modules.trans
        (completeModule_eq_ok hcomplete).modules
    · exact (after_ok hdepart ▸ handover_after (depart _) _).keeps.modules

/-- An import of a file loads it if nothing stands under its key, and else only goes on. -/
theorem AsksFile.cases (ha : AsksFile m name key) (hn : Nested row m) (hs : m.Stocked)
    (h : instruction host m = .ok u m') (hfit : m'.room ≤ Heap.slotLimit) :
    (m.modules.contains key ∧ ∃ k, m' = m.skip k) ∨ m.modules.find? key = none ∧
      ∃ code r M, m.Source (m.nameText name) code ∧ Launched key code r M m m' := by
  obtain ⟨⟨as, hasks, rfl⟩, hfile⟩ := ha
  obtain ⟨k, himport⟩ := hasks.importModule h
  obtain ⟨_, _, hget, himport⟩ := bind_eq_ok himport
  cases hget
  have hlibrary : (m.skip k).library.find? ((m.skip k).nameText name) = none := hfile
  simp only [hlibrary] at himport
  have hb := beside_skip k m
  rcases (hb.nested hn).importFile_cases (hb.stocked hs) himport hfit with
    ⟨hm, htaken⟩ | ⟨hfree, code, r, M, hsource, hl⟩
  · exact .inl ⟨htaken, k, hm⟩
  · exact .inr ⟨hfree, code, r, M, hsource, hl.behind hb⟩

theorem Nested.modules_instruction (hk : ∀ id args, Makes (Keeps Whatever) (host.call id args))
    (hn : Nested row m) (hs : m.Stocked) (h : instruction host m = .ok u m')
    (hfit : m'.room ≤ Heap.slotLimit) : m'.modules = m.modules ∨
      ∃ key M, Enters m m' key M ∧ m'.modules = m.modules.insert key (.ofHandle M) := by
  obtain ⟨f, op, hf, hop, hexecute⟩ := instruction_eq_ok h
  by_cases hret : op = .ret
  · subst hret
    exact .inl (modules_returnFromCall (m := m.skip 1) hexecute)
  · by_cases himport : op ≠ .importModule ∧ op ≠ .importModuleAs
    · have hkeeps : Makes (Keeps Whatever) (execute host op) :=
        keeps_execute hret himport inferInstance
      exact .inl (after_ok hexecute ▸ @keeps_after _ Whatever _ _ hkeeps (m.skip 1)).modules
    · rw [not_and_or, not_not, not_not] at himport
      have himports : imports op (m.skip 1) = .ok () m' := by rcases himport with rfl | rfl <;> exact hexecute
      obtain ⟨name, as, k, hi, himported⟩ := imports_eq_ok himports
      have hasks : Asks m name as := ⟨hf, hop, hi⟩
      cases hlib : m.library.find? (m.nameText name) with
      | none =>
        have ha : AsksFile m name (as.getD name) := ⟨⟨as, hasks, rfl⟩, hlib⟩
        rcases ha.cases hn hs h hfit with ⟨-, k, rfl⟩ | ⟨hfree, code, r, M, hsource, hl⟩
        · exact .inl rfl
        · exact .inr ⟨_, M, .file ha hfree hsource hl, hl.modules⟩
      | some native =>
        obtain ⟨_, _, hget, hnative⟩ := bind_eq_ok himported
        cases hget
        have hlibrary : ((m.skip 1).skip k).library.find? (((m.skip 1).skip k).nameText name) =
          some native := hlib
        simp only [hlibrary] at hnative
        have hb := (beside_skip 1 m).trans (beside_skip k (m.skip 1))
        have hloading := ((hb.stocked hs).importNative hn.wellFormed hnative hfit).2
        rcases (hb.stocked hs).importNative_cases hn.wellFormed hnative hfit with
          hsame | ⟨key, M, rfl, hfree, hfresh, hnew⟩
        · exact .inl hsame
        · exact .inr ⟨key, M, .native hasks hlib hfree hfresh hloading, hnew⟩

/-! ## Histories -/

section

variable {G : Members → Members → Prop} (hh : host.WellBehaved G)
include hh

/-- An entry was in the table before, or an import brings it. -/
theorem Managed.entered (hm : Managed host m) (h : Happens host m m')
    (hfit : m'.room ≤ Heap.slotLimit) (he : m'.modules.find? key = some (.ofHandle M)) :
    m.modules.find? key = some (.ofHandle M) ∨
      instruction host m = .ok () m' ∧ Enters m m' key M := by
  cases h with
  | hostCall _ h => exact .inl (h.keeps.modules ▸ he)
  | start _ h => exact .inl ((after_ok h ▸ keeps_after Eq (Machine.start _) m).modules ▸ he)
  | fault h =>
    have hk := hm.breaks hh hh.whatever h hfit
    exact .inl (hk.modules ▸ (find?_reset.mp he).1)
  | step h =>
    cases h with
    | safePoint h =>
      exact .inl ((after_ok h ▸ handover_after Machine.safePoint m).keeps.modules ▸ he)
    | instruction h =>
      obtain ⟨own, row, hl⟩ := hm.loaders
      rcases hl.toNested.modules_instruction hh.whatever hm.stocked h hfit with
        hsame | ⟨k, N, henters, hnew⟩
      · exact .inl (hsame ▸ he)
      · by_cases hk : key = k
        · subst hk
          rw [hnew, Table.find?_insert_self, Option.some.injEq] at he
          cases Value.ofHandle_injective he
          exact .inr ⟨h, henters⟩
        · rw [hnew, Table.find?_insert_ne _ hk] at he
          exact .inl he
    | outside h => exact .inl (h.keeps.modules ▸ he)

/-- An entry stays, unless a fault strikes while its module loads. -/
theorem Managed.stays (hm : Managed host m) (h : Happens host m m')
    (hfit : m'.room ≤ Heap.slotLimit) (he : m.modules.find? key = some (.ofHandle M)) :
    m'.modules.find? key = some (.ofHandle M) ∨
      ∃ m₁, Breaks host m m₁ ∧ m' = m₁.reset ∧ M ∈ m.loading := by
  cases h with
  | hostCall _ h => exact .inl (h.keeps.modules.symm ▸ he)
  | start _ h =>
    exact .inl ((after_ok h ▸ keeps_after Eq (Machine.start _) m).modules.symm ▸ he)
  | @fault m₁ h =>
    have hk := hm.breaks hh hh.whatever h hfit
    by_cases hM : M ∈ m.loading
    · exact .inr ⟨m₁, h, rfl, hM⟩
    · refine .inl (find?_reset.mpr ⟨hk.modules.symm ▸ he, fun N hN hMN => hM ?_⟩)
      rw [Value.ofHandle_injective hMN, ← hk.loading]
      exact hN
  | step h =>
    obtain ⟨own, row, hl⟩ := hm.loaders
    exact .inl ((hl.toNested.turnover_step hh.intrudes hh.whatever hm.stocked h hfit).kept _ _ he)

/-- What stands in the table came there with an import and has stood there since. -/
theorem Grown.origin (hg : Grown host m) (hfit : m.room ≤ Heap.slotLimit)
    (he : m.modules.find? key = some (.ofHandle M)) : ∃ m₁ m₂, Grown host m₁ ∧
      instruction host m₁ = .ok () m₂ ∧ Enters m₁ m₂ key M ∧
      ReflTransGen (fun n n' => Happens host n n' ∧ n'.modules.find? key = some (.ofHandle M))
        m₂ m := by
  obtain ⟨config, hrow⟩ := hg
  induction hrow with
  | refl =>
    obtain ⟨heap, globals, methods, -, hnew⟩ := exists_new config
    rw [hnew] at he
    cases he
  | @tail m m' hrow h ih =>
    have hfit₀ := (h.room_le hh).trans hfit
    have hm := Grown.managed hh ⟨config, hrow⟩ hfit₀
    rcases hm.entered hh h hfit he with hold | ⟨hinst, henters⟩
    · obtain ⟨m₁, m₂, hg₁, hinst, henters, hstays⟩ := ih hfit₀ hold
      exact ⟨m₁, m₂, hg₁, hinst, henters, hstays.tail ⟨h, he⟩⟩
    · exact ⟨m, m', ⟨config, hrow⟩, hinst, henters, .refl⟩

/-- An entry goes when a fault strikes while its module loads. -/
theorem Managed.lost (hm : Managed host m) (h : ReflTransGen (Happens host) m m')
    (hfit : m'.room ≤ Heap.slotLimit) (he : m.modules.find? key = some (.ofHandle M))
    (hgone : m'.modules.find? key ≠ some (.ofHandle M)) : ∃ m₁ m₂,
      ReflTransGen (Happens host) m m₁ ∧ Breaks host m₁ m₂ ∧ M ∈ m₁.loading ∧
        ReflTransGen (Happens host) m₂.reset m' := by
  induction h with
  | refl => exact absurd he hgone
  | @tail m₁ m' hrow h ih =>
    have hfit₁ := (h.room_le hh).trans hfit
    by_cases he₁ : m₁.modules.find? key = some (.ofHandle M)
    · rcases (hm.history hh hrow hfit₁).stays hh h hfit he₁ with hstays | ⟨m₂, hb, rfl, hM⟩
      · exact absurd hstays hgone
      · exact ⟨m₁, m₂, hrow, hb, hM, .refl⟩
    · obtain ⟨n, n', hrow', hb, hM, hrest⟩ := ih hfit₁ he₁
      exact ⟨n, n', hrow', hb, hM, hrest.tail h⟩

/-- A fiber begins to run the code of a module when an import loads the file. -/
theorem Managed.launched (hm : Managed host m) (h : Steps host m m')
    (hfit : m'.room ≤ Heap.slotLimit) (hr : m'.role? r = some (.module, some M)) :
    m.role? r = some (.module, some M) ∨ instruction host m = .ok () m' ∧
      ∃ name key code, AsksFile m name key ∧ m.modules.find? key = none ∧
        m.Source (m.nameText name) code ∧ Launched key code r M m m' := by
  obtain ⟨own, row, hl⟩ := hm.loaders
  have hfit₀ := ((Happens.step h).room_le hh).trans hfit
  have hturn := hl.toNested.turnover_step hh.intrudes hh.whatever hm.stocked h hfit
  rcases hturn.role hr with hold | hloads
  · exact .inl hold
  · obtain ⟨key, hkey⟩ := hloads.entry
    rcases hm.entered hh (.step h) hfit hkey with hold | ⟨hinst, henters⟩
    · obtain ⟨N, hN, hmodule⟩ := hm.stocked key _ hold
      cases Value.ofHandle_injective hN
      exact absurd hmodule.isLive hloads.fresh
    · cases henters with
      | @file name r' code hasks hfree hsource hlaunched =>
        cases hloads.running.symm.trans hlaunched.loads.running
        exact .inr ⟨hinst, name, key, code, hasks, hfree, hsource, hlaunched⟩
      | native _ _ _ _ hloading =>
        obtain ⟨q, -, -, hq⟩ := hl.loader M (hloading ▸ hloads.loading)
        have hsound := hm.reachable.sound hh.careful hfit₀
        exact absurd (hsound.isLive_module hq) hloads.fresh

/-- An import of a file loads it if nothing stands under its key. -/
theorem Grown.launched (hg : Grown host m) (ha : AsksFile m name key)
    (hfree : m.modules.find? key = none) (h : instruction host m = .ok () m')
    (hfit : m'.room ≤ Heap.slotLimit) :
    ∃ code r M, m.Source (m.nameText name) code ∧ Launched key code r M m m' := by
  have hstep : Happens host m m' := .step (.instruction h)
  have hm := hg.managed hh ((hstep.room_le hh).trans hfit)
  obtain ⟨own, row, hl⟩ := hm.loaders
  rcases ha.cases hl.toNested hm.stocked h hfit with ⟨htaken, -⟩ | ⟨-, hloaded⟩
  · simp [Table.contains, hfree] at htaken
  · exact hloaded

theorem Grown.exists_launched {text : String} (hg : Grown host m)
    (h : instruction host m = .ok () m') (hasks : m.asksAnew text = true)
    (hfit : m'.room ≤ Heap.slotLimit) : ∃ name key code r M, m.askedFile? = some (name, key) ∧
      AsksFile m name key ∧ m.nameText name = text ∧ Launched key code r M m m' := by
  simp only [asksAnew, Option.any_eq_true, Bool.and_eq_true, decide_eq_true_eq,
    Option.isNone_iff_eq_none] at hasks
  obtain ⟨⟨name, key⟩, hasks, htext, hfree⟩ := hasks
  have ha := asksFile_of_askedFile? hasks
  obtain ⟨code, r, M, -, hl⟩ := hg.launched hh ha hfree h hfit
  exact ⟨name, key, code, r, M, hasks, ha, htext, hl⟩

/-- What is launched stands under a key that was free. -/
theorem Managed.free_of_launched {code : Prototype} (hm : Managed host m) (h : Happens host m m')
    (hfit : m'.room ≤ Heap.slotLimit) (hl : Launched key code r M m m') :
    m.modules.find? key = none := by
  have hkey : m'.modules.find? key = some (.ofHandle M) := hl.modules ▸ Table.find?_insert_self ..
  rcases hm.entered hh h hfit hkey with hold | ⟨-, henters⟩
  · obtain ⟨N, hN, hmodule⟩ := hm.stocked key _ hold
    cases Value.ofHandle_injective hN
    exact absurd hmodule.isLive hl.loads.fresh
  · cases henters with
    | file _ hfree _ _ => exact hfree
    | native _ _ hfree _ _ => exact hfree

end

/-! ## What is guaranteed -/

theorem vacant_withCode (files : List (String × Prototype)) : Vacant (withCode files) :=
  (HostCall.withHost _).vacant (quiescent_new {}).toVacant

theorem grown_withCode (files : List (String × Prototype)) : Grown host (withCode files) :=
  ⟨{}, .single (.hostCall (quiescent_new {}).toVacant (.withHost _))⟩

/-- What stands in the table of modules, as long as the slots of the heap can be told apart. A
file that is imported without a fault is loaded if nothing stands under its key, and then the
new module stands there; else the import only goes on to the next instruction, and what stands
under the key stays. Whatever stands under a key came there with the last import that found the key
free, for that file or for a native module under an alias. An entry goes only when a fault
strikes while its module loads. -/
structure RegistryGuarantees (host : HostFunctions) : Prop where
  imports : ∀ {m m' name key}, Grown host m → AsksFile m name key →
    instruction host m = .ok () m' → m'.room ≤ Heap.slotLimit →
    (m.modules.find? key = none ∧ ∃ code r M,
      m.Source (m.nameText name) code ∧ Launched key code r M m m') ∨
    (∃ M, m.modules.find? key = some (.ofHandle M)) ∧ ∃ k, m' = m.skip k
  origin : ∀ {m key M}, Grown host m → m.room ≤ Heap.slotLimit →
    m.modules.find? key = some (.ofHandle M) → ∃ m₁ m₂, Grown host m₁ ∧
      instruction host m₁ = .ok () m₂ ∧ Enters m₁ m₂ key M ∧
      ReflTransGen (fun n n' => Happens host n n' ∧ n'.modules.find? key = some (.ofHandle M)) m₂ m
  stays : ∀ {m m' key M}, Grown host m → Happens host m m' → m'.room ≤ Heap.slotLimit →
    m.modules.find? key = some (.ofHandle M) → m'.modules.find? key = some (.ofHandle M) ∨
      ∃ m₁, Breaks host m m₁ ∧ m' = m₁.reset ∧ M ∈ m.loading

theorem registryGuarantees {G : Members → Members → Prop} (hh : host.WellBehaved G) :
    RegistryGuarantees host where
  imports {m m' name key} hg ha h hfit := by
    have hstep : Happens host m m' := .step (.instruction h)
    have hm := hg.managed hh ((hstep.room_le hh).trans hfit)
    obtain ⟨own, row, hl⟩ := hm.loaders
    rcases ha.cases hl.toNested hm.stocked h hfit with ⟨htaken, hskip⟩ | hloaded
    · refine .inr ⟨?_, hskip⟩
      obtain ⟨v, hv⟩ := Option.isSome_iff_exists.mp htaken
      obtain ⟨M, rfl, -⟩ := hm.stocked key v hv
      exact ⟨M, hv⟩
    · exact .inl hloaded
  origin hg hfit he := hg.origin hh hfit he
  stays hg h hfit he := (hg.managed hh ((h.room_le hh).trans hfit)).stays hh h hfit he

/-- A program that imports two modules under one alias. -/
def reusing : Prototype where
  name := "script"
  arity := 0
  isAsync := false
  code := #[Opcode.importModuleAs.toByte, 0, 0, 0, 2, Opcode.importModuleAs.toByte, 0, 1, 0, 2,
    Opcode.pushNil.toByte, Opcode.ret.toByte]
  constants := [.text "one", .text "two", .text "alias"]
  lines := #[]

def twoFiles : List (String × Prototype) := [("one.ember", idle), ("two.ember", idle)]

/-- The machine in which the first import comes next. -/
def reusing₁ : Machine := after (start reusing) (withCode twoFiles)

def reusing₂ : Machine := after (instruction Probe.host) reusing₁

/-- The machine in which the first module is done and the second import comes next. -/
def reusing₃ : Machine := after (run Probe.host 2) reusing₂

def reusing₄ : Machine := after (instruction Probe.host) reusing₃

/-- An import that succeeds leaves the module of another file under its key. -/
theorem registryGuarantees_probe : RegistryGuarantees Probe.host ∧
    ∃ one two key code r M, Grown Probe.host reusing₁ ∧
      AsksFile reusing₁ one key ∧ reusing₁.nameText one = "one" ∧
      Launched key code r M reusing₁ reusing₂ ∧
      ReflTransGen (Happens Probe.host) reusing₂ reusing₃ ∧
      AsksFile reusing₃ two key ∧ reusing₃.nameText two = "two" ∧
      instruction Probe.host reusing₃ = .ok () reusing₄ ∧ reusing₄.room ≤ Heap.slotLimit ∧
      reusing₄.modules.find? key = some (.ofHandle M) := by
  refine ⟨registryGuarantees wellBehaved_probe, ?_⟩
  obtain ⟨hstart, hfirst, hrun, hsecond, hfit, hasks, hagain⟩ :
      yields (start reusing) () (withCode twoFiles) = true ∧
      yields (instruction Probe.host) () reusing₁ = true ∧
      yields (run Probe.host 2) false reusing₂ = true ∧
      yields (instruction Probe.host) () reusing₃ = true ∧ reusing₄.room ≤ Heap.slotLimit ∧
      reusing₁.asksAnew "one" = true ∧ ∀ p ∈ reusing₁.askedFile?,
        (reusing₃.askedFile?.any fun q => q.2 = p.2 && reusing₃.nameText q.1 = "two") = true ∧
        reusing₄.modules.find? p.2 = reusing₂.modules.find? p.2 := by decide +kernel
  have hfirst : instruction Probe.host reusing₁ = .ok () reusing₂ := eq_ok_of_yields hfirst
  have hsecond : instruction Probe.host reusing₃ = .ok () reusing₄ := eq_ok_of_yields hsecond
  have hhappens : Happens Probe.host (withCode twoFiles) reusing₁ :=
    .start (vacant_withCode _) (eq_ok_of_yields hstart)
  have hsteps : ReflTransGen (Happens Probe.host) reusing₂ reusing₃ :=
    happens_of_steps (steps_of_proceeds (proceeds_of_run (eq_ok_of_yields hrun)))
  have hstep' : Happens Probe.host reusing₃ reusing₄ := .step (.instruction hsecond)
  have hg₁ := (grown_withCode _).happens (.single hhappens)
  have hfit₂ := (room_le_of_history wellBehaved_probe (hsteps.tail hstep')).trans hfit
  obtain ⟨one, key, code, r, M, hp, ha, htext, hl⟩ :=
    hg₁.exists_launched wellBehaved_probe hfirst hasks hfit₂
  obtain ⟨htwo, hstays⟩ := hagain _ hp
  simp only [Option.any_eq_true, Bool.and_eq_true, decide_eq_true_eq] at htwo
  obtain ⟨⟨two, key'⟩, hq, rfl, htext'⟩ := htwo
  rw [hl.modules, Table.find?_insert_self] at hstays
  exact ⟨one, two, _, code, r, M, hg₁, ha, htext, hl, hsteps, asksFile_of_askedFile? hq, htext',
    hsecond, hfit, hstays⟩

/-- When the code of modules begins to run, through all the programs that one machine runs and
as long as the slots of the heap can be told apart. A fiber begins to run the code of a module
only when an import loads its file. Between two such beginnings under one key a fault has struck
while the first module was still loading. -/
structure BeginningGuarantees (host : HostFunctions) : Prop where
  begins : ∀ {m m' r M}, Grown host m → Steps host m m' → m'.room ≤ Heap.slotLimit →
    m'.role? r = some (.module, some M) → m.role? r = some (.module, some M) ∨
      instruction host m = .ok () m' ∧ ∃ name key code, AsksFile m name key ∧
        m.modules.find? key = none ∧ m.Source (m.nameText name) code ∧ Launched key code r M m m'
  once : ∀ {m₁ m₂ m₃ m₄ key code code' r r' M M'}, Grown host m₁ → Happens host m₁ m₂ →
    Launched key code r M m₁ m₂ → ReflTransGen (Happens host) m₂ m₃ → Happens host m₃ m₄ →
    Launched key code' r' M' m₃ m₄ → m₄.room ≤ Heap.slotLimit → ∃ m m',
      ReflTransGen (Happens host) m₂ m ∧ Breaks host m m' ∧ M ∈ m.loading ∧
      (∃ q, m.role? q = some (.module, some M) ∧ m.stateOf? q ≠ some .done) ∧
      ReflTransGen (Happens host) m'.reset m₃

theorem beginningGuarantees {G : Members → Members → Prop} (hh : host.WellBehaved G) :
    BeginningGuarantees host where
  begins hg h hfit hr := (hg.managed hh (((Happens.step h).room_le hh).trans hfit)).launched hh h hfit hr
  once {m₁ m₂ m₃ m₄ key code code' r r' M M'} hg h₁ hl hrow h₃ hl' hfit := by
    have hfit₃ := (h₃.room_le hh).trans hfit
    have hfit₂ := (room_le_of_history hh hrow).trans hfit₃
    have hm₂ := (hg.managed hh ((h₁.room_le hh).trans hfit₂)).happens hh h₁ hfit₂
    have hkey : m₂.modules.find? key = some (.ofHandle M) := hl.modules ▸ Table.find?_insert_self ..
    have hfree := (hm₂.history hh hrow hfit₃).free_of_launched hh h₃ hfit hl'
    obtain ⟨m, m', hbefore, hbreaks, hM, hafter⟩ := hm₂.lost hh hrow hfit₃ hkey (by simp [hfree])
    have hfit' := (room_le_of_history hh hafter).trans hfit₃
    have hm := hm₂.history hh hbefore (((Happens.fault hbreaks).room_le hh).trans hfit')
    obtain ⟨own, row, hloaders⟩ := hm.loaders
    obtain ⟨q, -, htended, hq⟩ := hloaders.loader M hM
    exact ⟨m, m', hbefore, hbreaks, hM, ⟨q, hq, htended.ne_done hloaders.toNested⟩, hafter⟩

/-- A program that imports a module under its name and under another one. -/
def aliasing : Prototype where
  name := "script"
  arity := 0
  isAsync := false
  code := #[Opcode.importModule.toByte, 0, 0, Opcode.importModuleAs.toByte, 0, 0, 0, 1,
    Opcode.pushNil.toByte, Opcode.ret.toByte]
  constants := [.text "idle", .text "other"]
  lines := #[]

/-- The machine in which the first import comes next. -/
def aliasing₁ : Machine := after (start aliasing) (withCode [("idle.ember", idle)])

def aliasing₂ : Machine := after (instruction Probe.host) aliasing₁

/-- The machine in which the module is done and the second import comes next. -/
def aliasing₃ : Machine := after (run Probe.host 2) aliasing₂

def aliasing₄ : Machine := after (instruction Probe.host) aliasing₃

/-- The code of a module begins twice, under two keys. -/
theorem beginningGuarantees_probe : BeginningGuarantees Probe.host ∧
    ∃ name name' key key' code code' r r' M M', Grown Probe.host aliasing₁ ∧
      AsksFile aliasing₁ name key ∧ aliasing₁.nameText name = "idle" ∧
      Launched key code r M aliasing₁ aliasing₂ ∧
      ReflTransGen (Happens Probe.host) aliasing₂ aliasing₃ ∧
      AsksFile aliasing₃ name' key' ∧ aliasing₃.nameText name' = "idle" ∧
      Launched key' code' r' M' aliasing₃ aliasing₄ ∧ aliasing₄.room ≤ Heap.slotLimit := by
  refine ⟨beginningGuarantees wellBehaved_probe, ?_⟩
  obtain ⟨hstart, hfirst, hrun, hsecond, hfit, hasks, hasks'⟩ :
      yields (start aliasing) () (withCode [("idle.ember", idle)]) = true ∧
      yields (instruction Probe.host) () aliasing₁ = true ∧
      yields (run Probe.host 2) false aliasing₂ = true ∧
      yields (instruction Probe.host) () aliasing₃ = true ∧ aliasing₄.room ≤ Heap.slotLimit ∧
      aliasing₁.asksAnew "idle" = true ∧ aliasing₃.asksAnew "idle" = true := by decide +kernel
  have hfirst : instruction Probe.host aliasing₁ = .ok () aliasing₂ := eq_ok_of_yields hfirst
  have hsecond : instruction Probe.host aliasing₃ = .ok () aliasing₄ := eq_ok_of_yields hsecond
  have hhappens : Happens Probe.host (withCode [("idle.ember", idle)]) aliasing₁ :=
    .start (vacant_withCode _) (eq_ok_of_yields hstart)
  have hstep : Happens Probe.host aliasing₁ aliasing₂ := .step (.instruction hfirst)
  have hsteps : ReflTransGen (Happens Probe.host) aliasing₂ aliasing₃ :=
    happens_of_steps (steps_of_proceeds (proceeds_of_run (eq_ok_of_yields hrun)))
  have hstep' : Happens Probe.host aliasing₃ aliasing₄ := .step (.instruction hsecond)
  have hg₁ := (grown_withCode _).happens (.single hhappens)
  have hg₃ := hg₁.happens (.head hstep hsteps)
  have hfit₂ := (room_le_of_history wellBehaved_probe (hsteps.tail hstep')).trans hfit
  obtain ⟨name, key, code, r, M, -, ha, htext, hl⟩ :=
    hg₁.exists_launched wellBehaved_probe hfirst hasks hfit₂
  obtain ⟨name', key', code', r', M', -, ha', htext', hl'⟩ :=
    hg₃.exists_launched wellBehaved_probe hsecond hasks' hfit
  exact ⟨name, name', key, key', code, code', r, r', M, M', hg₁, ha, htext, hl, hsteps, ha',
    htext', hl', hfit⟩

end Machine

end FiberMachine
