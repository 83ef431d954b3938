import FiberMachine.Proofs.Machine.Definitions
import FiberMachine.Proofs.Machine.Stamps

/-!
# Where functions and modules come from

A function is loaded with a program or with a module and belongs to that module from then on,
and a module that comes was imported by the code at work. Definitions and the ends of modules
make no functions and no modules, and a call is stamped through all that happens to a machine.
-/

namespace FiberMachine

open Relation (ReflTransGen)

/-! ## Loading -/

namespace Heap

variable {module : Option Handle} {h h' : Heap} {r M : Handle} {fn : Function}
  {id : Handle × Option Handle}

/-- A text comes, or a function of a module. -/
inductive Brings (module : Option Handle) : Heap → Heap → Prop
  | intern (h : Heap) (s : String) : Brings module h (h.intern s).1
  | alloc (h : Heap) {fn : Function} : fn.module = module →
      Brings module h (h.alloc (.function fn)).1

mutual

theorem brings_loadConstant (h : Heap) :
    ∀ c, ReflTransGen (Brings module) h (loadConstant module h c).1
  | .nil | .bool _ | .number _ => .refl
  | .text s => .single (.intern h s)
  | .function p => brings_load h p

theorem brings_loadConstants (h : Heap) :
    ∀ cs, ReflTransGen (Brings module) h (loadConstants module h cs).1
  | [] => .refl
  | c :: rest => (brings_loadConstant h c).trans (brings_loadConstants _ rest)

theorem brings_load (h : Heap) : ∀ p, ReflTransGen (Brings module) h (load module h p).1
  | ⟨name, _, _, _, constants, _⟩ => by
    rw [load]
    exact ((brings_loadConstants h constants).tail (.intern _ name)).tail (.alloc _ rfl)

end

theorem Brings.move (hb : Brings module h h') : Move h h' := by
  cases hb with
  | intern s => exact .intern h s
  | alloc _ => exact .alloc h nofun nofun

theorem Brings.remains (hb : Brings module h h') (ha : h.Arena) (hfit : h'.slots.size ≤ slotLimit) :
    Remains h h' := by
  cases hb with
  | intern s => exact .intern ha s hfit
  | alloc _ => exact .alloc ha _ hfit

/-- An object that is there after another one is made was there before or is that one. -/
theorem Allocated.holds {s : Handle} {o : Object} {b : Body} (ha : Allocated h h' s o)
    (hb : h'.Holds r b) : h.Holds r b ∨ r = s ∧ o.body = b := by
  obtain ⟨p, hp, rfl⟩ := hb
  rw [ha.get?] at hp
  split at hp
  · rename_i hr
    cases hp
    exact .inr ⟨hr, rfl⟩
  · exact .inl ⟨p, hp, rfl⟩

theorem Brings.function (hb : Brings module h h') (ha : h.Arena) (hfit : h'.slots.size ≤ slotLimit)
    (hf : h'.function r = .ok fn) :
    h.function r = .ok fn ∨ ¬ h.isLive r ∧ fn.module = module := by
  cases hb with
  | intern s => exact .inl (((Modest.intern h s).respects ha hfit).function_eq.mp hf)
  | @alloc fn' hmodule =>
    have hnew := alloc_allocated ha (.function fn') hfit
    obtain hold | ⟨rfl, hbody⟩ := hnew.holds (function_eq_ok.mp hf)
    · exact .inl (function_eq_ok.mpr hold)
    · cases hbody
      exact .inr ⟨hnew.not_isLive, hmodule⟩

theorem Brings.importer (hb : Brings module h h') (ha : h.Arena) (hfit : h'.slots.size ≤ slotLimit)
    (hid : h'.module M = .ok id) : h.module M = .ok id := by
  cases hb with
  | intern s =>
    obtain ⟨o, ho, hbody⟩ := module_eq_ok.mp hid
    have hold := (Modest.intern h s).respects ha hfit M o (by rw [Object.kind, hbody]; rfl)
    exact module_eq_ok.mpr ⟨o, hold.mp ho, hbody⟩
  | @alloc fn' _ =>
    obtain hold | ⟨-, hbody⟩ :=
      (alloc_allocated ha (.function fn') hfit).holds (module_eq_ok.mp hid)
    · exact module_eq_ok.mpr hold
    · cases hbody

theorem row_of_brings (hr : ReflTransGen (Brings module) h h') : ReflTransGen Move h h' :=
  ReflTransGen.mono (fun _ _ => Brings.move) _ _ hr

/-- What is loaded leaves everything else as it is, its functions belong to the module, and no
module is among it. -/
structure Loaded (module : Option Handle) (h h' : Heap) : Prop where
  remains : Remains h h'
  functions : ∀ r fn, h'.function r = .ok fn →
    h.function r = .ok fn ∨ ¬ h.isLive r ∧ fn.module = module
  modules : ∀ M id, h'.module M = .ok id → h.module M = .ok id

theorem row_brings (hr : ReflTransGen (Brings module) h h') (hw : h.WellFormed)
    (hfit : h'.slots.size ≤ slotLimit) : Loaded module h h' := by
  induction hr with
  | refl => exact ⟨.refl h, fun _ _ => .inl, fun _ _ => id⟩
  | tail hrow hb ih =>
    have hfit₁ := Nat.le_trans hb.move.size_le hfit
    have ha := (row_wellFormed (row_of_brings hrow) hw hfit₁).toArena
    have hl := ih hfit₁
    refine ⟨hl.remains.trans (hb.remains ha hfit), fun r fn hf => ?_, fun M id hid => ?_⟩
    · rcases hb.function ha hfit hf with hold | ⟨hnew, hmodule⟩
      · exact hl.functions r fn hold
      · exact .inr ⟨fun h => hnew (hl.remains.isLive h), hmodule⟩
    · exact hl.modules M id (hb.importer ha hfit hid)

end Heap

namespace Machine

variable {α : Type} {m m₁ m' : Machine} {u : Unit} {M : Handle}

instance (module : Option Handle) (p : Prototype) :
    Makes Stamps (liftM (Heap.run (·.load module p)) : Act Handle) := by
  refine .single fun m => ?_
  rw [after_lift]
  exact .of_heap (Heap.row_load module m.heap p) fun hw hfit =>
    (Heap.row_brings (Heap.brings_load m.heap p) hw hfit).remains.functionsRemain

/-! ## Definitions -/

instance (r name : Handle) (v : Value) : Makes Carries (change r (Heap.insertMember name v)) := by
  refine .single fun m => ?_
  by_cases hr : m.heap.isLive r
  · rw [after_ok ((change_apply r _ m).trans (if_pos hr))]
    refine .of_heap (.single (.update m.heap r (Heap.insertMember name v))) (fun _ _ q fn => ?_)
      fun _ _ M id hid => ?_
    · rw [Heap.function_eq_ok, Heap.function_eq_ok]
      exact Heap.holds_insertMember
    · rw [Heap.module_eq_ok] at hid ⊢
      exact Heap.holds_insertMember.mp hid
  · rw [after_error ((change_apply r _ m).trans (if_neg hr))]
    exact .refl m

instance (scope : Option Handle) (name : Handle) (v : Value) :
    Makes Carries (define scope name v) := by
  unfold define
  split
  · infer_instance
  · exact .single fun _ => .of_eq rfl rfl

instance (name : Handle) (v : Value) : Makes Carries (assignGlobal name v) := by
  unfold assignGlobal
  exact .parts

instance (name : Handle) : Makes Carries (recordExport name) := by
  refine .single fun m => ?_
  change Carries m (if m.exported.contains (m.nameText name) then m else _)
  split <;> exact .of_eq rfl rfl

instance (op : Opcode) : Makes Carries (bindings op) := by
  unfold bindings loadConstant pushGlobal popGlobal setGlobal pushLocal setLocal localIndex strange
  exact .parts

/-! ## Ends of fibers -/

instance (M : Handle) : Makes Carries (completeModule M) := by
  unfold completeModule
  exact .parts

instance : Makes Carries finish := by
  unfold finish
  exact .parts

instance (op : Opcode) : Makes Carries (control op) := by
  unfold control branchIfFalse returnFromCall strange
  exact .parts

/-! ## Imports -/

/-- No function is new, and a module that is new was imported for a scope. -/
structure Founds (scope : Option Handle) (m m' : Machine) : Prop extends Tends m m' where
  functions : m.heap.WellFormed → m'.room ≤ Heap.slotLimit →
    ∀ r fn, m'.heap.function r = .ok fn → m.heap.function r = .ok fn
  importers : m.heap.WellFormed → m'.room ≤ Heap.slotLimit →
    ∀ M id, m'.heap.module M = .ok id → m.heap.module M = .ok id ∨ id.2 = scope

theorem Carries.founds (scope : Option Handle) (h : Carries m m') : Founds scope m m' where
  toTends := h.toTends
  functions := h.functions
  importers hw hfit M id hid := .inl (h.importers hw hfit M id hid)

theorem Founds.trans {scope : Option Handle} (h : Founds scope m m₁) (h' : Founds scope m₁ m') :
    Founds scope m m' where
  toTends := h.toTends.trans h'.toTends
  functions hw hfit r fn hf := by
    have hfit₁ := h'.room_le.trans hfit
    exact h.functions hw hfit₁ r fn (h'.functions (h.wellFormed hw hfit₁) hfit r fn hf)
  importers hw hfit M id hid := by
    have hfit₁ := h'.room_le.trans hfit
    exact (h'.importers (h.wellFormed hw hfit₁) hfit M id hid).elim (h.importers hw hfit₁ M id) .inr

instance (scope : Option Handle) : IsPreorder Machine (Founds scope) where
  refl m := (Carries.refl m).founds scope
  trans _ _ _ := .trans

instance (priority := low) (scope : Option Handle) (x : Act α) [hx : Makes Carries x] :
    Makes (Founds scope) x := hx.mono fun _ _ h => h.founds scope

theorem stamps_newModule (name : Handle) (importer : Option Handle) (m : Machine) :
    Stamps m (after (newModule name importer) m) := by
  have hmove : Heap.Move m.heap (m.heap.alloc (.module name importer)).1 :=
    .alloc _ (by simp [Body.kind]) (by simp [Body.kind])
  have hheap : Stamps m { m with heap := (m.heap.alloc (.module name importer)).1 } :=
    .of_heap (.single hmove) fun hw hfit =>
      (Heap.Remains.alloc hw.toArena _ hfit).functionsRemain
  exact hheap.trans (.of_eq rfl rfl)

instance (name : Handle) (importer : Option Handle) : Makes Stamps (newModule name importer) :=
  .single (stamps_newModule name importer)

instance (name : Handle) (importer : Option Handle) :
    Makes (Founds importer) (newModule name importer) := by
  refine .single fun m => ⟨(stamps_newModule name importer m).toTends, ?_, ?_⟩ <;>
    rw [after_ok (newModule_apply name importer m)] <;> intro hw hfit
  · intro r fn hf
    obtain hold | ⟨-, hb⟩ :=
      (Heap.alloc_allocated hw.toArena _ hfit).holds (Heap.function_eq_ok.mp hf)
    · exact Heap.function_eq_ok.mpr hold
    · cases hb
  · intro M id hid
    obtain hold | ⟨-, hb⟩ :=
      (Heap.alloc_allocated hw.toArena _ hfit).holds (Heap.module_eq_ok.mp hid)
    · exact .inl (Heap.module_eq_ok.mpr hold)
    · injection hb with _ himporter
      exact .inr himporter.symm

instance (name : Handle) (importer : Option Handle) : Makes Stamps (aliasModule name importer) := by
  unfold aliasModule
  exact .parts

instance (name : Handle) (importer : Option Handle) :
    Makes (Founds importer) (aliasModule name importer) := by
  unfold aliasModule
  exact .parts

instance (target : Option Handle) (ns : List Native) :
    Makes Carries (defineFunctions target ns) := by
  induction ns with
  | nil => exact .pure ()
  | cons n rest ih =>
    unfold defineFunctions
    exact .parts

instance (target : Option Handle) (ns : List (String × Float)) :
    Makes Carries (defineNumbers target ns) := by
  induction ns with
  | nil => exact .pure ()
  | cons n rest ih =>
    unfold defineNumbers
    exact .parts

instance (native : NativeModule) (as : Option Handle) : Makes Stamps (importNative native as) := by
  unfold importNative
  exact .parts

instance (key : Handle) (code : Prototype) : Makes Stamps (startModule key code) := by
  unfold startModule
  exact .parts

instance (op : Opcode) : Makes Stamps (imports op) := by
  unfold imports importModule importFile strange
  exact .parts

instance (p : Prototype) : Makes Stamps (start p) := by
  unfold start
  exact .parts

section

variable {host : HostFunctions} [hh : ∀ id args, Makes Modest (host.call id args)]

instance (op : Opcode) : Makes Stamps (execute host op) := by
  unfold execute
  exact .parts

instance : Makes Stamps (instruction host) := by
  unfold instruction
  exact .parts

end

/-! ## New functions and modules -/

/-- The module that the running call is for, if a call is running. -/
def scope? (m : Machine) : Option (Option Handle) := m.frame?.map Frame.scope

/-- A function was there before, or it is new and belongs to no module or to one that is new as
well. A module that is new was imported by the code at work. -/
structure Supplied (m m' : Machine) : Prop where
  functions : m.heap.WellFormed → m'.room ≤ Heap.slotLimit → ∀ r fn, m'.heap.function r = .ok fn →
    m.heap.function r = .ok fn ∨ ¬ m.heap.isLive r ∧ ∀ M ∈ fn.module, ¬ m.heap.isLive M
  importers : m.heap.WellFormed → m'.room ≤ Heap.slotLimit → ∀ M id, m'.heap.module M = .ok id →
    m.heap.module M = .ok id ∨ m.scope? = some id.2

theorem Founds.supplied {scope : Option Handle} (h : Founds scope m m')
    (hs : m.scope? = some scope) : Supplied m m' where
  functions hw hfit r fn hf := .inl (h.functions hw hfit r fn hf)
  importers hw hfit M id hid := (h.importers hw hfit M id hid).imp_right fun himporter => by rw [hs, himporter]

theorem Carries.supplied (h : Carries m m') : Supplied m m' where
  functions hw hfit r fn hf := .inl (h.functions hw hfit r fn hf)
  importers hw hfit M id hid := .inl (h.importers hw hfit M id hid)

/-- The heap stays as it is, and the running call is for the same module. -/
structure Reads (m m' : Machine) : Prop where
  heap : m'.heap = m.heap
  scope : m'.scope? = m.scope?

theorem Reads.supplied (hr : Reads m m₁) (h : Supplied m₁ m') : Supplied m m' := by
  obtain ⟨hfunctions, himporters⟩ := h
  rw [hr.heap] at hfunctions himporters
  rw [hr.scope] at himporters
  exact ⟨hfunctions, himporters⟩

instance : IsPreorder Machine Reads where
  refl _ := ⟨rfl, rfl⟩
  trans _ _ _ h h' := ⟨h'.heap.trans h.heap, h'.scope.trans h.scope⟩

theorem reads_after (x : Act α) [hx : Makes Reads x] (m : Machine) : Reads m (after x m) :=
  hx.preorder m

instance (f : Host → α × Host) : Makes Reads (onHost f) := .single fun _ => ⟨rfl, rfl⟩

instance : Makes Reads readByte := by
  refine .single fun m => ?_
  simp only [after, readByte]
  rcases h : m.running with _ | ⟨id, stack, _ | ⟨f, rest⟩, caller, kind, state, module⟩
  · exact ⟨rfl, rfl⟩
  · exact ⟨rfl, rfl⟩
  · simp only
    cases f.chunk.code[f.ip]? with
    | none => exact ⟨rfl, rfl⟩
    | some byte => exact ⟨rfl, by simp only [scope?, frame?, h]; rfl⟩

instance : Makes Reads readName := by
  unfold readName readIndex readShort
  exact .parts

theorem supplied_behind {β : Type} {x : Act α} {g : α → Act β} [hx : Makes Reads x]
    (hg : ∀ a m, Supplied m (after (g a) m)) (m : Machine) : Supplied m (after (x >>= g) m) := by
  have hreads := reads_after x m
  rw [after_bind]
  cases h : x m with
  | ok a m₁ => exact (after_ok h ▸ hreads).supplied (hg a m₁)
  | error e m₁ => exact (after_error h ▸ hreads).supplied (Carries.refl m₁).supplied

/-- An import asks for whom it is done. -/
theorem supplied_scope {β : Type} {g : Option Handle → Act β}
    (hg : ∀ scope m, m.scope? = some scope → Supplied m (after (g scope) m)) (m : Machine) :
    Supplied m (after (scope >>= g) m) := by
  have hreads := reads_after scope m
  rw [after_bind]
  cases h : scope m with
  | ok s m₁ =>
    obtain ⟨rfl, f, hf, hs⟩ := scope_eq_ok h
    exact hg s m₁ (by simp only [scope?, hf, Option.map_some, hs])
  | error e m₁ => exact (after_error h ▸ hreads).supplied (Carries.refl m₁).supplied

/-- Code of a module is loaded, and then no code comes any more. -/
structure Readies (module : Option Handle) (h : Heap) (m m' : Machine) : Prop where
  loaded : h.Loaded module m.heap
  wellFormed : m.heap.WellFormed
  modest : Modest m m'

theorem Readies.function {module : Option Handle} {h : Heap} {r : Handle} {fn : Function}
    (hr : Readies module h m m') (hfit : m'.room ≤ Heap.slotLimit)
    (hf : m'.heap.function r = .ok fn) :
    h.function r = .ok fn ∨ ¬ h.isLive r ∧ fn.module = module :=
  hr.loaded.functions r fn (hr.modest.functions hr.wellFormed hfit r fn hf)

theorem Readies.importer {module : Option Handle} {h : Heap} {id : Handle × Option Handle}
    (hr : Readies module h m m') (hfit : m'.room ≤ Heap.slotLimit)
    (hid : m'.heap.module M = .ok id) : h.module M = .ok id :=
  hr.loaded.modules M id (hr.modest.importers hr.wellFormed hfit M id hid)

theorem exists_readies {module : Option Handle} {p : Prototype} {rest : Handle → Act α}
    (hrest : ∀ r, Makes Modest (rest r)) (hw : m.heap.WellFormed)
    (hfit : (after ((liftM (Heap.run (·.load module p)) : Act Handle) >>= rest) m).room ≤
      Heap.slotLimit) :
    ∃ m₁, Readies module m.heap m₁
      (after ((liftM (Heap.run (·.load module p)) : Act Handle) >>= rest) m) := by
  let m₁ : Machine := { m with heap := (m.heap.load module p).1 }
  have hmodest : Modest m₁ (after (rest (m.heap.load module p).2) m₁) := modest_after _ m₁
  have hbrings : ReflTransGen (Heap.Brings module) m.heap m₁.heap := Heap.brings_load m.heap p
  have hfit₁ : m₁.room ≤ Heap.slotLimit := hmodest.room_le.trans hfit
  exact ⟨m₁, Heap.row_brings hbrings hw hfit₁,
    Heap.row_wellFormed (Heap.row_of_brings hbrings) hw hfit₁, hmodest⟩

theorem readies_start {p : Prototype} (hw : m.heap.WellFormed)
    (hfit : (after (start p) m).room ≤ Heap.slotLimit) :
    ∃ m₁, Readies none m.heap m₁ (after (start p) m) :=
  exists_readies (fun _ => .parts) hw hfit

/-- A module is new, and its code is loaded. -/
theorem readies_launch {key : Handle} {code : Prototype} {importer : Option Handle}
    (hw : m.heap.WellFormed) (hfit : (after (launch key code importer) m).room ≤ Heap.slotLimit) :
    ∃ h M m₁, Heap.Allocated m.heap h M (.ofBody (.module key importer)) ∧
      Readies (some M) h m₁ (after (launch key code importer) m) := by
  let M := (m.heap.alloc (.module key importer)).2
  let m₀ : Machine := { m with
    heap := (m.heap.alloc (.module key importer)).1, modules := m.modules.insert key (.ofHandle M)
    loading := m.loading ++ [M] }
  let rest (function : Handle) : Act Unit := do
    resume (← newFiber .module function [] none (some M))
  have hmakes : ∀ r, Makes Modest (rest r) := fun _ => .parts
  have hload : Makes Stamps ((liftM (Heap.run (·.load (some M) code)) : Act Handle) >>= rest) :=
    .bind inferInstance inferInstance
  have hafter : after (launch key code importer) m =
    after ((liftM (Heap.run (·.load (some M) code)) : Act Handle) >>= rest) m₀ := rfl
  rw [hafter] at hfit ⊢
  have hfit₀ : m₀.room ≤ Heap.slotLimit := (@stamps_after _ _ hload m₀).room_le.trans hfit
  obtain ⟨m₁, hready⟩ := exists_readies hmakes (hw.alloc nofun hfit₀ : m₀.heap.WellFormed) hfit
  exact ⟨m₀.heap, M, m₁, Heap.alloc_allocated hw.toArena _ hfit₀, hready⟩

/-- The functions of a program belong to no module. -/
theorem supplied_start (p : Prototype) (m : Machine) : Supplied m (after (start p) m) where
  functions hw hfit r fn hf := by
    obtain ⟨m₁, hready⟩ := readies_start hw hfit
    refine (hready.function hfit hf).imp_right fun ⟨hnew, hmodule⟩ => ⟨hnew, fun N hN => ?_⟩
    rw [hmodule] at hN
    cases hN
  importers hw hfit M id hid := by
    obtain ⟨m₁, hready⟩ := readies_start hw hfit
    exact .inl (hready.importer hfit hid)

/-- The functions of a module belong to it. -/
theorem supplied_launch (key : Handle) (code : Prototype) {importer : Option Handle}
    (hs : m.scope? = some importer) : Supplied m (after (launch key code importer) m) where
  functions hw hfit r fn hf := by
    obtain ⟨h, M, m₁, hnew, hready⟩ := readies_launch hw hfit
    have hremains : m.heap.Remains h := fun _ _ ho => hnew.get?_of_get? ho
    rcases hready.function hfit hf with hold | ⟨hfresh, hmodule⟩
    · obtain hold | ⟨-, hb⟩ := hnew.holds (Heap.function_eq_ok.mp hold)
      · exact .inl (Heap.function_eq_ok.mpr hold)
      · cases hb
    · refine .inr ⟨fun hr => hfresh (hremains.isLive hr), fun N hN => ?_⟩
      rw [hmodule] at hN
      cases hN
      exact hnew.not_isLive
  importers hw hfit N id hid := by
    obtain ⟨h, M, m₁, hnew, hready⟩ := readies_launch hw hfit
    obtain hold | ⟨-, hb⟩ := hnew.holds (Heap.module_eq_ok.mp (hready.importer hfit hid))
    · exact .inl (Heap.module_eq_ok.mpr hold)
    · injection hb with _ himporter
      exact .inr (himporter ▸ hs)

theorem supplied_importFile (text : String) (key : Handle) (m : Machine) :
    Supplied m (after (importFile text key) m) := by
  unfold importFile
  refine supplied_behind (fun m₀ m => ?_) m
  dsimp only
  split
  · exact (Carries.refl m).supplied
  · refine supplied_behind (fun contents m => ?_) m
    split
    · exact (Carries.refl m).supplied
    · cases m₀.host.json.compile contents with
      | error cause => exact (Carries.refl m).supplied
      | ok code => exact supplied_scope (fun _ _ hs => supplied_launch key code hs) m

theorem supplied_importNative (native : NativeModule) (as : Option Handle) (m : Machine) :
    Supplied m (after (importNative native as) m) := by
  unfold importNative
  refine supplied_scope (fun importer m hs => ?_) m
  refine Founds.supplied (Makes.preorder (R := Founds importer) ?_ m) hs
  exact .parts

theorem supplied_importModule (name : Handle) (as : Option Handle) (m : Machine) :
    Supplied m (after (importModule name as) m) := by
  unfold importModule
  refine supplied_behind (fun m₀ m => ?_) m
  dsimp only
  split
  · exact supplied_importNative _ as m
  · exact supplied_importFile _ _ m

theorem supplied_imports (op : Opcode) (m : Machine) : Supplied m (after (imports op) m) := by
  cases op with
  | importModule => exact supplied_behind (fun name => supplied_importModule name none) m
  | importModuleAs =>
    refine supplied_behind (fun name => supplied_behind fun as => ?_) m
    exact supplied_importModule name (some as)
  | _ => exact (Carries.refl m).supplied

theorem instruction_cases (host : HostFunctions) (m : Machine) :
    Modest m (after (instruction host) m) ∨ ∃ f op, m.frame? = some f ∧ f.opcode? = some op ∧
      Modest m (m.skip 1) ∧ after (instruction host) m = after (execute host op) (m.skip 1) := by
  have hread := modest_after readByte m
  unfold instruction
  rw [after_bind]
  cases h : readByte m with
  | error e m₁ => exact .inl (after_error h ▸ hread)
  | ok byte m₁ =>
    obtain ⟨rfl, f, hf, hcode⟩ := readByte_eq_ok h
    cases hop : Opcode.ofByte? byte with
    | none =>
      simp only [hop]
      exact .inl (after_ok h ▸ hread)
    | some op =>
      simp only [hop]
      exact .inr ⟨f, op, hf, by simp [Frame.opcode?, hcode, hop], after_ok h ▸ hread, rfl⟩

/-- The code at work imports something. -/
def Importing (m : Machine) : Prop :=
  ∃ f op, m.frame? = some f ∧ f.opcode? = some op ∧ (op = .importModule ∨ op = .importModuleAs)

section

variable {host : HostFunctions} [hh : ∀ id args, Makes Modest (host.call id args)]

/-- Only an import brings code. -/
theorem carries_instruction (hi : ¬ m.Importing) : Carries m (after (instruction host) m) := by
  rcases instruction_cases host m with hmodest | ⟨f, op, hf, hop, hskip, hafter⟩
  · exact hmodest.toCarries
  · have himport : ¬ (op = .importModule ∨ op = .importModuleAs) := fun h => hi ⟨f, op, hf, hop, h⟩
    have hmakes : Makes Carries (execute host op) := by
      rw [not_or] at himport
      unfold execute
      cases op with
      | importModule => exact absurd rfl himport.1
      | importModuleAs => exact absurd rfl himport.2
      | _ => infer_instance
    rw [hafter]
    exact hskip.toCarries.trans (@carries_after _ _ hmakes (m.skip 1))

theorem supplied_instruction (m : Machine) : Supplied m (after (instruction host) m) := by
  by_cases hi : m.Importing
  · obtain ⟨f, op, hf, hop, himport⟩ := hi
    rcases instruction_cases host m with hmodest | ⟨g, op', hg, hop', -, hafter⟩
    · exact hmodest.supplied
    · cases hf.symm.trans hg
      cases hop.symm.trans hop'
      have hreads : Reads m (m.skip 1) := ⟨rfl, by simp only [scope?, frame?_skip, hf]; rfl⟩
      rw [hafter]
      rcases himport with rfl | rfl
      · exact hreads.supplied (supplied_imports .importModule _)
      · exact hreads.supplied (supplied_imports .importModuleAs _)
  · exact (carries_instruction hi).supplied

end

/-! ## Histories -/

instance (name : Handle) (v : Value) : Makes Modest (define none name v) :=
  .single fun _ => .of_eq rfl rfl

instance (name : String) (v : Value) : Makes Modest (bindGlobal name v) := by
  unfold bindGlobal
  exact .parts

instance (target : Value) (name : String) (v : Value) : Makes Modest (bindField target name v) := by
  unfold bindField
  exact .parts

instance (n : Native) : Makes Modest (addFunction n) := by
  unfold addFunction
  exact .parts

instance (name : String) (methods : List Native) : Makes Carries (addClass name methods) := by
  unfold addClass
  exact .parts

instance (e : Event) : Makes Modest (modify (Machine.post e)) := .single fun _ => .of_eq rfl rfl

instance (d : Duration) : Makes Modest (modify (Machine.advance d)) :=
  .single fun _ => .of_eq rfl rfl

theorem HostCall.carries (h : HostCall m m') : Carries m m' := by
  cases h with
  | collect => exact (modest_collected m).toCarries
  | addModule | withHost | advance | post => exact .of_eq rfl rfl
  | _ => exact carries_after _ m

theorem modest_withNatives (h : Heap) (members : Members) (ns : List Native) :
    ReflTransGen Heap.Modest h (withNatives h members ns).1 := by
  induction ns generalizing h members with
  | nil => exact .refl
  | cons n rest ih =>
    refine ((ReflTransGen.single (.intern h n.name)).tail ?_).trans (ih _ _)
    exact .alloc _ (by simp [Body.kind]) (by simp [Body.kind, Kind.isSealed])

theorem modest_withMethods (h : Heap) (methods : Table Kind Members)
    (all : List (Kind × NativeModule)) :
    ReflTransGen Heap.Modest h (withMethods h methods all).1 := by
  induction all generalizing h methods with
  | nil => exact .refl
  | cons e rest ih => exact (modest_withNatives h .empty e.2.functions).trans (ih _ _)

theorem modest_new (config : Config) :
    ReflTransGen Heap.Modest (Heap.withThreshold (UInt64.ofNat config.collectAt)
      (UInt64.ofNat config.collectGrowth)) (new config).heap := by
  have hm := modest_withMethods (Heap.withThreshold (UInt64.ofNat config.collectAt)
    (UInt64.ofNat config.collectGrowth)) .empty Library.methods
  unfold new
  dsimp only
  generalize withMethods _ .empty Library.methods = first at hm ⊢
  exact hm.trans (modest_withNatives first.1 .empty Library.globals.functions)

/-- A new machine has no modules. -/
theorem module_new {config : Config} {id : Handle × Option Handle}
    (hfit : (new config).room ≤ Heap.slotLimit) : (new config).heap.module M ≠ .ok id := by
  intro hid
  obtain ⟨o, ho, hb⟩ := Heap.module_eq_ok.mp hid
  have hrespects := Heap.row_respects (modest_new config) (Heap.withThreshold_wellFormed _ _) hfit
  have hold := (hrespects M o (by rw [Object.kind, hb]; rfl)).mp ho
  rw [get?_withThreshold] at hold
  cases hold

theorem Vacant.scope? (hv : Vacant m) : m.scope? = none := by
  rw [Machine.scope?, frame?, hv.running]
  rfl

theorem Stamped.reset (hs : m.Stamped) : m.reset.Stamped := ⟨nofun, hs.parked⟩

section

variable {host : HostFunctions} {G : Members → Members → Prop} (hh : host.WellBehaved G)
  (hm : ∀ id args, Makes Modest (host.call id args))

include hm

theorem Breaks.stamps (h : Breaks host m m') : Stamps m m' := by
  cases h with
  | start _ h => exact after_error h ▸ stamps_after (Machine.start _) m
  | safePoint h => exact after_error h ▸ (modest_after Machine.safePoint m).toStamps
  | instruction h => exact after_error h ▸ stamps_after (Machine.instruction host) m

theorem Breaks.supplied (h : Breaks host m m') : Supplied m m' := by
  cases h with
  | start _ h => exact after_error h ▸ supplied_start _ m
  | safePoint h => exact after_error h ▸ (modest_after Machine.safePoint m).supplied
  | instruction h => exact after_error h ▸ supplied_instruction m

theorem Happens.supplied (h : Happens host m m') : Supplied m m' := by
  cases h with
  | hostCall _ h => exact h.carries.supplied
  | start _ h => exact after_ok h ▸ supplied_start _ m
  | @fault m₁ h =>
    have hsupplied : Supplied m m₁ := h.supplied hm
    exact ⟨hsupplied.functions, hsupplied.importers⟩
  | step h =>
    cases h with
    | safePoint h => exact (after_ok h ▸ modest_after Machine.safePoint m).supplied
    | instruction h => exact after_ok h ▸ supplied_instruction m
    | outside h => exact h.hostCall.carries.supplied

theorem imported_instruction {id : Handle × Option Handle} (hw : m.heap.WellFormed)
    (hfit : (after (instruction host) m).room ≤ Heap.slotLimit)
    (hid : (after (instruction host) m).heap.module M = .ok id) :
    m.heap.module M = .ok id ∨ m.Importing ∧ m.scope? = some id.2 := by
  by_cases hi : m.Importing
  · exact ((supplied_instruction m).importers hw hfit M id hid).imp_right fun hs => ⟨hi, hs⟩
  · exact .inl ((carries_instruction hi).importers hw hfit M id hid)

theorem Breaks.imported {id : Handle × Option Handle} (h : Breaks host m m')
    (hw : m.heap.WellFormed) (hfit : m'.room ≤ Heap.slotLimit) (hid : m'.heap.module M = .ok id) :
    m.heap.module M = .ok id ∨ m.Importing ∧ m.scope? = some id.2 := by
  cases h with
  | start hv h =>
    have hsupplied : Supplied m m' := after_error h ▸ supplied_start _ m
    refine (hsupplied.importers hw hfit M id hid).imp_right fun hs => ?_
    rw [hv.scope?] at hs
    cases hs
  | safePoint h =>
    have hmodest : Modest m m' := after_error h ▸ modest_after Machine.safePoint m
    exact .inl (hmodest.importers hw hfit M id hid)
  | instruction h =>
    have := after_error h
    subst this
    exact imported_instruction hm hw hfit hid

/-- A module that comes is imported by the code at work. -/
theorem Happens.imported {id : Handle × Option Handle} (h : Happens host m m')
    (hw : m.heap.WellFormed) (hfit : m'.room ≤ Heap.slotLimit) (hid : m'.heap.module M = .ok id) :
    m.heap.module M = .ok id ∨ m.Importing ∧ m.scope? = some id.2 := by
  cases h with
  | hostCall _ h => exact .inl (h.carries.importers hw hfit M id hid)
  | start hv h =>
    have hsupplied : Supplied m m' := after_ok h ▸ supplied_start _ m
    refine (hsupplied.importers hw hfit M id hid).imp_right fun hs => ?_
    rw [hv.scope?] at hs
    cases hs
  | fault h => exact h.imported hm hw hfit hid
  | step h =>
    cases h with
    | safePoint h =>
      have hmodest : Modest m m' := after_ok h ▸ modest_after Machine.safePoint m
      exact .inl (hmodest.importers hw hfit M id hid)
    | instruction h =>
      have := after_ok h
      subst this
      exact imported_instruction hm hw hfit hid
    | outside h => exact .inl (h.hostCall.carries.importers hw hfit M id hid)

theorem Happens.stamped (h : Happens host m m') (hw : m.heap.WellFormed)
    (hfit : m'.room ≤ Heap.slotLimit) (hs : m.Stamped) : m'.Stamped := by
  cases h with
  | hostCall _ h => exact h.carries.stamped hw hfit hs
  | start _ h => exact (after_ok h ▸ stamps_after (Machine.start _) m).stamped hw hfit hs
  | fault h => exact ((h.stamps hm).stamped hw hfit hs).reset
  | step h =>
    cases h with
    | safePoint h => exact (after_ok h ▸ modest_after Machine.safePoint m).stamped hw hfit hs
    | instruction h =>
      exact (after_ok h ▸ stamps_after (Machine.instruction host) m).stamped hw hfit hs
    | outside h => exact h.hostCall.carries.stamped hw hfit hs

include hh

/-- Every call of a machine is stamped, through all that happens to it. -/
theorem Grown.stamped (hg : Grown host m) (hfit : m.room ≤ Heap.slotLimit) : m.Stamped := by
  obtain ⟨config, hrow⟩ := hg
  induction hrow with
  | refl =>
    obtain ⟨heap, globals, methods, hmoves, hnew⟩ := exists_new config
    rw [hnew] at hfit ⊢
    have hfibers := Heap.row_sameFibers hmoves (Heap.withThreshold_wellFormed _ _) hfit
    refine ⟨nofun, fun r b hb => ?_⟩
    rw [hfibers.fiberAt] at hb
    cases hb
  | @tail m m' hrow h ih =>
    have hfit₀ := (h.room_le hh).trans hfit
    have hw := (Grown.managed hh ⟨config, hrow⟩ hfit₀).wellFormed
    exact h.stamped hm hw hfit (ih hfit₀)

/-- A module was imported by code of its importer, and has been there since. -/
theorem Grown.imported {id : Handle × Option Handle} (hg : Grown host m)
    (hfit : m.room ≤ Heap.slotLimit) (hid : m.heap.module M = .ok id) :
    ∃ m₁ m₂, Grown host m₁ ∧ m₁.Importing ∧ m₁.scope? = some id.2 ∧ Happens host m₁ m₂ ∧
      m₁.heap.module M ≠ .ok id ∧ m₂.heap.module M = .ok id ∧
      ReflTransGen (fun n n' => Happens host n n' ∧ n'.heap.module M = .ok id) m₂ m := by
  obtain ⟨config, hrow⟩ := hg
  induction hrow with
  | refl => exact absurd hid (module_new hfit)
  | @tail m m' hrow h ih =>
    have hfit₀ := (h.room_le hh).trans hfit
    by_cases hold : m.heap.module M = .ok id
    · obtain ⟨m₁, m₂, hg₁, hi, hs, hstep, hnot, hnew, hstays⟩ := ih hfit₀ hold
      exact ⟨m₁, m₂, hg₁, hi, hs, hstep, hnot, hnew, hstays.tail ⟨h, hid⟩⟩
    · have hw := (Grown.managed hh ⟨config, hrow⟩ hfit₀).wellFormed
      obtain ⟨hi, hs⟩ := (h.imported hm hw hfit hid).resolve_left hold
      exact ⟨m, m', ⟨config, hrow⟩, hi, hs, h, hold, hid, .refl⟩

end

end Machine

end FiberMachine
