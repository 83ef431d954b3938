import FiberMachine.Proofs.Machine.Turnover

/-!
# What becomes of the globals

Outside calls of native functions the globals change in few ways: a definition of code that
belongs to no module, an assignment to a global, the end of a module's code, and the import
of a native module by code that belongs to no module. Each binds what it says, and nothing
else is bound. Code that belongs to a module binds in the table of the module instead, and what
is bound there is said beside what is bound among the globals.
-/

namespace FiberMachine

open Relation (ReflTransGen)

namespace Table

variable {κ α : Type} [DecidableEq κ]

/-- The table with keys bound one after another. -/
def insertAll (t : Table κ α) (bs : List (κ × α)) : Table κ α :=
  bs.foldl (fun t b => t.insert b.1 b.2) t

@[simp] theorem insertAll_nil (t : Table κ α) : t.insertAll [] = t := rfl

@[simp] theorem insertAll_cons (t : Table κ α) (b : κ × α) (bs : List (κ × α)) :
    t.insertAll (b :: bs) = (t.insert b.1 b.2).insertAll bs := rfl

theorem insertAll_append (t : Table κ α) (bs bs' : List (κ × α)) :
    t.insertAll (bs ++ bs') = (t.insertAll bs).insertAll bs' := List.foldl_append

theorem replace_of_find {k : κ} {a : α} {l : List (κ × α)} (h : find k l = some a) :
    replace k a l = l := by
  induction l with
  | nil => rfl
  | cons e rest ih =>
    obtain ⟨j, b⟩ := e
    by_cases hj : j = k
    · simp only [find, hj, ↓reduceIte, Option.some.injEq] at h
      simp [replace, hj, h]
    · simp only [find, hj, ↓reduceIte] at h
      simp [replace, hj, ih h]

theorem insert_of_find? {t : Table κ α} {k : κ} {a : α} (h : t.find? k = some a) :
    t.insert k a = t := by
  unfold insert
  split
  · simp only [replace_of_find h]
  · rename_i hnone
    cases hnone.symm.trans h

end Table

namespace Heap

variable {h h' : Heap} {r : Handle} {s : String}

/-- Every object is there with its body. -/
def BodiesRemain (h h' : Heap) : Prop := ∀ r b, h.Holds r b → h'.Holds r b

theorem Remains.bodiesRemain (hr : Remains h h') : BodiesRemain h h' := fun _ _ hb => hr.holds hb

theorem BodiesRemain.trans {h₁ : Heap} (hb : BodiesRemain h h₁) (hb' : BodiesRemain h₁ h') :
    BodiesRemain h h' := fun r b hr => hb' r b (hb r b hr)

/-- A member is bound, and every object keeps its body. -/
theorem holds_insertMember {M name : Handle} {v : Value} {b : Body} :
    (h.update M (insertMember name v)).Holds r b ↔ h.Holds r b := by
  unfold Holds
  rw [get?_update]
  split
  · rename_i hr
    simp only [hr, Option.map_eq_some_iff]
    constructor
    · rintro ⟨_, ⟨o, ho, rfl⟩, hb⟩
      exact ⟨o, ho, hb⟩
    · rintro ⟨o, ho, hb⟩
      exact ⟨_, ⟨o, ho, rfl⟩, hb⟩
  · rfl

/-- The modules are all there, each with names bound in its table. -/
def Records (h : Heap) (ws : Handle → List (Handle × Value)) (h' : Heap) : Prop :=
  ∀ M o, h.get? M = some o → o.kind = .module →
    h'.get? M = some (withMembers (o.members.insertAll (ws M)) o)

/-- What is bound in a scope, for each module. -/
def within (scope : Option Handle) (bs : List (Handle × Value)) (M : Handle) :
    List (Handle × Value) := if scope = some M then bs else []

theorem Remains.records (hr : Remains h h') : Records h (fun _ => []) h' :=
  fun M o ho _ => hr M o ho

theorem Records.trans {h₁ : Heap} {ws ws' : Handle → List (Handle × Value)} (hr : Records h ws h₁)
    (hr' : Records h₁ ws' h') : Records h (fun M => ws M ++ ws' M) h' := by
  intro M o ho hk
  rw [hr' M _ (hr M o ho hk) hk, Table.insertAll_append]
  rfl

theorem Records.within_trans {h₁ : Heap} {scope : Option Handle} {bs bs' : List (Handle × Value)}
    (hr : Records h (within scope bs) h₁) (hr' : Records h₁ (within scope bs') h') :
    Records h (within scope (bs ++ bs')) h' := by
  intro M o ho hk
  rw [hr.trans hr' M o ho hk]
  simp only [within]
  split <;> rfl

theorem Remains.within {scope : Option Handle} (hr : Remains h h') : Records h (within scope []) h' := by
  intro M o ho hk
  rw [hr.records M o ho hk]
  simp only [Heap.within, ite_self]

theorem holds_intern (hw : h.WellFormed) (hfit : (h.intern s).1.slots.size ≤ slotLimit) :
    (h.intern s).1.Holds (h.intern s).2 (.text s) :=
  ((hw.intern hfit).find_text s _).mp (find_text_intern hw.toArena hfit)

theorem holds_alloc {b : Body} (ha : h.Arena) (hfit : (h.alloc b).1.slots.size ≤ slotLimit) :
    (h.alloc b).1.Holds (h.alloc b).2 b :=
  ⟨_, (alloc_allocated ha b hfit).get?_self, rfl⟩

end Heap

theorem OperandStack.back?_of_peek {s : OperandStack} {v : Value} (h : s.peek 0 = .ok v) :
    s.values.back? = some v := by
  by_cases hd : 0 < s.values.size
  · rw [peek_of_lt hd] at h
    cases h
    simp [Array.back?]
  · rw [peek_of_le (Nat.not_lt.mp hd)] at h
    cases h

namespace Machine

variable {m m' : Machine} {row : List Handle} {M name : Handle} {u : Unit} {op : Opcode}

/-! ## What instructions bind -/

/-- An instruction of code in a scope names a global, and a value is on top. -/
structure Names (m : Machine) (scope : Option Handle) (name : Handle) (v : Value) : Prop where
  name : readName m = .ok name (m.skip 2)
  scope : ∃ f, m.frame? = some f ∧ f.scope = scope
  top : ∃ t, m.running = some t ∧ t.fiber.stack.values.back? = some v

/-- A native function stands under its name. -/
def Supplies (h : Heap) (n : Native) (b : Handle × Value) : Prop :=
  h.Holds b.1 (.text n.name) ∧ ∃ r, b.2 = .ofHandle r ∧ h.Holds r (.native n)

/-- The functions and numbers of a native module, under their names. -/
def Provides (h : Heap) (native : NativeModule) (bs : List (Handle × Value)) : Prop :=
  ∃ fs ns, bs = fs ++ ns ∧
    List.Forall₂ (Supplies h) native.functions fs ∧
    List.Forall₂ (fun c b => h.Holds b.1 (.text c.1) ∧ b.2 = .ofFloat c.2) native.constants ns

/-- An import of the module with a name, under another one if there is an alias. -/
inductive Imports (m : Machine) : Opcode → Handle → Option Handle → Prop
  | plain {name : Handle} : readName m = .ok name (m.skip 2) → Imports m .importModule name none
  | under {name as : Handle} : readName m = .ok name (m.skip 2) →
      readName (m.skip 2) = .ok as (m.skip 4) → Imports m .importModuleAs name (some as)

/-- The fiber at work runs the code of a module and is about to return from its outermost call. -/
def Completes (m : Machine) (M : Handle) : Prop :=
  ∃ t f, m.running = some t ∧ t.fiber.frames = [f] ∧ t.fiber.role = (.module, some M)

variable (G : Members → Members → Prop)

/-- The globals that an instruction binds when it succeeds, in order. What a native function
of the host does to them is given. -/
inductive Writes (m m' : Machine) : Opcode → List (Handle × Value) → Prop
  | inModule {op : Opcode} {M name : Handle} {v : Value} : op = .defineGlobal ∨ op = .exportGlobal →
      Names m (some M) name v → Writes m m' op []
  | defined {op : Opcode} {name : Handle} {v : Value} : op = .defineGlobal ∨ op = .exportGlobal →
      Names m none name v → Writes m m' op [(name, v)]
  | member {M name : Handle} {v : Value} {o : Object} : Names m (some M) name v →
      m.heap.get? M = some o → o.members.contains name → Writes m m' .setGlobal []
  | assigned {scope : Option Handle} {name : Handle} {v : Value} : Names m scope name v →
      (∀ M ∈ scope, ∀ o, m.heap.get? M = some o → ¬ o.members.contains name) →
      m.globals.contains name → Writes m m' .setGlobal [(name, v)]
  | completed {M name : Handle} {importer : Option Handle} : Completes m M →
      m.heap.module M = .ok (name, importer) → Writes m m' .ret [(name, .ofHandle M)]
  | returned : (∀ M, ¬ Completes m M) → Writes m m' .ret []
  | file {op : Opcode} {name : Handle} {as : Option Handle} : Imports m op name as →
      m.library.find? (m.nameText name) = none → Writes m m' op []
  | scoped {op : Opcode} {M name : Handle} {f : Frame} {as : Option Handle} {native : NativeModule} :
      Imports m op name as → m.library.find? (m.nameText name) = some native →
      m.frame? = some f → f.scope = some M → Writes m m' op []
  | native {op : Opcode} {name : Handle} {f : Frame} {native : NativeModule}
      {bs : List (Handle × Value)} : Imports m op name none →
      m.library.find? (m.nameText name) = some native → m.frame? = some f → f.scope = none →
      Provides m'.heap native bs → Writes m m' op bs
  | alias {op : Opcode} {M name as : Handle} {f : Frame} {native : NativeModule} :
      Imports m op name (some as) → m.library.find? (m.nameText name) = some native →
      m.frame? = some f → f.scope = none → m'.modules.find? as = some (.ofHandle M) →
      Writes m m' op [(as, .ofHandle M)]
  | called {op : Opcode} {bs : List (Handle × Value)} : op = .call ∨ op = .invoke →
      G m.globals (m.globals.insertAll bs) → Writes m m' op bs
  | other {op : Opcode} : ¬ op.binds → op ≠ .ret → op ≠ .importModule ∧ op ≠ .importModuleAs →
      op ≠ .call ∧ op ≠ .invoke → Writes m m' op []

variable {G}

/-! ## Definitions and assignments -/

theorem scopeMembers_eq_ok {members : Members} (h : scopeMembers m = .ok members m') :
    m' = m ∧ ∃ f, m.frame? = some f ∧ ((f.scope = none ∧ members = .empty) ∨
      ∃ M o, f.scope = some M ∧ m.heap.get? M = some o ∧ members = o.members) := by
  obtain ⟨scope, m₁, hscope, hmembers⟩ := bind_eq_ok h
  obtain ⟨rfl, f, hf, rfl⟩ := scope_eq_ok hscope
  cases hM : f.scope with
  | none =>
    simp only [hM] at hmembers
    cases hmembers
    exact ⟨rfl, f, hf, .inl ⟨hM, rfl⟩⟩
  | some M =>
    simp only [hM] at hmembers
    obtain ⟨_, _, hget, hread⟩ := bind_eq_ok hmembers
    cases hget
    obtain ⟨o, m₂, ho, hpure⟩ := bind_eq_ok hread
    obtain ⟨rfl, ho⟩ := object_eq_ok (r := M) ho
    cases hpure
    exact ⟨rfl, f, hf, .inr ⟨M, o, hM, ho, rfl⟩⟩

/-- Bindings are for the globals if there is no module for them. -/
def shared (scope : Option Handle) (bs : List (Handle × Value)) : List (Handle × Value) :=
  if scope.isSome then [] else bs

theorem shared_append (scope : Option Handle) (bs bs' : List (Handle × Value)) :
    shared scope (bs ++ bs') = shared scope bs ++ shared scope bs' := by
  unfold shared
  split <;> rfl

/-- Names are bound in a scope, and every object keeps its body. -/
structure Declares (scope : Option Handle) (bs : List (Handle × Value)) (m m' : Machine) : Prop where
  bodies : m.heap.BodiesRemain m'.heap
  records : m.heap.Records (Heap.within scope bs) m'.heap
  globals : m'.globals = m.globals.insertAll (shared scope bs)

theorem Declares.of_remains {scope : Option Handle} (hr : m.heap.Remains m'.heap)
    (hg : m'.globals = m.globals) : Declares scope [] m m' := by
  refine ⟨hr.bodiesRemain, hr.within, ?_⟩
  unfold shared
  split <;> exact hg

theorem Declares.trans {m₁ : Machine} {scope : Option Handle} {bs bs' : List (Handle × Value)}
    (h : Declares scope bs m m₁) (h' : Declares scope bs' m₁ m') :
    Declares scope (bs ++ bs') m m' where
  bodies := h.bodies.trans h'.bodies
  records := h.records.within_trans h'.records
  globals := by rw [h'.globals, h.globals, shared_append, Table.insertAll_append]

theorem define_eq_ok {scope : Option Handle} {v : Value} (h : define scope name v m = .ok u m') :
    Declares scope [(name, v)] m m' := by
  cases scope with
  | none =>
    cases h
    exact ⟨(Heap.Remains.refl m.heap).bodiesRemain, (Heap.Remains.refl m.heap).records, rfl⟩
  | some N =>
    change change N (Heap.insertMember name v) m = .ok u m' at h
    rw [change_apply] at h
    split at h <;> cases h
    refine ⟨fun _ _ => Heap.holds_insertMember.mpr, fun M o ho hk => ?_, rfl⟩
    simp only [Heap.get?_update, Heap.within, Option.some.injEq]
    by_cases hM : M = N
    · rw [if_pos hM, if_pos hM.symm, ← hM, ho]
      rfl
    · rw [if_neg hM, if_neg (Ne.symm hM), ho]
      rfl

theorem names_skip {scope : Option Handle} {v : Value} (hname : readName m = .ok name (m.skip 2))
    (hscope : ∃ f, (m.skip 2).frame? = some f ∧ f.scope = scope)
    (htop : ∃ t, (m.skip 2).running = some t ∧ t.fiber.stack.values.back? = some v) :
    Names m scope name v where
  name := hname
  scope := by
    obtain ⟨f, hf, rfl⟩ := hscope
    rw [frame?_skip] at hf
    obtain ⟨g, hg, rfl⟩ := Option.map_eq_some_iff.mp hf
    exact ⟨g, hg, rfl⟩
  top := by
    obtain ⟨t, ht, hv⟩ := htop
    obtain ⟨t₀, ht₀, rfl⟩ := Option.map_eq_some_iff.mp ht
    exact ⟨t₀, ht₀, hv⟩

/-- A definition binds the topmost value in the scope of the code. -/
theorem popGlobal_eq_ok {exports : Bool} (h : popGlobal exports m = .ok u m') :
    ∃ scope name v, Names m scope name v ∧ Declares scope [(name, v)] m m' := by
  obtain ⟨name, m₁, hname, hpopped⟩ := bind_eq_ok h
  obtain rfl := readName_eq_ok hname
  obtain ⟨v, m₂, hpop, hscoped⟩ := bind_eq_ok hpopped
  obtain ⟨t, ht⟩ : ∃ t, (m.skip 2).running = some t := by
    cases ht : (m.skip 2).running with
    | none => simp [pop, ht] at hpop
    | some t => exact ⟨t, rfl⟩
  obtain ⟨stack, hstack, rfl⟩ := pop_eq_ok ht hpop
  obtain ⟨scope, m₃, hscope, hdefined⟩ := bind_eq_ok hscoped
  obtain ⟨rfl, f, hf, hfscope⟩ := scope_eq_ok hscope
  obtain ⟨_, m₄, hdefine, hexported⟩ := bind_eq_ok hdefined
  have hnames : Names m scope name v := names_skip hname
    ⟨f, by rw [← hf]; simp [frame?, withStack, ht], hfscope⟩ ⟨t, ht, (OperandStack.pop_eq_ok hstack).2⟩
  obtain ⟨hheap, hexport⟩ : m'.heap = m₄.heap ∧ m'.globals = m₄.globals := by
    cases exports with
    | true =>
      cases hexported
      dsimp only
      split <;> exact ⟨rfl, rfl⟩
    | false =>
      cases hexported
      exact ⟨rfl, rfl⟩
  have hdeclares := define_eq_ok hdefine
  exact ⟨scope, name, v, hnames, hheap ▸ hdeclares.bodies, hheap ▸ hdeclares.records,
    hexport.trans hdeclares.globals⟩

theorem writes_popGlobal (exports : Bool) (hop : op = .defineGlobal ∨ op = .exportGlobal)
    (h : popGlobal exports m = .ok u m') :
    ∃ bs, Writes G m m' op bs ∧ m'.globals = m.globals.insertAll bs := by
  obtain ⟨scope, name, v, hnames, hdeclares⟩ := popGlobal_eq_ok h
  cases scope with
  | some M => exact ⟨_, .inModule hop hnames, hdeclares.globals⟩
  | none => exact ⟨_, .defined hop hnames, hdeclares.globals⟩

/-- An assignment goes to the module of the code if the name is bound there, and else to the
globals. -/
theorem setGlobal_eq_ok (h : setGlobal m = .ok u m') :
    ∃ (f : Frame) (name : Handle) (v : Value), Names m f.scope name v ∧
      ((∃ M o, f.scope = some M ∧ m.heap.get? M = some o ∧ o.members.contains name ∧
          define (some M) name v (m.skip 2) = .ok u m') ∨
        (∀ M ∈ f.scope, ∀ o, m.heap.get? M = some o → ¬ o.members.contains name) ∧
          m.globals.contains name ∧ define none name v (m.skip 2) = .ok u m') := by
  obtain ⟨name, m₁, hname, hpeeked⟩ := bind_eq_ok h
  obtain rfl := readName_eq_ok hname
  obtain ⟨v, m₂, hpeek, hassign⟩ := bind_eq_ok hpeeked
  obtain ⟨t, ht⟩ : ∃ t, (m.skip 2).running = some t := by
    cases ht : (m.skip 2).running with
    | none => simp [peek, ht] at hpeek
    | some t => exact ⟨t, rfl⟩
  obtain ⟨rfl, htop⟩ := peek_eq_ok ht hpeek
  have htop := OperandStack.back?_of_peek htop
  obtain ⟨members, m₃, hmembers, hassigned⟩ := bind_eq_ok hassign
  obtain ⟨rfl, f, hf, hcases⟩ := scopeMembers_eq_ok hmembers
  refine ⟨f, name, v, names_skip hname ⟨f, hf, rfl⟩ ⟨t, ht, htop⟩, ?_⟩
  obtain ⟨_, _, hget, hchosen⟩ := bind_eq_ok hassigned
  cases hget
  split at hchosen
  · rename_i hmember
    rcases hcases with ⟨-, rfl⟩ | ⟨M, o, hM, ho, rfl⟩
    · cases hmember
    · obtain ⟨scope, m₃, hscope, hdefine⟩ := bind_eq_ok hchosen
      obtain ⟨rfl, g, hg, rfl⟩ := scope_eq_ok hscope
      cases hf.symm.trans hg
      rw [hM] at hdefine
      exact .inl ⟨M, o, hM, ho, hmember, hdefine⟩
  · rename_i hmember
    split at hchosen
    · rename_i hglobal
      refine .inr ⟨fun M hM o ho => ?_, hglobal, hchosen⟩
      rcases hcases with ⟨hnone, -⟩ | ⟨N, o', hN, ho', rfl⟩
      · cases hnone.symm.trans hM
      · cases hN.symm.trans hM
        cases ho'.symm.trans ho
        exact hmember
    · cases hchosen

theorem writes_setGlobal (h : setGlobal m = .ok u m') :
    ∃ bs, Writes G m m' .setGlobal bs ∧ m'.globals = m.globals.insertAll bs := by
  obtain ⟨f, name, v, hnames, ⟨M, o, hM, ho, hmember, hdefine⟩ | ⟨hmember, hglobal, hdefine⟩⟩ :=
    setGlobal_eq_ok h
  · rw [hM] at hnames
    exact ⟨[], .member hnames ho hmember, (define_eq_ok hdefine).globals⟩
  · exact ⟨[(name, v)], .assigned hnames hmember hglobal, (define_eq_ok hdefine).globals⟩

/-! ## The end of a module -/

/-- A module is bound in the scope of its importer and among the globals. -/
theorem completeModule_binds (h : completeModule M m = .ok u m') :
    ∃ name importer, m.heap.module M = .ok (name, importer) ∧
      m.heap.Records (Heap.within importer [(name, .ofHandle M)]) m'.heap ∧
      m'.globals = m.globals.insert name (.ofHandle M) := by
  obtain ⟨_, m₁, hm₁, hread⟩ := bind_eq_ok h
  cases hm₁
  obtain ⟨_, m₂, hm₂, hnamed⟩ := bind_eq_ok hread
  cases hm₂
  obtain ⟨⟨name, importer⟩, m₃, hmodule, hdefined⟩ := bind_eq_ok hnamed
  obtain ⟨rfl, hread⟩ := except_eq_ok hmodule
  obtain ⟨_, m₄, hinScope, hglobal⟩ := bind_eq_ok hdefined
  have hdeclares := define_eq_ok hinScope
  refine ⟨name, importer, hread, ?_, ?_⟩
  · cases hglobal
    exact hdeclares.records
  · rw [(define_eq_ok hglobal).globals, hdeclares.globals]
    cases importer with
    | some => rfl
    | none => exact Table.insert_of_find? (Table.find?_insert_self ..)

theorem writes_ret (h : returnFromCall m = .ok u m') :
    ∃ bs, Writes G m m' .ret bs ∧ m'.globals = m.globals.insertAll bs := by
  obtain ⟨t, ht, hreturns⟩ := returns_of_ok h
  cases hreturns with
  | on hframes hrest _ _ _ hm =>
    refine ⟨[], .returned fun M hM => ?_, by rw [hm]; rfl⟩
    obtain ⟨t', f', ht', hframes', -⟩ := hM
    cases ht.symm.trans ht'
    rw [hframes] at hframes'
    cases hframes'
    exact hrest rfl
  | @ends f _ below hframes _ hfinish =>
    obtain ⟨t', ht', ⟨M, m₁, hrole, hcomplete, hdepart⟩ | ⟨hrole, hdepart⟩⟩ := finish_cases hfinish
    · cases ht'
      obtain ⟨name, importer, hmodule, -, hglobals⟩ := completeModule_binds hcomplete
      refine ⟨_, .completed ⟨t, f, ht, hframes, hrole⟩ hmodule, ?_⟩
      exact (after_ok hdepart ▸ handover_after (depart _) m₁).keeps.globals.symm.trans hglobals
    · cases ht'
      refine ⟨[], .returned fun M hM => ?_, ?_⟩
      · obtain ⟨t'', f', ht'', -, hM⟩ := hM
        cases ht.symm.trans ht''
        exact hrole M hM
      · exact (after_ok hdepart ▸ handover_after (depart _) _).keeps.globals.symm

/-! ## Imports -/

theorem newNative_eq_ok {scope : Option Handle} {n : Native} {v : Value} (hw : m.heap.WellFormed)
    (h : newNative n m = .ok v m') (hfit : m'.room ≤ Heap.slotLimit) :
    m'.heap.WellFormed ∧ Declares scope [] m m' ∧ ∃ r, v = .ofHandle r ∧ m'.heap.Holds r (.native n) := by
  have hw' := (after_ok h ▸ tends_after (newNative n) m).wellFormed hw hfit
  cases h
  exact ⟨hw', .of_remains (Heap.Remains.alloc hw.toArena _ hfit) rfl, _, rfl,
    Heap.holds_alloc hw.toArena hfit⟩

theorem intern_eq_ok {scope : Option Handle} {s : String} (hw : m.heap.WellFormed)
    (h : intern s m = .ok name m') (hfit : m'.room ≤ Heap.slotLimit) :
    m'.heap.WellFormed ∧ Declares scope [] m m' ∧ m'.heap.Holds name (.text s) := by
  have hw' := (after_ok h ▸ tends_after (intern s) m).wellFormed hw hfit
  cases h
  exact ⟨hw', .of_remains (Heap.Remains.intern hw.toArena s hfit) rfl, Heap.holds_intern hw hfit⟩

theorem defineFunctions_eq_ok {target : Option Handle} {ns : List Native} (hw : m.heap.WellFormed)
    (h : defineFunctions target ns m = .ok u m') (hfit : m'.room ≤ Heap.slotLimit) :
    ∃ fs, Declares target fs m m' ∧ List.Forall₂ (Supplies m'.heap) ns fs := by
  induction ns generalizing m with
  | nil =>
    cases h
    exact ⟨[], .of_remains (.refl _) rfl, .nil⟩
  | cons n rest ih =>
    obtain ⟨v, m₁, hnew, hnamed⟩ := bind_eq_ok h
    obtain ⟨name, m₂, hintern, hdefined⟩ := bind_eq_ok hnamed
    obtain ⟨_, m₃, hdefine, hrest⟩ := bind_eq_ok hdefined
    have htends := after_ok hdefine ▸ tends_after (define target name v) m₂
    have hfit₃ := (after_ok hrest ▸ room_le_after (defineFunctions target rest) m₃).trans hfit
    have hfit₂ := htends.room_le.trans hfit₃
    have hfit₁ := (after_ok hintern ▸ room_le_after (intern n.name) m₁).trans hfit₂
    obtain ⟨hw₁, hbuilt, r, rfl, hr⟩ := newNative_eq_ok hw hnew hfit₁
    obtain ⟨hw₂, hinterned, hname⟩ := @intern_eq_ok _ _ _ target _ hw₁ hintern hfit₂
    obtain ⟨fs, hfs, hsupplied⟩ := ih (htends.wellFormed hw₂ hfit₃) hrest
    have hbound := (define_eq_ok hdefine).trans hfs
    exact ⟨(name, .ofHandle r) :: fs, hbuilt.trans (hinterned.trans hbound),
      .cons ⟨hbound.bodies _ _ hname, r, rfl, (hinterned.trans hbound).bodies _ _ hr⟩ hsupplied⟩

theorem defineNumbers_eq_ok {target : Option Handle} {ns : List (String × Float)}
    (hw : m.heap.WellFormed) (h : defineNumbers target ns m = .ok u m')
    (hfit : m'.room ≤ Heap.slotLimit) : ∃ fs, Declares target fs m m' ∧
      List.Forall₂ (fun c b => m'.heap.Holds b.1 (.text c.1) ∧ b.2 = .ofFloat c.2) ns fs := by
  induction ns generalizing m with
  | nil =>
    cases h
    exact ⟨[], .of_remains (.refl _) rfl, .nil⟩
  | cons n rest ih =>
    obtain ⟨name, m₁, hintern, hdefined⟩ := bind_eq_ok h
    obtain ⟨_, m₂, hdefine, hrest⟩ := bind_eq_ok hdefined
    have htends := after_ok hdefine ▸ tends_after (define target name (.ofFloat n.2)) m₁
    have hfit₂ := (after_ok hrest ▸ room_le_after (defineNumbers target rest) m₂).trans hfit
    have hfit₁ := htends.room_le.trans hfit₂
    obtain ⟨hw₁, hinterned, hname⟩ := intern_eq_ok hw hintern hfit₁
    obtain ⟨fs, hfs, hnamed⟩ := ih (htends.wellFormed hw₁ hfit₂) hrest
    have hbound := (define_eq_ok hdefine).trans hfs
    exact ⟨(name, .ofFloat n.2) :: fs, hinterned.trans hbound,
      .cons ⟨hbound.bodies _ _ hname, rfl⟩ hnamed⟩

/-- A native module brings its functions and its numbers into a scope. -/
theorem defineNative_eq_ok {target : Option Handle} {native : NativeModule}
    (hw : m.heap.WellFormed)
    (h : (do
      defineFunctions target native.functions
      defineNumbers target native.constants : Act Unit) m = .ok u m')
    (hfit : m'.room ≤ Heap.slotLimit) :
    ∃ bs, Declares target bs m m' ∧ Provides m'.heap native bs := by
  obtain ⟨_, m₁, hfunctions, hnumbers⟩ := bind_eq_ok h
  have hfit₁ := (after_ok hnumbers ▸ room_le_after (defineNumbers target native.constants) m₁).trans hfit
  have hw₁ := (after_ok hfunctions ▸ tends_after (defineFunctions target _) m).wellFormed hw hfit₁
  obtain ⟨fs, hfs, hsupplied⟩ := defineFunctions_eq_ok hw hfunctions hfit₁
  obtain ⟨ns, hns, hnamed⟩ := defineNumbers_eq_ok hw₁ hnumbers hfit
  refine ⟨fs ++ ns, hfs.trans hns, fs, ns, rfl, hsupplied.imp fun _ _ hb => ?_, hnamed⟩
  obtain ⟨hname, r, hr, hnative⟩ := hb
  exact ⟨hns.bodies _ _ hname, r, hr, hns.bodies _ _ hnative⟩

theorem Stocked.find?_of_importedModule (hs : m.Stocked) (h : m.importedModule name = some M) :
    m.modules.find? name = some (.ofHandle M) := by
  simp only [importedModule] at h
  cases hv : m.modules.find? name with
  | none => simp [hv] at h
  | some v =>
    obtain ⟨N, rfl, o, ho, hk⟩ := hs name v hv
    simp only [hv, Heap.kindOf?, Value.toHandle?_ofHandle, Option.bind_some, ho, Option.map_some, hk,
      ↓reduceIte] at h
    rw [Option.some.inj h]

theorem aliased_eq_ok {importer : Option Handle} {N : Handle}
    (h : (do
      define importer name (.ofHandle N)
      return N : Act Handle) m = .ok M m') :
    M = N ∧ m'.modules = m.modules ∧ Declares importer [(name, .ofHandle M)] m m' := by
  obtain ⟨_, m₁, hdefine, hpure⟩ := bind_eq_ok h
  cases hpure
  have hk := after_ok hdefine ▸ keeps_after Whatever (define importer name (.ofHandle M)) m
  exact ⟨rfl, hk.modules, define_eq_ok hdefine⟩

/-- An alias stands for the module that stood under it, or for a new one. -/
theorem aliasModule_eq_ok (hw : m.heap.WellFormed) (hs : m.Stocked) {importer : Option Handle}
    (h : aliasModule name importer m = .ok M m') (hfit : m'.room ≤ Heap.slotLimit) :
    (m.modules.find? name = some (.ofHandle M) ∨ ¬ m.heap.isLive M) ∧
      m'.modules.find? name = some (.ofHandle M) ∧ Declares importer [(name, .ofHandle M)] m m' := by
  obtain ⟨_, _, hget, hchosen⟩ := bind_eq_ok h
  cases hget
  cases hi : m.importedModule name with
  | some N =>
    simp only [hi] at hchosen
    obtain ⟨rfl, hmodules, hdeclares⟩ := aliased_eq_ok hchosen
    have hfind := hs.find?_of_importedModule hi
    exact ⟨.inl hfind, hmodules ▸ hfind, hdeclares⟩
  | none =>
    simp only [hi] at hchosen
    obtain ⟨N, m₁, hnew, hdefined⟩ := bind_eq_ok hchosen
    have hdefine : Makes (Keeps Whatever) (do
      define importer name (.ofHandle N)
      return N : Act Handle) := .parts
    have hfit₁ := (after_ok hdefined ▸ @keeps_after _ Whatever _ _ hdefine m₁).room_le.trans hfit
    obtain ⟨rfl, hmodules, hdeclares⟩ := aliased_eq_ok hdefined
    have hshelf := shelved_newModule hw hnew hfit₁
    have hbuilt : Declares importer [] m m₁ := by
      rw [newModule_apply] at hnew
      cases hnew
      exact .of_remains (Heap.Remains.alloc hw.toArena _ hfit₁) rfl
    refine ⟨.inr hshelf.fresh, ?_, hbuilt.trans hdeclares⟩
    rw [hmodules, hshelf.modules, Table.find?_insert_self]

/-- A native module goes into the scope of the code, or into the module that stands for an
alias, and the alias into the scope. -/
theorem importNative_eq_ok (hw : m.heap.WellFormed) (hs : m.Stocked) {native : NativeModule}
    {as : Option Handle} {f : Frame} (hf : m.frame? = some f)
    (h : importNative native as m = .ok u m') (hfit : m'.room ≤ Heap.slotLimit) :
    (as = none ∧ ∃ bs, Provides m'.heap native bs ∧ Declares f.scope bs m m') ∨
      ∃ name N m₁ bs, as = some name ∧
        (m.modules.find? name = some (.ofHandle N) ∨ ¬ m.heap.isLive N) ∧
        m'.modules.find? name = some (.ofHandle N) ∧ Provides m'.heap native bs ∧
        Declares f.scope [(name, .ofHandle N)] m m₁ ∧ Declares (some N) bs m₁ m' := by
  obtain ⟨importer, m₀, hscope, htargeted⟩ := bind_eq_ok h
  obtain ⟨rfl, g, hg, rfl⟩ := scope_eq_ok hscope
  cases hf.symm.trans hg
  cases as with
  | none =>
    obtain ⟨target, m₁, htarget, hdefined⟩ := bind_eq_ok htargeted
    cases htarget
    obtain ⟨bs, hdeclares, hbs⟩ := defineNative_eq_ok hw hdefined hfit
    exact .inl ⟨rfl, bs, hbs, hdeclares⟩
  | some name =>
    obtain ⟨target, m₁, htarget, hdefined⟩ := bind_eq_ok htargeted
    obtain ⟨N, halias, rfl⟩ := map_eq_ok htarget
    have hrest : Makes (Keeps Whatever) (do
      defineFunctions (some N) native.functions
      defineNumbers (some N) native.constants : Act Unit) := .parts
    have hk := after_ok hdefined ▸ @keeps_after _ Whatever _ _ hrest m₁
    have hfit₁ := hk.room_le.trans hfit
    obtain ⟨hfound, hfind, hdeclares⟩ := aliasModule_eq_ok hw hs halias hfit₁
    have hw₁ := (after_ok halias ▸ tends_after (aliasModule name f.scope) m₀).wellFormed hw hfit₁
    obtain ⟨bs, hnative, hbs⟩ := defineNative_eq_ok hw₁ hdefined hfit
    exact .inr ⟨name, N, m₁, bs, rfl, hfound, hk.modules ▸ hfind, hbs, hdeclares, hnative⟩

/-- A native module that code of a module imports binds no global. -/
theorem writes_importNative (hw : m.heap.WellFormed) (hs : m.Stocked) {native : NativeModule}
    {as : Option Handle} {f : Frame} (hf : m.frame? = some f)
    (h : importNative native as m = .ok u m') (hfit : m'.room ≤ Heap.slotLimit) :
    (f.scope.isSome ∧ m'.globals = m.globals) ∨ f.scope = none ∧
      ((∃ bs, as = none ∧ Provides m'.heap native bs ∧ m'.globals = m.globals.insertAll bs) ∨
        ∃ name M, as = some name ∧ m'.modules.find? name = some (.ofHandle M) ∧
          m'.globals = m.globals.insertAll [(name, .ofHandle M)]) := by
  obtain ⟨rfl, bs, hbs, hdeclares⟩ | ⟨name, N, m₁, bs, rfl, -, hfind, -, hdeclares, hfilled⟩ :=
    importNative_eq_ok hw hs hf h hfit
  · have hglobals := hdeclares.globals
    cases hscope : f.scope with
    | some M =>
      rw [hscope] at hglobals
      exact .inl ⟨rfl, hglobals⟩
    | none =>
      rw [hscope] at hglobals
      exact .inr ⟨rfl, .inl ⟨bs, rfl, hbs, hglobals⟩⟩
  · have hglobals : m'.globals = _ := hfilled.globals.trans hdeclares.globals
    cases hscope : f.scope with
    | some M =>
      rw [hscope] at hglobals
      exact .inl ⟨rfl, hglobals⟩
    | none =>
      rw [hscope] at hglobals
      exact .inr ⟨rfl, .inr ⟨name, N, rfl, hfind, hglobals⟩⟩

/-- The code of a module has bound nothing when it begins to run. -/
theorem startModule_globals {key : Handle} {code : Prototype}
    (h : startModule key code m = .ok u m') : m'.globals = m.globals := by
  obtain ⟨importer, m₀, hscope, hlaunch⟩ := bind_eq_ok h
  obtain ⟨rfl, -⟩ := scope_eq_ok hscope
  obtain ⟨M, m₁, hnew, hlisted⟩ := bind_eq_ok hlaunch
  obtain ⟨_, m₂, hlist, hloaded⟩ := bind_eq_ok hlisted
  have hrest : Makes (Keeps Eq) (do
    let function ← Heap.run (·.load (some M) code)
    resume (← newFiber .module function [] none (some M)) : Act Unit) := .parts
  have hk := after_ok hloaded ▸ @keeps_after _ Eq _ _ hrest m₂
  rw [newModule_apply] at hnew
  cases hnew
  cases hlist
  exact hk.globals.symm

theorem importFile_globals {text : String} {key : Handle} (h : importFile text key m = .ok u m') :
    m'.globals = m.globals := by
  obtain ⟨rfl, -⟩ | ⟨m₁, code, hb, -, -, hstart⟩ := importFile_cases h
  · rfl
  · exact (startModule_globals hstart).trans hb.keeps.globals.symm

/-- A module comes from the library of the machine or from a file. -/
theorem importModule_cases {k : Nat} {as : Option Handle}
    (h : importModule name as (m.skip k) = .ok u m') :
    m.library.find? (m.nameText name) = none ∧
        importFile (m.nameText name) (as.getD name) (m.skip k) = .ok u m' ∨
      ∃ native f, m.library.find? (m.nameText name) = some native ∧ m.frame? = some f ∧
        (m.skip k).frame? = some (f.skip k) ∧ importNative native as (m.skip k) = .ok u m' := by
  obtain ⟨_, _, hget, h⟩ := bind_eq_ok h
  cases hget
  have htext : (m.skip k).nameText name = m.nameText name := rfl
  have hlibrary : (m.skip k).library = m.library := rfl
  cases hlib : m.library.find? (m.nameText name) with
  | none =>
    simp only [htext, hlibrary, hlib] at h
    exact .inl ⟨rfl, h⟩
  | some native =>
    simp only [htext, hlibrary, hlib] at h
    obtain ⟨importer, m₀, hscope, -⟩ := bind_eq_ok h
    obtain ⟨rfl, g, hg, -⟩ := scope_eq_ok hscope
    obtain ⟨f, hf, rfl⟩ := Option.map_eq_some_iff.mp (frame?_skip k m ▸ hg)
    exact .inr ⟨native, f, rfl, hf, hg, h⟩

theorem writes_importModule (hw : m.heap.WellFormed) (hs : m.Stocked) {k : Nat} {as : Option Handle}
    (hi : Imports m op name as) (h : importModule name as (m.skip k) = .ok u m')
    (hfit : m'.room ≤ Heap.slotLimit) :
    ∃ bs, Writes G m m' op bs ∧ m'.globals = m.globals.insertAll bs := by
  obtain ⟨hlib, hfile⟩ | ⟨native, f, hlib, hf, hg, hnative⟩ := importModule_cases h
  · exact ⟨[], .file hi hlib, importFile_globals (m := m.skip k) hfile⟩
  · have hb := beside_skip k m
    obtain ⟨hscope, hglobals⟩ | ⟨hscope, ⟨bs, rfl, hbs, hglobals⟩ | ⟨key, M, rfl, hM, hglobals⟩⟩ :=
      writes_importNative (m := m.skip k) hw (hb.stocked hs) hg hnative hfit
    · obtain ⟨M, hM⟩ := Option.isSome_iff_exists.mp hscope
      exact ⟨[], .scoped hi hlib hf hM, hglobals⟩
    · exact ⟨bs, .native hi hlib hf hscope hbs, hglobals⟩
    · exact ⟨_, .alias hi hlib hf hscope hM, hglobals⟩

/-- What an import names is read before anything is imported. -/
theorem imports_eq_ok (h : imports op m = .ok u m') : ∃ name as k, Imports m op name as ∧
    importModule name as (m.skip k) = .ok u m' := by
  cases op with
  | importModule =>
    obtain ⟨name, m₁, hname, himport⟩ := bind_eq_ok h
    obtain rfl := readName_eq_ok hname
    exact ⟨name, none, 2, .plain hname, himport⟩
  | importModuleAs =>
    obtain ⟨name, m₁, hname, hread⟩ := bind_eq_ok h
    obtain rfl := readName_eq_ok hname
    obtain ⟨as, m₂, has, himport⟩ := bind_eq_ok hread
    obtain rfl := readName_eq_ok has
    rw [skip_skip] at has himport
    exact ⟨name, some as, 4, .under hname has, himport⟩
  | _ => cases h

theorem writes_imports (hw : m.heap.WellFormed) (hs : m.Stocked) (h : imports op m = .ok u m')
    (hfit : m'.room ≤ Heap.slotLimit) :
    ∃ bs, Writes G m m' op bs ∧ m'.globals = m.globals.insertAll bs := by
  obtain ⟨name, as, k, hi, himport⟩ := imports_eq_ok h
  exact writes_importModule hw hs hi himport hfit

/-! ## All instructions -/

variable {host : HostFunctions}

theorem Inserted.exists_insertAll {g g' : Members} (h : Inserted g g') :
    ∃ bs, g' = g.insertAll bs := by
  induction h with
  | refl => exact ⟨[], rfl⟩
  | tail _ hstep ih =>
    obtain ⟨bs, rfl⟩ := ih
    obtain ⟨k, v, rfl⟩ := hstep
    exact ⟨bs ++ [(k, v)], by rw [Table.insertAll_append]; rfl⟩

/-- Instructions that neither bind, nor call, nor import, nor return leave the globals alone. -/
theorem keeps_other (hbinds : ¬ op.binds) (hret : op ≠ .ret)
    (himport : op ≠ .importModule ∧ op ≠ .importModuleAs) (hcall : op ≠ .call ∧ op ≠ .invoke) :
    Makes (Keeps Eq) (execute host op) := by
  have := keeps_bindings (G := Eq) hbinds
  have := keeps_control (G := Eq) hret
  unfold execute
  cases op with
  | ret => exact absurd rfl hret
  | importModule => exact absurd rfl himport.1
  | importModuleAs => exact absurd rfl himport.2
  | call => exact absurd rfl hcall.1
  | invoke => exact absurd rfl hcall.2
  | _ => infer_instance

theorem writes_execute [IsPreorder Members G] [hk : ∀ id args, Makes (Keeps G) (host.call id args)]
    (hG : ∀ g g', G g g' → Inserted g g') (hw : m.heap.WellFormed) (hs : m.Stocked)
    (h : execute host op m = .ok u m') (hfit : m'.room ≤ Heap.slotLimit) :
    ∃ bs, Writes G m m' op bs ∧ m'.globals = m.globals.insertAll bs := by
  by_cases himport : op ≠ .importModule ∧ op ≠ .importModuleAs
  · by_cases hcall : op ≠ .call ∧ op ≠ .invoke
    · by_cases hret : op = .ret
      · subst hret
        exact writes_ret h
      · by_cases hbinds : op.binds
        · cases op with
          | defineGlobal => exact writes_popGlobal false (.inl rfl) h
          | exportGlobal => exact writes_popGlobal true (.inr rfl) h
          | setGlobal => exact writes_setGlobal h
          | _ => cases hbinds
        · have hmakes : Makes (Keeps Eq) (execute host op) := keeps_other hbinds hret himport hcall
          have hkeeps := after_ok h ▸ @keeps_after _ Eq _ _ hmakes m
          exact ⟨[], .other hbinds hret himport hcall, hkeeps.globals.symm⟩
    · rw [not_and_or, not_not, not_not] at hcall
      have hmakes : Makes (Keeps G) (functions host op) := inferInstance
      have hfunctions : functions host op m = .ok u m' := by rcases hcall with rfl | rfl <;> exact h
      have hkeeps := after_ok hfunctions ▸ @keeps_after _ G _ _ hmakes m
      obtain ⟨bs, hbs⟩ := (hG _ _ hkeeps.globals).exists_insertAll
      exact ⟨bs, .called hcall (hbs ▸ hkeeps.globals), hbs⟩
  · rw [not_and_or, not_not, not_not] at himport
    have himports : imports op m = .ok u m' := by rcases himport with rfl | rfl <;> exact h
    exact writes_imports hw hs himports hfit

/-- The globals that an instruction binds, its opcode being read from the code. -/
structure Defines (G : Members → Members → Prop) (m m' : Machine) (bs : List (Handle × Value)) :
    Prop where
  writes : ∃ f op, m.frame? = some f ∧ f.opcode? = some op ∧ Writes G (m.skip 1) m' op bs
  globals : m'.globals = m.globals.insertAll bs

theorem defines_instruction [IsPreorder Members G]
    [hk : ∀ id args, Makes (Keeps G) (host.call id args)] (hG : ∀ g g', G g g' → Inserted g g')
    (hw : m.heap.WellFormed) (hs : m.Stocked) (h : instruction host m = .ok u m')
    (hfit : m'.room ≤ Heap.slotLimit) : ∃ bs, Defines G m m' bs := by
  obtain ⟨f, op, hf, hop, hexecute⟩ := instruction_eq_ok h
  have hb := beside_skip 1 m
  obtain ⟨bs, hwrites, hglobals⟩ :=
    writes_execute (m := m.skip 1) hG hw (hb.stocked hs) hexecute hfit
  exact ⟨bs, ⟨f, op, hf, hop, hwrites⟩, hglobals⟩

end Machine

end FiberMachine
