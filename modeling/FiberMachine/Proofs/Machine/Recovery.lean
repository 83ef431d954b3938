import FiberMachine.Proofs.Machine.Registry

/-!
# What a program leaves behind

However a program ends, nothing of its fibers is left. What it leaves is a matter of account:
the modules whose code began and the ones whose code ended, and the globals that its
instructions bound. A module whose code did not end is forgotten, so that the same import loads
its file again; everything else that stood in the table of modules stays there, and the globals
are what was bound.
-/

namespace FiberMachine

open Relation (ReflTransGen)

namespace Machine

variable {host : HostFunctions} {G : Members → Members → Prop} {begun m m₁ m' : Machine}
  {own opened closed : Set Handle} {row : List Handle} {bs : List (Handle × Value)}
  {p : Prototype} {outcome : Outcome} {M r : Handle}

/-! ## Accounts -/

/-- The modules whose code begins to run in a step. -/
def opens (m m' : Machine) : Set Handle := {M | ∃ r, Loads r M m m'}

/-- The modules that load and whose code ends in a step. -/
def closes (m m' : Machine) : Set Handle :=
  {M | M ∈ m.loading ∧ ∃ r, m.runningId? = some r ∧ m.role? r = some (.module, some M) ∧
    m'.stateOf? r = some .done}

/-- What a program has done so far: the modules whose code began, the ones whose code ended,
and the globals that its instructions bound. What goes on outside adds nothing. -/
inductive Account (host : HostFunctions) (G : Members → Members → Prop) (begun : Machine) :
    Set Handle → Set Handle → List (Handle × Value) → Machine → Prop
  | begun : Account host G begun ∅ ∅ [] begun
  | start {p : Prototype} {m : Machine} : start p begun = .ok () m →
      Account host G begun ∅ ∅ [] m
  | safePoint {opened closed : Set Handle} {bs : List (Handle × Value)} {found : Bool}
      {m m' : Machine} : Account host G begun opened closed bs m → safePoint m = .ok found m' →
      Account host G begun opened closed bs m'
  | instruction {opened closed : Set Handle} {bs bs' : List (Handle × Value)} {m m' : Machine} :
      Account host G begun opened closed bs m → instruction host m = .ok () m' →
      Defines G m m' bs' →
      Account host G begun (opened ∪ opens m m') (closed ∪ closes m m') (bs ++ bs') m'
  | outside {opened closed : Set Handle} {bs : List (Handle × Value)} {m m' : Machine} :
      Account host G begun opened closed bs m → Outside m m' →
      Account host G begun opened closed bs m'

/-- An account is right: those modules load whose code began and has not ended, all of them are
new and stand in the table, nothing has left it, and the globals are what was bound. -/
structure Balanced (begun : Machine) (opened closed : Set Handle) (bs : List (Handle × Value))
    (m : Machine) : Prop where
  loading : ∀ M, M ∈ m.loading ↔ M ∈ opened ∧ M ∉ closed
  subset : closed ⊆ opened
  entry : ∀ M ∈ opened, ∃ k, m.modules.find? k = some (.ofHandle M)
  new : ∀ M ∈ opened, ∀ k, begun.modules.find? k ≠ some (.ofHandle M)
  kept : ∀ k v, begun.modules.find? k = some v → m.modules.find? k = some v
  globals : m.globals = begun.globals.insertAll bs

theorem balanced_refl (hl : m.loading = []) : Balanced m ∅ ∅ [] m where
  loading M := by simp [hl]
  subset := Set.Subset.rfl
  entry M hM := hM.elim
  new M hM := hM.elim
  kept _ _ h := h
  globals := rfl

theorem Balanced.keeps (hb : Balanced begun opened closed bs m) (hk : Keeps Eq m m') :
    Balanced begun opened closed bs m' where
  loading M := hk.loading ▸ hb.loading M
  subset := hb.subset
  entry M hM := hk.modules ▸ hb.entry M hM
  new := hb.new
  kept k v h := hk.modules ▸ hb.kept k v h
  globals := hk.globals.symm.trans hb.globals

theorem Stocked.isLive (hs : m.Stocked) {k : Handle} (h : m.modules.find? k = some (.ofHandle M)) :
    m.heap.isLive M := by
  obtain ⟨N, hN, hmodule⟩ := hs k _ h
  exact Value.ofHandle_injective hN ▸ hmodule.isLive

theorem Balanced.instruction (hb : Balanced begun opened closed bs m) (hs : m.Stocked)
    (ht : Turnover m m') {bs' : List (Handle × Value)}
    (hd : m'.globals = m.globals.insertAll bs') :
    Balanced begun (opened ∪ opens m m') (closed ∪ closes m m') (bs ++ bs') m' := by
  have hold : ∀ M ∈ opened, m.heap.isLive M := fun M hM => by
    obtain ⟨k, hk⟩ := hb.entry M hM
    exact hs.isLive hk
  have hopens : ∀ M r, Loads r M m m' → M ∉ opened := fun M r hl hM => hl.fresh (hold M hM)
  refine ⟨fun M => ⟨fun hM => ?_, fun hM => ?_⟩, ?_, fun M hM => ?_, fun M hM k hk => ?_,
    fun k v h => ht.kept k v (hb.kept k v h), ?_⟩
  · rcases ht.loading M hM with hloads | ⟨r, hl⟩
    · obtain ⟨ho, hc⟩ := (hb.loading M).mp hloads
      refine ⟨.inl ho, fun h => h.elim hc ?_⟩
      rintro ⟨-, r, hr, hrole, hdone⟩
      exact ht.ended r M hr hrole hdone hM
    · refine ⟨.inr ⟨r, hl⟩, fun h => h.elim (fun hc => hopens M r hl (hb.subset hc)) ?_⟩
      rintro ⟨hloads, -⟩
      exact hopens M r hl ((hb.loading M).mp hloads).1
  · obtain ⟨hM, hnot⟩ := hM
    rw [Set.mem_union, not_or] at hnot
    rcases hM with ho | ⟨r, hl⟩
    · have hloads := (hb.loading M).mpr ⟨ho, hnot.1⟩
      exact (ht.ends M hloads).resolve_right fun h => hnot.2 ⟨hloads, h⟩
    · exact hl.loading
  · refine Set.union_subset (fun M hM => .inl (hb.subset hM)) ?_
    rintro M ⟨hloads, -⟩
    exact .inl ((hb.loading M).mp hloads).1
  · rcases hM with ho | ⟨r, hl⟩
    · obtain ⟨k, hk⟩ := hb.entry M ho
      exact ⟨k, ht.kept k _ hk⟩
    · exact hl.entry
  · rcases hM with ho | ⟨r, hl⟩
    · exact hb.new M ho k hk
    · exact hl.fresh (hs.isLive (hb.kept k _ hk))
  · rw [hd, hb.globals, Table.insertAll_append]

section

variable (hh : host.WellBehaved G)
include hh

theorem Account.balanced (ha : Account host G begun opened closed bs m) (hb : Managed host begun)
    (hv : Vacant begun) (hfit : m.room ≤ Heap.slotLimit) :
    Managed host m ∧ Balanced begun opened closed bs m := by
  induction ha with
  | begun => exact ⟨hb, balanced_refl hv.loading⟩
  | @start p m h =>
    exact ⟨hb.happens hh (.start hv h) hfit,
      (balanced_refl hv.loading).keeps (after_ok h ▸ keeps_after Eq (Machine.start p) begun)⟩
  | @safePoint opened closed bs found m m' _ h ih =>
    have hstep : Happens host m m' := .step (.safePoint h)
    obtain ⟨hm, hbalanced⟩ := ih ((hstep.room_le hh).trans hfit)
    exact ⟨hm.happens hh hstep hfit,
      hbalanced.keeps (after_ok h ▸ handover_after Machine.safePoint _).keeps⟩
  | @instruction opened closed bs bs' m m' _ h hd ih =>
    have hstep : Happens host m m' := .step (.instruction h)
    have hfit₀ := (hstep.room_le hh).trans hfit
    obtain ⟨hm, hbalanced⟩ := ih hfit₀
    obtain ⟨own, row, hl⟩ := hm.loaders
    have ht := hl.toNested.turnover_instruction hh.intrudes hh.whatever hm.stocked h hfit
    exact ⟨hm.happens hh hstep hfit,
      hbalanced.instruction hm.stocked ht hd.globals⟩
  | @outside opened closed bs m m' _ h ih =>
    have hstep : Happens host m m' := .step (.outside h)
    obtain ⟨hm, hbalanced⟩ := ih ((hstep.room_le hh).trans hfit)
    exact ⟨hm.happens hh hstep hfit, hbalanced.keeps h.keeps⟩

/-- The account of a program is kept through all its steps. -/
theorem Account.steps [IsPreorder Members G] (hG : ∀ g g', G g g' → Inserted g g')
    (ha : Account host G begun opened closed bs m) (hb : Managed host begun) (hv : Vacant begun)
    (h : ReflTransGen (Steps host) m m') (hfit : m'.room ≤ Heap.slotLimit) :
    ∃ opened' closed' bs', Account host G begun opened' closed' bs' m' := by
  have := hh.keeps
  induction h with
  | refl => exact ⟨opened, closed, bs, ha⟩
  | @tail m₁ m' _ hs ih =>
    have hfit₁ := ((Happens.step hs).room_le hh).trans hfit
    obtain ⟨opened₁, closed₁, bs₁, ha₁⟩ := ih hfit₁
    cases hs with
    | safePoint h => exact ⟨_, _, _, ha₁.safePoint h⟩
    | instruction h =>
      obtain ⟨hm, -⟩ := ha₁.balanced hh hb hv hfit₁
      obtain ⟨bs', hd⟩ := defines_instruction hG hm.wellFormed hm.stocked h hfit
      exact ⟨_, _, _, ha₁.instruction h hd⟩
    | outside h => exact ⟨_, _, _, ha₁.outside h⟩

/-! ## How programs end -/

end

/-- The globals that something which fails has bound. Only a native function of the host may have
bound some, before it failed itself. -/
inductive Spills (host : HostFunctions) (G : Members → Members → Prop) (m m' : Machine) :
    List (Handle × Value) → Prop
  | nothing : m'.globals = m.globals → Spills host G m m' []
  | hostFails {m₀ : Machine} {bs : List (Handle × Value)} : Spared m m₀ → HostFails host m₀ m' →
      G m.globals m'.globals → m'.globals = m.globals.insertAll bs → Spills host G m m' bs

theorem Spills.globals (h : Spills host G m m' bs) : m'.globals = m.globals.insertAll bs := by
  cases h with
  | nothing h => exact h
  | hostFails _ _ _ h => exact h

/-- The last machine of an account, and what comes of it when the program is over: with every
module closed it is left as it is, and a fault gives up what is still there. -/
inductive Settled (host : HostFunctions) (G : Members → Members → Prop)
    (opened closed : Set Handle) (last : Machine) :
    List (Handle × Value) → Outcome → Machine → Prop
  | finished : opened ⊆ closed → Settled host G opened closed last [] .finished last
  | halted {cause : Halt} {m₁ : Machine} {bs : List (Handle × Value)} : Breaks host last m₁ →
      Spills host G last m₁ bs → Settled host G opened closed last bs (.halted cause) m₁.reset

/-- What is left of the modules and the globals: the table holds what stood in it at last, but
none of the modules that were opened and not closed; what stood in it when the program began is
still there, so are the modules that were closed, and the keys of the others are free. -/
structure Left (begun : Machine) (opened closed : Set Handle) (bs : List (Handle × Value))
    (last m' : Machine) : Prop where
  table : ∀ k v, m'.modules.find? k = some v ↔
    last.modules.find? k = some v ∧ ∀ M ∈ opened, M ∉ closed → v ≠ .ofHandle M
  kept : ∀ k v, begun.modules.find? k = some v → m'.modules.find? k = some v
  loaded : ∀ M ∈ closed, ∃ k, m'.modules.find? k = some (.ofHandle M)
  free : ∀ M ∈ opened, M ∉ closed → ∀ k, last.modules.find? k = some (.ofHandle M) →
    m'.modules.find? k = none
  globals : m'.globals = begun.globals.insertAll bs

theorem Balanced.left {bs' : List (Handle × Value)} (hb : Balanced begun opened closed bs m)
    (hg : m'.globals = m.globals.insertAll bs')
    (ht : ∀ k v, m'.modules.find? k = some v ↔
      m.modules.find? k = some v ∧ ∀ M ∈ opened, M ∉ closed → v ≠ .ofHandle M) :
    Left begun opened closed (bs ++ bs') m m' where
  table := ht
  kept k v hv := by
    refine (ht k v).mpr ⟨hb.kept k v hv, fun M hM _ he => hb.new M hM k ?_⟩
    rw [← he, hv]
  loaded M hM := by
    obtain ⟨k, hk⟩ := hb.entry M (hb.subset hM)
    refine ⟨k, (ht k _).mpr ⟨hk, fun N _ hN he => hN ?_⟩⟩
    exact Value.ofHandle_injective he ▸ hM
  free M ho hc k hk := by
    rw [Option.eq_none_iff_forall_ne_some]
    intro v hv
    obtain ⟨hlast, hne⟩ := (ht k v).mp hv
    exact hne M ho hc (Option.some.inj (hlast.symm.trans hk))
  globals := by rw [hg, hb.globals, Table.insertAll_append]

theorem Balanced.settled_finished (hb : Balanced begun opened closed bs m) (hl : m.loading = []) :
    Settled host G opened closed m [] .finished m ∧
      Left begun opened closed (bs ++ []) m m := by
  have hsub : opened ⊆ closed := fun M hM => by
    by_contra hc
    have hM := (hb.loading M).mpr ⟨hM, hc⟩
    simp [hl] at hM
  exact ⟨.finished hsub, hb.left rfl fun k v => by
    simpa using fun _ M hM hc => absurd (hsub hM) hc⟩

section

variable (hh : host.WellBehaved G)
include hh

/-- What fails binds no globals itself. -/
theorem Managed.spills [IsPreorder Members G] (hG : ∀ g g', G g g' → Inserted g g')
    (hm : Managed host m) (h : Breaks host m m₁) (hfit : m₁.room ≤ Heap.slotLimit) :
    ∃ bs, Spills host G m m₁ bs := by
  cases h with
  | start _ h =>
    exact ⟨[], .nothing (after_error h ▸ keeps_after Eq (Machine.start _) m).globals.symm⟩
  | safePoint h =>
    have hkeeps := (after_error h ▸ handover_after Machine.safePoint m).keeps
    exact ⟨[], .nothing hkeeps.globals.symm⟩
  | instruction h =>
    obtain ⟨m₀, hs, -, rfl | hfails⟩ := hm.fails_instruction hh h hfit
    · exact ⟨[], .nothing hs.globals⟩
    · have hg : G m.globals m₁.globals := (hm.breaks hh hh.keeps (.instruction h) hfit).globals
      obtain ⟨bs, hbound⟩ := (hG _ _ hg).exists_insertAll
      exact ⟨bs, .hostFails hs hfails hg hbound⟩

theorem Balanced.settled_halted [IsPreorder Members G] (hG : ∀ g g', G g g' → Inserted g g')
    (hb : Balanced begun opened closed bs m) (hm : Managed host m) (h : Breaks host m m₁)
    (hfit : m₁.room ≤ Heap.slotLimit) (cause : Halt) :
    ∃ bs', Settled host G opened closed m bs' (.halted cause) m₁.reset ∧
      Left begun opened closed (bs ++ bs') m m₁.reset := by
  have hk := hm.breaks hh hh.whatever h hfit
  obtain ⟨bs', hspills⟩ := hm.spills hh hG h hfit
  refine ⟨bs', .halted h hspills, hb.left hspills.globals fun k v => ?_⟩
  rw [find?_reset, hk.modules, hk.loading]
  simp only [hb.loading, and_imp]

/-- A machine has no fiber left when no safe point finds one. -/
theorem Managed.quiescent (hm : Managed host m) (h : safePoint m = .ok false m')
    (hfit : m'.room ≤ Heap.slotLimit) : Quiescent m' := by
  obtain ⟨own, row, hl⟩ := hm.loaders
  obtain ⟨-, -, -, hrest⟩ := hl.toNested.safePoint h
  obtain ⟨own', row', hl'⟩ := (hm.happens hh (.step (.safePoint h)) hfit).loaders
  exact (hrest rfl).quiescent (hl'.loading_nil (hrest rfl))

/-- A fault in a program that has come to a managed machine is settled. -/
theorem Account.settled_halted [IsPreorder Members G] (hG : ∀ g g', G g g' → Inserted g g')
    (ha : Account host G begun opened closed bs m) (hb : Managed host begun) (hv : Vacant begun)
    (h : Breaks host m m₁) (hfit : m₁.room ≤ Heap.slotLimit) (cause : Halt) :
    ∃ opened closed bs bs' last, Account host G begun opened closed bs last ∧
      Settled host G opened closed last bs' (.halted cause) m₁.reset ∧
      Left begun opened closed (bs ++ bs') last m₁.reset := by
  obtain ⟨hm, hbalanced⟩ := ha.balanced hh hb hv (((Happens.fault h).room_le hh).trans hfit)
  obtain ⟨bs', hsettled⟩ := hbalanced.settled_halted hh hG hm h hfit cause
  exact ⟨opened, closed, bs, bs', m, ha, hsettled⟩

theorem Concludes.left [IsPreorder Members G] (hG : ∀ g g', G g g' → Inserted g g')
    (h : Concludes host p begun outcome m') (hb : Managed host begun) (hv : Vacant begun)
    (hne : outcome ≠ .unfinished) (hfit : m'.room ≤ Heap.slotLimit) :
    Quiescent m' ∧ ∃ opened closed bs bs' last, Account host G begun opened closed bs last ∧
      Settled host G opened closed last bs' outcome m' ∧
      Left begun opened closed (bs ++ bs') last m' := by
  cases h with
  | unfinished => exact absurd rfl hne
  | @finished m₁ m₂ _ hs hrow hsafe =>
    have hlast : Happens host m₂ m' := .step (.safePoint hsafe)
    have hfit₂ := (hlast.room_le hh).trans hfit
    obtain ⟨opened, closed, bs, ha⟩ :=
      (Account.start hs).steps hh hG hb hv (steps_of_proceeds hrow) hfit₂
    obtain ⟨hm₂, -⟩ := ha.balanced hh hb hv hfit₂
    have hq := hm₂.quiescent hh hsafe hfit
    have ha' := ha.safePoint hsafe
    exact ⟨hq, opened, closed, bs, [], m', ha',
      (ha'.balanced hh hb hv hfit).2.settled_finished hq.loading⟩
  | @unstarted e m₁ hs =>
    exact ⟨quiescent_reset m₁, Account.begun.settled_halted hh hG hb hv (.start hv hs) hfit _⟩
  | @stopped e m₁ m₂ m₃ hs hrow hstops =>
    refine ⟨quiescent_reset m₃, ?_⟩
    obtain ⟨m₄, hsteps, hends⟩ := hstops.steps
    have hbreaks : Breaks host m₄ m₃ := hends.elim .safePoint .instruction
    have hfit₄ := ((Happens.fault hbreaks).room_le hh).trans hfit
    obtain ⟨opened, closed, bs, ha⟩ :=
      (Account.start hs).steps hh hG hb hv ((steps_of_proceeds hrow).trans hsteps) hfit₄
    exact ha.settled_halted hh hG hb hv hbreaks hfit _

end

/-! ## What is guaranteed -/

/-- What holds after every program that a machine runs to its end, be it that the program
finishes or that a fault stops it anywhere, as long as the slots of the heap can be told apart.
Between two programs the host may call into the machine, and post events; while a program runs
time passes. Nothing of the program is left, the table of modules holds no module that was opened
and not closed and everything else that stood there, and the globals are what the executed
instructions bound, down to a function of the host that fails in the last one. A module that was
forgotten is loaded again by the same import. -/
structure RecoveryGuarantees (host : HostFunctions) (G : Members → Members → Prop) : Prop where
  new : ∀ config : Config, Grown host (new config) ∧ Quiescent (new config)
  hostCall : ∀ {m m'}, Grown host m → Vacant m → HostCall m m' → Grown host m' ∧ Vacant m'
  interpret : ∀ {begun p n outcome m'}, begun.interpret host n p = (outcome, m') →
    Concludes host p begun outcome m'
  rests : ∀ {begun p outcome m'}, Grown host begun → Vacant begun →
    Concludes host p begun outcome m' → outcome ≠ .unfinished →
    m'.room ≤ Heap.slotLimit → Grown host m' ∧ Quiescent m'
  leaves : ∀ {begun p outcome m'}, Grown host begun → Vacant begun →
    Concludes host p begun outcome m' → outcome ≠ .unfinished →
    m'.room ≤ Heap.slotLimit → ∃ opened closed bs bs' last,
      Account host G begun opened closed bs last ∧
      Settled host G opened closed last bs' outcome m' ∧
      Left begun opened closed (bs ++ bs') last m'
  again : ∀ {m m' name key}, Grown host m → AsksFile m name key →
    m.modules.find? key = none → instruction host m = .ok () m' → m'.room ≤ Heap.slotLimit →
    ∃ code r M, m.Source (m.nameText name) code ∧ Launched key code r M m m'

theorem recoveryGuarantees [IsPreorder Members G] (hh : host.WellBehaved G)
    (hG : ∀ g g', G g g' → Inserted g g') : RecoveryGuarantees host G := by
  have hmanaged : ∀ {begun p outcome m'}, Grown host begun → Vacant begun →
      Concludes host p begun outcome m' → m'.room ≤ Heap.slotLimit → Managed host begun :=
    fun hg hv h hfit => hg.managed hh ((room_le_of_history hh (h.history hv)).trans hfit)
  refine ⟨fun config => ⟨⟨config, .refl⟩, quiescent_new config⟩,
    fun hg hv h => ⟨hg.happens (.single (.hostCall hv h)), h.vacant hv⟩, concludes_of_interpret,
    fun hg hv h hne hfit => ?_, fun hg hv h hne hfit => ?_,
    fun hg ha hfree h hfit => hg.launched hh ha hfree h hfit⟩
  · have hleft := h.left hh hG (hmanaged hg hv h hfit) hv hne hfit
    exact ⟨hg.happens (h.history hv), hleft.1⟩
  · exact (h.left hh hG (hmanaged hg hv h hfit) hv hne hfit).2

/-- A module whose code fails. -/
def broken : Prototype where
  name := "broken"
  arity := 0
  isAsync := false
  code := #[Opcode.pushNil.toByte, Opcode.pushNil.toByte, Opcode.add.toByte, Opcode.ret.toByte]
  constants := []
  lines := #[]

/-- A program that imports the module. -/
def retrying : Prototype where
  name := "script"
  arity := 0
  isAsync := false
  code := #[Opcode.importModule.toByte, 0, 0, Opcode.pushNil.toByte, Opcode.ret.toByte]
  constants := [.text "broken"]
  lines := #[]

def retrying₀ : Machine := withCode [("broken.ember", broken)]

/-- The machine after the program has run once. -/
def retrying₁ : Machine := (retrying₀.interpret Probe.host 8 retrying).2

/-- The machine in which the program begins again. -/
def retrying₂ : Machine := after (start retrying) retrying₁

def retrying₃ : Machine := after (instruction Probe.host) retrying₂

/-- The code of a module fails, and the same import loads its file again. -/
theorem recoveryGuarantees_probe : RecoveryGuarantees Probe.host Eq ∧
    Grown Probe.host retrying₀ ∧ Vacant retrying₀ ∧
    retrying₀.interpret Probe.host 8 retrying =
      (.halted (.faulted (.typeMismatch "addition" "numbers, strings or an array" "nil and nil")
        ["[line ?] in broken()"]), retrying₁) ∧
    start retrying retrying₁ = .ok () retrying₂ ∧
    instruction Probe.host retrying₂ = .ok () retrying₃ ∧ retrying₃.room ≤ Heap.slotLimit ∧
    ∃ name key code r M, AsksFile retrying₂ name key ∧ retrying₂.nameText name = "broken" ∧
      Launched key code r M retrying₂ retrying₃ := by
  have hrecovers : RecoveryGuarantees Probe.host Eq :=
    recoveryGuarantees wellBehaved_probe fun _ _ h => h ▸ .refl
  obtain ⟨hfails, hstart, himport, hfit₁, hfit, hasks⟩ :
      (retrying₀.interpret Probe.host 8 retrying).1 = .halted (.faulted
        (.typeMismatch "addition" "numbers, strings or an array" "nil and nil")
        ["[line ?] in broken()"]) ∧
      yields (start retrying) () retrying₁ = true ∧
      yields (instruction Probe.host) () retrying₂ = true ∧
      retrying₁.room ≤ Heap.slotLimit ∧ retrying₃.room ≤ Heap.slotLimit ∧
      retrying₂.asksAnew "broken" = true := by decide +kernel
  have hstart : start retrying retrying₁ = .ok () retrying₂ := eq_ok_of_yields hstart
  have himport : instruction Probe.host retrying₂ = .ok () retrying₃ := eq_ok_of_yields himport
  obtain ⟨hg, hq⟩ := hrecovers.rests (grown_withCode _) (vacant_withCode _)
    (concludes_of_interpret (interpret_eq hfails)) (by simp) hfit₁
  obtain ⟨name, key, code, r, M, -, ha, htext, hl⟩ :=
    (hg.happens (.single (.start hq.toVacant hstart))).exists_launched wellBehaved_probe himport
      hasks hfit
  exact ⟨hrecovers, grown_withCode _, vacant_withCode _, interpret_eq hfails, hstart, himport, hfit,
    name, key, code, r, M, ha, htext, hl⟩

end Machine

end FiberMachine
