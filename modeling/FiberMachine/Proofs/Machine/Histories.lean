import FiberMachine.Proofs.Machine.Loaders

/-!
# Histories

What happens to a machine from its beginning, one thing after another: while no fiber is left
the host calls into it or starts a program, safe points and instructions follow, time passes
between any two of them, and a fault gives up every fiber and every module that loads. All of it
leaves the fibers and the modules in order, so that between two programs nothing of the earlier
one is left.
-/

namespace FiberMachine

open Relation (ReflTransGen)

namespace Machine

variable {α : Type} {host : HostFunctions} {own : Set Handle} {row : List Handle}
  {m m₁ m' : Machine} {p : Prototype}

/-! ## Machines without fibers -/

/-- No fiber is left, and no module loads. The host may have posted events. -/
structure Vacant (m : Machine) : Prop where
  running : m.running = none
  root : m.root = none
  ready : m.ready = []
  timers : m.timers.pending = []
  loading : m.loading = []

/-- Nothing is left of a program. -/
structure Quiescent (m : Machine) : Prop extends Vacant m where
  events : m.events = []
  operands : m.stackDepth = 0
  calls : m.frameDepth = 0

theorem Vacant.quiescent (hi : Vacant m) (he : m.events = []) : Quiescent m where
  toVacant := hi
  events := he
  operands := by rw [stackDepth, hi.running]; rfl
  calls := by rw [frameDepth, hi.running]; rfl

theorem quiescent_new (config : Config) : Quiescent (new config) := by
  obtain ⟨heap, globals, methods, -, hnew⟩ := exists_new config
  rw [hnew]
  exact Vacant.quiescent ⟨rfl, rfl, rfl, rfl, rfl⟩ rfl

theorem quiescent_reset (m : Machine) : Quiescent m.reset :=
  Vacant.quiescent ⟨rfl, rfl, rfl, rfl, rfl⟩ rfl

theorem Resting.quiescent (hr : Resting m) (hl : m.loading = []) : Quiescent m :=
  Vacant.quiescent ⟨hr.running, hr.root, hr.ready, hr.timers, hl⟩ hr.events

theorem Vacant.after (hi : Vacant m) (x : Act α) [hx : Makes Move x] [Makes (Keeps Whatever) x] :
    Vacant (after x m) := by
  have ho := sameOutline_of_moves (hx.row m)
  have hrun := ho.running
  rw [hi.running, Option.map_none, Option.map_eq_none_iff] at hrun
  exact ⟨hrun, ho.root.trans hi.root, ho.ready.trans hi.ready, ho.timers ▸ hi.timers,
    (keeps_after Whatever x m).loading.trans hi.loading⟩

/-! ## Calls of the host -/

section

variable {G : Members → Members → Prop} [IsPreorder Members G]

instance (name : String) (v : Value) : Makes (Keeps Whatever) (bindGlobal name v) := by
  unfold bindGlobal
  exact .parts

instance (target : Value) (name : String) (v : Value) : Makes (Keeps G) (bindField target name v) := by
  unfold bindField setField setFieldChange
  exact .parts

instance (data : UserData) : Makes (Keeps G) (alloc (.userData data)) := keeps_alloc (by simp)

instance (e : Event) : Makes (Keeps G) (modify (Machine.post e)) :=
  .single fun m => .of_eq rfl rfl rfl (refl_of G m.globals)

instance (d : Duration) : Makes (Keeps G) (modify (Machine.advance d)) :=
  .single fun m => .of_eq rfl rfl rfl (refl_of G m.globals)

instance (n : Native) : Makes (Keeps Whatever) (addFunction n) := by
  unfold addFunction
  exact .parts

instance (name : String) (methods : List Native) :
    Makes (Keeps Whatever) (addClass name methods) := by
  unfold addClass
  exact .parts

end

theorem HostCall.keeps (h : HostCall m m') : Keeps Whatever m m' := by
  cases h with
  | collect => exact (handover_collected m).keeps.whatever
  | addModule | withHost | advance | post => exact .of_eq rfl rfl rfl trivial
  | _ => exact keeps_after Whatever _ m

theorem Outside.hostCall (h : Outside m m') : HostCall m m' := by
  cases h with
  | clock d => exact .advance d
  | host host => exact .withHost host

theorem Outside.keeps (h : Outside m m') : Keeps Eq m m' := by
  cases h <;> exact .of_eq rfl rfl rfl rfl

theorem HostCall.vacant (h : HostCall m m') (hi : Vacant m) : Vacant m' := by
  cases h with
  | collect | addModule | withHost | advance | post =>
    exact ⟨hi.running, hi.root, hi.ready, hi.timers, hi.loading⟩
  | newArray =>
    rename_i items _
    have := makes_alloc (b := .array items) (by simp [Body.kind]) (by simp [Body.kind])
    exact hi.after _
  | _ => exact hi.after _

/-! ## Faults -/

/-- A program cannot be started, or a safe point or an instruction fails. -/
inductive Breaks (host : HostFunctions) (m m' : Machine) : Prop
  | start {p : Prototype} {e : Fault} : Vacant m → start p m = .error e m' → Breaks host m m'
  | safePoint {e : Fault} : safePoint m = .error e m' → Breaks host m m'
  | instruction {e : Fault} : instruction host m = .error e m' → Breaks host m m'

/-- One thing happens to a machine. -/
inductive Happens (host : HostFunctions) (m : Machine) : Machine → Prop
  | hostCall {m' : Machine} : Vacant m → HostCall m m' → Happens host m m'
  | start {m' : Machine} {p : Prototype} : Vacant m → start p m = .ok () m' → Happens host m m'
  | step {m' : Machine} : Steps host m m' → Happens host m m'
  | fault {m' : Machine} : Breaks host m m' → Happens host m m'.reset

/-- What has come of a new machine, whatever its configuration. -/
def Grown (host : HostFunctions) (m : Machine) : Prop :=
  ∃ config : Config, ReflTransGen (Happens host) (new config) m

/-- What goes on in a program is a part of the history of its machine. -/
theorem happens_of_steps (h : ReflTransGen (Steps host) m m') : ReflTransGen (Happens host) m m' :=
  ReflTransGen.mono (fun _ _ => .step) _ _ h

theorem Stops.history {e : Fault} (h : Stops host m e m') :
    ReflTransGen (Happens host) m m'.reset := by
  obtain ⟨m₁, hrow, h | h⟩ := h.steps
  · exact (happens_of_steps hrow).tail (.fault (.safePoint h))
  · exact (happens_of_steps hrow).tail (.fault (.instruction h))

/-- A program is a part of the history of its machine, however it ends. -/
theorem Concludes.history {outcome : Outcome} (hv : Vacant m) (h : Concludes host p m outcome m') :
    ReflTransGen (Happens host) m m' := by
  have hbegins : ∀ {m₁ m₂}, start p m = .ok () m₁ → ReflTransGen (Proceeds host) m₁ m₂ →
      ReflTransGen (Happens host) m m₂ := fun hs hrow =>
    (happens_of_steps (steps_of_proceeds hrow)).head (.start hv hs)
  cases h with
  | finished hs hrow hends => exact (hbegins hs hrow).tail (.step (.safePoint hends))
  | unfinished hs hrow => exact hbegins hs hrow
  | unstarted hs => exact .single (.fault (.start hv hs))
  | stopped hs hrow hstops => exact (hbegins hs hrow).trans hstops.history

theorem Grown.happens (hg : Grown host m) (h : ReflTransGen (Happens host) m m') :
    Grown host m' := by
  obtain ⟨config, hrow⟩ := hg
  exact ⟨config, hrow.trans h⟩

theorem Grown.interpret (hg : Grown host m) (hv : Vacant m) (steps : Nat) (p : Prototype) :
    Grown host (m.interpret host steps p).2 :=
  hg.happens ((interpret_concludes host steps p m).history hv)

/-! ## What stays in order -/

end Machine

open Machine

/-- The native functions of a host keep to what a machine relies on: they are careful with
handles, do no harm and do not work on fibers, and they leave the modules alone. What they do to
the globals is given. -/
structure HostFunctions.WellBehaved (host : HostFunctions) (G : Members → Members → Prop) : Prop where
  careful : host.Careful
  harmless : host.Harmless
  intrudes : host.Intrudes
  keeps : ∀ id args, Makes (Keeps G) (host.call id args)

theorem HostFunctions.WellBehaved.whatever {host : HostFunctions} {G : Members → Members → Prop}
    (hh : host.WellBehaved G) (id : Nat) (args : List Value) :
    Makes (Keeps Whatever) (host.call id args) :=
  (hh.keeps id args).mono fun _ _ h => h.whatever

namespace Machine

variable {host : HostFunctions} {m m' : Machine} {G : Members → Members → Prop}

/-- The fibers and the modules of a machine are in order. -/
structure Managed (host : HostFunctions) (m : Machine) : Prop where
  reachable : Reachable host m
  loaders : ∃ own row, Loaders own row m

theorem Managed.stocked (hm : Managed host m) : m.Stocked := by
  obtain ⟨own, row, hl⟩ := hm.loaders
  exact hl.stocked

theorem Managed.wellFormed (hm : Managed host m) : m.heap.WellFormed := by
  obtain ⟨own, row, hl⟩ := hm.loaders
  exact hl.wellFormed

theorem Vacant.loaders (hv : Vacant m) (hw : m.heap.WellFormed) (hs : m.Stocked) :
    ∃ own row, Loaders own row m :=
  ⟨∅, [], hs.loaders hw hv.running hv.loading⟩

theorem managed_new {config : Config} (hfit : (new config).room ≤ Heap.slotLimit) :
    Managed host (new config) := by
  obtain ⟨heap, globals, methods, hrow, hnew⟩ := exists_new config
  refine ⟨.new config, (quiescent_new config).toVacant.loaders ?_ ?_⟩
  · rw [hnew] at hfit ⊢
    exact Heap.row_wellFormed hrow (Heap.withThreshold_wellFormed _ _) hfit
  · rw [hnew]
    intro k v hv
    cases hv

/-- The modules that load go, and the others stay. -/
theorem find?_reset {k : Handle} {v : Value} : m.reset.modules.find? k = some v ↔
    m.modules.find? k = some v ∧ ∀ M ∈ m.loading, v ≠ .ofHandle M := by
  simp only [reset, Table.find?_filter, Option.filter_eq_some_iff, Bool.not_eq_true',
    List.contains_eq_mem, decide_eq_false_iff_not, List.mem_map, not_exists, not_and, ne_comm]

theorem Stocked.reset (hs : m.Stocked) : m.reset.Stocked :=
  fun k v hv => hs k v (find?_reset.mp hv).1

section

variable (hh : host.WellBehaved G)
include hh

theorem Managed.sound (hm : Managed host m) (hfit : m.room ≤ Heap.slotLimit) : m.Sound :=
  hm.reachable.sound hh.careful hfit

theorem Managed.bounded (hm : Managed host m) : m.Bounded := hm.reachable.bounded hh.harmless

/-- An instruction that fails leaves everything as it was, unless a native function of the host is
called in it and fails. -/
theorem Managed.fails_instruction (hm : Managed host m) {e : Fault}
    (h : instruction host m = .error e m') (hfit : m'.room ≤ Heap.slotLimit) :
    ∃ m₀, Spared m m₀ ∧ Tends m m₀ ∧ (m' = m₀ ∨ HostFails host m₀ m') := by
  have := hh.careful.tends
  have hsound := hm.sound hh ((after_error h ▸ room_le_after (instruction host) m).trans hfit)
  rcases hsound.fails_instruction hh.careful hh.harmless (hm.bounded hh) h hfit with
    hrow | ⟨m₀, hrow, hprepared, hfails⟩
  · have hs := (spared_of_mild hrow hsound.heap.toArena hfit).2
    exact ⟨m', hs, after_error h ▸ tends_after (instruction host) m, .inl rfl⟩
  · obtain ⟨-, -, hcall⟩ := id hfails
    have hfit₀ : m₀.room ≤ Heap.slotLimit :=
      (after_error hcall ▸ room_le_after (host.call _ _) m₀).trans hfit
    exact ⟨m₀, (spared_of_mild hrow hsound.heap.toArena hfit₀).2, hprepared.tends, .inr hfails⟩

/-- The machine that a fault leaves behind has the modules from before, and the globals are those
from before but for what a function of the host did. -/
theorem Managed.breaks {K : Members → Members → Prop} [IsPreorder Members K]
    (hk : ∀ id args, Makes (Keeps K) (host.call id args)) (hm : Managed host m)
    (h : Breaks host m m') (hfit : m'.room ≤ Heap.slotLimit) : Keeps K m m' := by
  cases h with
  | start _ h => exact after_error h ▸ keeps_after K (Machine.start _) m
  | safePoint h =>
    have hkeeps := (after_error h ▸ handover_after Machine.safePoint m).keeps
    exact hkeeps.mono fun g g' hg => hg ▸ refl_of K g
  | instruction h =>
    obtain ⟨m₀, hs, ht, hends⟩ := hm.fails_instruction hh h hfit
    have hkeeps : Keeps K m m₀ := ⟨ht, hs.modules, hs.loading,
      fun _ _ h => h.mono hs.modules fun r => hs.heap.remains.has, hs.globals ▸ refl_of K _⟩
    obtain rfl | ⟨_, _, hcall⟩ := hends
    · exact hkeeps
    · exact hkeeps.trans (after_error hcall ▸ keeps_after K (host.call _ _) m₀)

theorem Managed.reset (hm : Managed host m) (h : Breaks host m m')
    (hfit : m'.room ≤ Heap.slotLimit) : Managed host m'.reset := by
  have hk := hm.breaks hh hh.whatever h hfit
  refine ⟨?_, (quiescent_reset m').toVacant.loaders ?_ ?_⟩
  · cases h with
    | start _ h => exact after_error h ▸ (hm.reachable.start _).reset
    | safePoint h => exact after_error h ▸ hm.reachable.safePoint.reset
    | instruction h => exact after_error h ▸ hm.reachable.instruction.reset
  · exact hk.wellFormed hm.wellFormed hfit
  · exact (hk.stocked hm.wellFormed hfit hm.stocked).reset

theorem Happens.room_le (h : Happens host m m') : m.room ≤ m'.room := by
  have := hh.careful.tends
  cases h with
  | hostCall _ h => exact h.tends.room_le
  | start _ h => exact after_ok h ▸ room_le_after (Machine.start _) m
  | step h =>
    cases h with
    | safePoint h => exact after_ok h ▸ room_le_after Machine.safePoint m
    | instruction h => exact after_ok h ▸ room_le_after (Machine.instruction host) m
    | outside h => exact h.aside.tends.room_le
  | fault h =>
    cases h with
    | start _ h => exact after_error h ▸ room_le_after (Machine.start _) m
    | safePoint h => exact after_error h ▸ room_le_after Machine.safePoint m
    | instruction h => exact after_error h ▸ room_le_after (Machine.instruction host) m

theorem room_le_of_history (h : ReflTransGen (Happens host) m m') : m.room ≤ m'.room := by
  induction h with
  | refl => exact Nat.le_refl _
  | tail _ hs ih => exact ih.trans (hs.room_le hh)

theorem Managed.happens (hm : Managed host m) (h : Happens host m m')
    (hfit : m'.room ≤ Heap.slotLimit) : Managed host m' := by
  cases h with
  | hostCall hv h =>
    have hk := h.keeps
    refine ⟨hm.reachable.hostCall h, (h.vacant hv).loaders ?_ ?_⟩
    · exact hk.wellFormed hm.wellFormed hfit
    · exact hk.stocked hm.wellFormed hfit hm.stocked
  | @start m' p hv h =>
    have hfit₀ := (after_ok h ▸ room_le_after (Machine.start p) m).trans hfit
    have hsound := hm.sound hh hfit₀
    have hbegun := hm.stocked.loaders hm.wellFormed hv.running hv.loading
    have hlead : Leads Shifting (Machine.start p) := inferInstance
    obtain ⟨row, hshifts⟩ := (hlead.leads m () m' h).shifts [] hbegun.toNested hfit
    exact ⟨after_ok h ▸ hm.reachable.start p, _, row,
      hbegun.step hsound (turnover_start hm.wellFormed hv.running hm.stocked h hfit) hshifts⟩
  | step h =>
    have hsound := hm.sound hh (((Happens.step h).room_le hh).trans hfit)
    obtain ⟨own, row, hl⟩ := hm.loaders
    obtain ⟨row', hl'⟩ := hl.steps hh.intrudes hh.whatever hsound h hfit
    refine ⟨?_, _, row', hl'⟩
    cases h with
    | safePoint h => exact after_ok h ▸ hm.reachable.safePoint
    | instruction h => exact after_ok h ▸ hm.reachable.instruction
    | outside h => exact hm.reachable.hostCall h.hostCall
  | fault h => exact hm.reset hh h hfit

theorem Managed.history (hm : Managed host m) (h : ReflTransGen (Happens host) m m')
    (hfit : m'.room ≤ Heap.slotLimit) : Managed host m' := by
  induction h with
  | refl => exact hm
  | tail _ hs ih => exact (ih ((hs.room_le hh).trans hfit)).happens hh hs hfit

theorem Grown.managed (hg : Grown host m) (hfit : m.room ≤ Heap.slotLimit) : Managed host m := by
  obtain ⟨config, hrow⟩ := hg
  exact (managed_new ((room_le_of_history hh hrow).trans hfit)).history hh hrow hfit

end

/-! ## The probing host -/

theorem wellBehaved_probe : Probe.host.WellBehaved Eq where
  careful := Probe.careful_host
  harmless := harmless_probe
  intrudes := intrudes_probe
  keeps id args := by
    simp only [Probe.host]
    split
    · unfold Probe.run Probe.addToField Probe.bumpBox
      exact .parts
    · exact .throw _

end Machine

end FiberMachine
