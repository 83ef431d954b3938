import FiberMachine.Probe
import FiberMachine.Proofs.Machine.SafePoint

/-!
# Runs keep their fibers in order

A run begins with one fiber in a machine that is at rest. Safe points and instructions keep its
fibers in order, and so does what goes on outside between any two of them: the clock moves, and
the host takes and brings what it likes. So a run that ends well has left every fiber done.
-/

namespace FiberMachine

open Relation (ReflTransGen)

namespace Machine

variable {own : Set Handle} {m m' : Machine} {host : HostFunctions}

/-! ## Machines at rest -/

theorem row_withNatives (h : Heap) (members : Members) (ns : List Native) :
    ReflTransGen Heap.Move h (withNatives h members ns).1 := by
  induction ns generalizing h members with
  | nil => exact .refl
  | cons n rest ih =>
    refine ((ReflTransGen.single (.intern h n.name)).tail ?_).trans (ih _ _)
    exact .alloc _ (by simp [Body.kind]) (by simp [Body.kind])

theorem row_withMethods (h : Heap) (methods : Table Kind Members)
    (all : List (Kind × NativeModule)) :
    ReflTransGen Heap.Move h (withMethods h methods all).1 := by
  induction all generalizing h methods with
  | nil => exact .refl
  | cons e rest ih => exact (row_withNatives h .empty e.2.functions).trans (ih _ _)

/-- A new machine is at rest, with a heap that its library was put into. -/
theorem exists_new (config : Config) : ∃ heap globals methods,
    ReflTransGen Heap.Move (Heap.withThreshold (UInt64.ofNat config.collectAt)
      (UInt64.ofNat config.collectGrowth)) heap ∧
    new config = { heap, config, globals, methods
                   modules := .empty
                   loading := []
                   running := none
                   root := none
                   ready := []
                   events := []
                   timers := .start
                   host := .empty
                   library := Library.standard
                   exported := [] } := by
  have hm := row_withMethods (Heap.withThreshold (UInt64.ofNat config.collectAt)
    (UInt64.ofNat config.collectGrowth)) .empty Library.methods
  unfold new
  dsimp only
  generalize withMethods _ .empty Library.methods = first at hm ⊢
  obtain ⟨h, methods⟩ := first
  have hn := row_withNatives h .empty Library.globals.functions
  dsimp only
  generalize withNatives h .empty Library.globals.functions = second at hn ⊢
  obtain ⟨h', globals⟩ := second
  exact ⟨h', globals, methods, hm.trans hn, rfl⟩

/-- A machine in which no fiber is at work is in order for a run without fibers. -/
theorem orderly_empty (hw : m.heap.WellFormed) (hrun : m.running = none) (hroot : m.root = none)
    (hready : m.ready = []) (htimers : m.timers.pending = [])
    (hevents : ∀ r, .resume r ∈ m.events → m.heap.isLive r ∧ m.heap.fiberAt? r = none) :
    Orderly ∅ m where
  ready := by simp [hready]
  timers := by simp [Timers.fibers, htimers]
  events r hr := Or.inr (hevents r hr)
  scheduled := by
    refine ⟨hw, ⟨⟨[], ?_, List.nodup_nil, by simp, by simp⟩, by simp, by simp⟩, by simp, by simp,
      by simp, by simp [hrun], by simp [hroot]⟩
    rw [awaiting, hrun]
    exact .nobody

theorem Orderly.forget (ho : Orderly own m) (hr : Rest own m) : Orderly ∅ m :=
  orderly_empty ho.scheduled.wellFormed hr.running hr.root hr.ready hr.timers (by simp [hr.events])

theorem orderly_reset (hw : m.heap.WellFormed) : Orderly ∅ m.reset :=
  orderly_empty hw rfl rfl rfl rfl (by simp [reset])

/-! ## The first fiber -/

theorem Scheduled.withRoot {head : Option Handle} {ready wakes : List Handle} {r : Handle}
    (hs : Scheduled own head ready wakes m) (hr : r ∈ own) (hstate : m.stateOf? r ≠ some .done) :
    Scheduled own head ready wakes { m with root := some r } := by
  have hnone : Scheduled own head ready wakes { m with root := none } :=
    hs.of_parts rfl rfl (by simp)
  exact { hnone with
    root := fun q hq => by
      cases hq
      exact ⟨hr, hstate⟩ }

theorem Orderly.start (ho : Orderly own m) {p : Prototype} (h : start p m = .ok () m')
    (hfit' : m'.room ≤ Heap.slotLimit) : Progress own m m' := by
  obtain ⟨function, m₁, hload, h⟩ := bind_eq_ok h
  have hrow : ReflTransGen Move m m₁ := after_ok hload ▸ Makes.row m
  obtain ⟨r, m₂, hnew, h⟩ := bind_eq_ok h
  obtain ⟨f, hf, rfl, rfl⟩ := newFiber_eq_ok hnew
  obtain ⟨_, m₃, hm₃, h⟩ := bind_eq_ok h
  obtain rfl : { m₁.withNewFiber f with root := some (m₁.newFiberHandle f) } = m₃ := by
    simpa [modify_apply] using hm₃
  have hroom : (m₁.withNewFiber f).room ≤ m'.room :=
    after_ok h ▸ room_le_after (resume (m₁.newFiberHandle f))
      { m₁.withNewFiber f with root := some (m₁.newFiberHandle f) }
  have hfit := Nat.le_trans hroom hfit'
  refine ho.progress_row hrow (Nat.le_trans (Heap.size_le_alloc _ _) hfit) fun _ ho₁ => ?_
  have hw := ho₁.scheduled.wellFormed
  obtain ⟨-, hready, hwakes⟩ := ho₁.fresh (not_isLive_newFiber hw hfit)
  have hst : (m₁.withNewFiber f).status? (m₁.newFiberHandle f) = some ⟨.ready, f.caller⟩ := by
    rw [status?_newFiber ho₁.scheduled hfit, Function.update_self, statusOf, hf]
  have hs := (ho₁.scheduled.newFiber hf hfit hready hwakes).withRoot (Set.mem_insert ..) (by
    rw [stateOf?_eq, hst]
    simp)
  have hst' : { m₁.withNewFiber f with root := some (m₁.newFiberHandle f) }.status?
      (m₁.newFiberHandle f) = some ⟨.ready, f.caller⟩ := hst
  obtain ⟨m'', hm'', -, hq, hdone, hs'⟩ := Scheduled.resume hs (Set.mem_insert ..) hst' .ready
  rw [h] at hm''
  cases hm''
  refine ⟨?_, fun r hr hd _ => (hdone r).mpr ?_, fun r hr hn => ?_⟩
  · rw [carried_newFiber ho₁ hfit hq.isFiber]
    refine ⟨?_, ?_⟩
    · have hl := ho₁.toListed.newFiber hw hfit
      have hl' : Listed (insert (m₁.newFiberHandle f) own)
          { m₁.withNewFiber f with root := some (m₁.newFiberHandle f) } :=
        ⟨hl.ready, hl.timers, hl.events⟩
      exact hl'.switched hq
    · rw [hq.ready, hq.wakeups_eq]
      exact hs'
  · exact (stateOf?_newFiber ho₁ hfit hr).trans hd
  · refine absurd ((hq.isFiber r).mpr ?_) hn
    exact (isFiber_newFiber hw hfit r).mpr (Or.inr (ho₁.isFiber hr))

/-! ## What goes on outside -/

/-- What goes on outside a machine. Time passes, and the host takes what was printed and brings
what was asked for. -/
inductive Outside (m : Machine) : Machine → Prop
  | clock (d : Duration) : Outside m (m.advance d)
  | host (host : Host) : Outside m (m.withHost host)

/-- A clock that is moved to a time goes on by what was missing. -/
theorem outside_advanceTo (m : Machine) (now : Duration) : Outside m (m.advanceTo now) := by
  have hnow : m.advanceTo now = m.advance (max m.timers.now now - m.timers.now) := by
    simp only [advanceTo, advance, Timers.advance]
    congr 2
    exact (Nat.add_sub_cancel' (Nat.le_max_left m.timers.now now)).symm
  exact hnow ▸ .clock _

theorem outside_takeOutput (m : Machine) : Outside m m.takeOutput.2 := .host _

theorem Outside.aside (h : Outside m m') : Aside m m' := by
  cases h with
  | clock d => exact .clock m _
  | host host => exact .quiet (.work rfl ⟨rfl, rfl, rfl, rfl, rfl⟩)

/-! ## Steps -/

/-- One thing happens in a run: a safe point or an instruction that succeeds, or something that
goes on outside. -/
inductive Steps (host : HostFunctions) (m m' : Machine) : Prop
  | safePoint {found : Bool} : safePoint m = .ok found m' → Steps host m m'
  | instruction : instruction host m = .ok () m' → Steps host m m'
  | outside : Outside m m' → Steps host m m'

/-- A program goes on with a step of the machine, which is a safe point and an instruction, or
something goes on outside. Time may pass in the middle of a step, too, and a safe point may come
twice, for time can pass while one looks for a fiber. -/
inductive Proceeds (host : HostFunctions) (m m' : Machine) : Prop
  | step {m₁ m₂ : Machine} : safePoint m = .ok true m₁ → ReflTransGen Outside m₁ m₂ →
      instruction host m₂ = .ok () m' → Proceeds host m m'
  | safePoint : safePoint m = .ok true m' → Proceeds host m m'
  | outside : Outside m m' → Proceeds host m m'

/-- A step of a program fails, in the safe point or in the instruction. -/
inductive Stops (host : HostFunctions) (m : Machine) (e : Fault) (m' : Machine) : Prop
  | safePoint : safePoint m = .error e m' → Stops host m e m'
  | instruction {m₁ m₂ : Machine} : safePoint m = .ok true m₁ → ReflTransGen Outside m₁ m₂ →
      instruction host m₂ = .error e m' → Stops host m e m'

theorem proceeds_of_step (h : step host m = .ok true m') : Proceeds host m m' := by
  obtain ⟨found, m₁, hsafe, h⟩ := bind_eq_ok h
  cases found with
  | false => cases h
  | true =>
    obtain ⟨_, m₂, hinst, h⟩ := bind_eq_ok h
    cases h
    exact .step hsafe .refl hinst

theorem safePoint_of_step (h : step host m = .ok false m') : Machine.safePoint m = .ok false m' := by
  obtain ⟨found, m₁, hsafe, h⟩ := bind_eq_ok h
  cases found with
  | false =>
    cases h
    exact hsafe
  | true =>
    obtain ⟨_, m₂, hinst, h⟩ := bind_eq_ok h
    cases h

theorem stops_of_step {e : Fault} (h : step host m = .error e m') : Stops host m e m' := by
  rcases bind_eq_error h with h | ⟨found, m₁, hsafe, h⟩
  · exact .safePoint h
  · cases found with
    | false => cases h
    | true =>
      rcases bind_eq_error h with h | ⟨_, m₂, hinst, h⟩
      · exact .instruction hsafe .refl h
      · cases h

theorem steps_of_outside (h : ReflTransGen Outside m m') : ReflTransGen (Steps host) m m' :=
  ReflTransGen.mono (fun _ _ => .outside) _ _ h

theorem steps_of_proceeds (h : ReflTransGen (Proceeds host) m m') :
    ReflTransGen (Steps host) m m' := by
  induction h with
  | refl => exact .refl
  | tail _ hp ih =>
    cases hp with
    | step hsafe hrow hinst =>
      exact ((ih.tail (.safePoint hsafe)).trans (steps_of_outside hrow)).tail (.instruction hinst)
    | safePoint h => exact ih.tail (.safePoint h)
    | outside h => exact ih.tail (.outside h)

/-- What comes before the fault is a part of the run. -/
theorem Stops.steps {e : Fault} (h : Stops host m e m') : ∃ m₁, ReflTransGen (Steps host) m m₁ ∧
    (Machine.safePoint m₁ = .error e m' ∨ Machine.instruction host m₁ = .error e m') := by
  cases h with
  | safePoint h => exact ⟨m, .refl, .inl h⟩
  | instruction hsafe hrow hinst =>
    exact ⟨_, (steps_of_outside hrow).head (.safePoint hsafe), .inr hinst⟩

theorem Orderly.progress (hh : host.LeavesFibers) (ho : Orderly own m) (hs : Steps host m m')
    (hfit : m'.room ≤ Heap.slotLimit) : Progress own m m' := by
  cases hs with
  | safePoint h =>
    obtain ⟨found, m'', hm'', hsettles, -, -⟩ := ho.safePoint
    rw [h] at hm''
    cases hm''
    exact hsettles.progress
  | instruction h => exact ((turns_instruction hh).leads m () m' h).progress own ho hfit
  | outside h => exact (h.aside.settles ho hfit).progress

theorem tends_of_leavesFibers (hh : host.LeavesFibers) :
    ∀ id args, Makes Tends (host.call id args) :=
  fun id args => (hh id args).mono fun _ _ => Aside.tends

theorem Steps.room_le_of_tends (hh : ∀ id args, Makes Tends (host.call id args))
    (hs : Steps host m m') : m.room ≤ m'.room := by
  cases hs with
  | safePoint h => exact after_ok h ▸ room_le_after Machine.safePoint m
  | instruction h => exact after_ok h ▸ room_le_after (Machine.instruction host) m
  | outside h => exact h.aside.tends.room_le

/-! ## Programs -/

/-- The end of a program that was started, and the machine after it. -/
inductive Concludes (host : HostFunctions) (p : Prototype) (m : Machine) : Outcome → Machine → Prop
  | finished {m₁ m₂ m' : Machine} : start p m = .ok () m₁ → ReflTransGen (Proceeds host) m₁ m₂ →
      safePoint m₂ = .ok false m' → Concludes host p m .finished m'
  | unfinished {m₁ m' : Machine} : start p m = .ok () m₁ → ReflTransGen (Proceeds host) m₁ m' →
      Concludes host p m .unfinished m'
  | unstarted {e : Fault} {m' : Machine} : start p m = .error e m' →
      Concludes host p m (.halted (.faulted e m'.backtrace)) m'.reset
  | stopped {e : Fault} {m₁ m₂ m' : Machine} : start p m = .ok () m₁ →
      ReflTransGen (Proceeds host) m₁ m₂ → Stops host m₂ e m' →
      Concludes host p m (.halted (.faulted e m'.backtrace)) m'.reset

/-- The steps of a run, and how it ends. -/
theorem run_cases (host : HostFunctions) (steps : Nat) (m : Machine) :
    ∃ m₁, ReflTransGen (Proceeds host) m m₁ ∧
      ((∃ m', run host steps m = .ok true m' ∧ step host m₁ = .ok false m') ∨
        run host steps m = .ok false m₁ ∨
        ∃ e m', run host steps m = .error e m' ∧ step host m₁ = .error e m') := by
  induction steps generalizing m with
  | zero => exact ⟨m, .refl, .inr (.inl rfl)⟩
  | succ steps ih =>
    cases hstep : step host m with
    | error e m' =>
      refine ⟨m, .refl, .inr (.inr ⟨e, m', ?_, hstep⟩)⟩
      simp only [run, bind_apply, hstep]
    | ok more m₁ =>
      cases more with
      | false =>
        refine ⟨m, .refl, .inl ⟨m₁, ?_, hstep⟩⟩
        simp only [run, bind_apply, hstep, pure_apply, Bool.false_eq_true, ↓reduceIte]
      | true =>
        obtain ⟨m₂, hrow, hends⟩ := ih m₁
        have hrun : run host (steps + 1) m = run host steps m₁ := by
          simp only [run, bind_apply, hstep, ↓reduceIte]
        exact ⟨m₂, hrow.head (proceeds_of_step hstep), hrun ▸ hends⟩

theorem proceeds_of_run {steps : Nat} (h : run host steps m = .ok false m') :
    ReflTransGen (Proceeds host) m m' := by
  obtain ⟨m₁, hrow, ⟨_, hrun, -⟩ | hrun | ⟨_, _, hrun, -⟩⟩ := run_cases host steps m <;>
    cases h.symm.trans hrun
  exact hrow

/-- To run a program is one way in which it goes on, with a clock that stands still in between. -/
theorem interpret_concludes (host : HostFunctions) (steps : Nat) (p : Prototype) (m : Machine) :
    Concludes host p m (m.interpret host steps p).1 (m.interpret host steps p).2 := by
  cases hstart : start p m with
  | error e m' =>
    simp only [interpret, bind_apply, hstart, settle]
    exact .unstarted hstart
  | ok _ m₁ =>
    obtain ⟨m₂, hrow, ⟨m', hrun, hends⟩ | hrun | ⟨e, m', hrun, hends⟩⟩ := run_cases host steps m₁ <;>
      simp only [interpret, bind_apply, hstart, hrun, settle]
    · exact .finished hstart hrow (safePoint_of_step hends)
    · exact .unfinished hstart hrow
    · exact .stopped hstart hrow (stops_of_step hends)

theorem concludes_of_interpret {p : Prototype} {steps : Nat} {outcome : Outcome}
    (h : m.interpret host steps p = (outcome, m')) : Concludes host p m outcome m' := by
  have hc := interpret_concludes host steps p m
  rwa [h] at hc

theorem interpret_eq {p : Prototype} {steps : Nat} {outcome : Outcome}
    (h : (m.interpret host steps p).1 = outcome) :
    m.interpret host steps p = (outcome, (m.interpret host steps p).2) :=
  Prod.ext h rfl

/-! ## Sessions and runs -/

/-- A machine between two runs, and what the host has done with it before. -/
inductive Session (host : HostFunctions) : Machine → Prop
  | new (config : Config) : Session host (new config)
  | aside {m m' : Machine} : Session host m → Aside m m' → Session host m'
  | concluded {m m' : Machine} {p : Prototype} {outcome : Outcome} : Session host m →
      Concludes host p m outcome m' → outcome ≠ .unfinished → Session host m'

/-- A machine in a run that began with another one, and the fibers of the run so far. -/
inductive Run (host : HostFunctions) (begun : Machine) : Set Handle → Machine → Prop
  | start {m : Machine} {p : Prototype} : start p begun = .ok () m →
      Run host begun (carried ∅ begun m) m
  | step {own : Set Handle} {m m' : Machine} : Run host begun own m → Steps host m m' →
      Run host begun (carried own m m') m'

variable {begun : Machine}

theorem Run.room_le_of_tends (hh : ∀ id args, Makes Tends (host.call id args))
    (hr : Run host begun own m) : begun.room ≤ m.room := by
  induction hr with
  | @start m p h => exact after_ok h ▸ room_le_after (Machine.start p) begun
  | step _ hs ih => exact ih.trans (hs.room_le_of_tends hh)

theorem Run.room_le (hh : host.LeavesFibers) (hr : Run host begun own m) : begun.room ≤ m.room :=
  hr.room_le_of_tends (tends_of_leavesFibers hh)

/-- A run from a machine at rest keeps its fibers in order. -/
theorem Run.orderly (hh : host.LeavesFibers) (hr : Run host begun own m)
    (hbegun : Orderly ∅ begun) (hfit : m.room ≤ Heap.slotLimit) : Orderly own m := by
  induction hr with
  | start h => exact (hbegun.start h hfit).orderly
  | step _ hs ih =>
    have hroom := hs.room_le_of_tends (tends_of_leavesFibers hh)
    exact ((ih (hroom.trans hfit)).progress hh hs hfit).orderly

/-- Of the fibers in a run all are its own that were not there before. -/
theorem Run.isFiber (hr : Run host begun own m) {r : Handle} (h : m.IsFiber r) :
    r ∈ own ∨ begun.IsFiber r := by
  induction hr with
  | start _ =>
    by_cases hb : begun.IsFiber r
    · exact Or.inr hb
    · exact Or.inl ⟨h, Or.inr hb⟩
  | @step own m m' _ _ ih =>
    by_cases hm : m.IsFiber r
    · exact (ih hm).imp (fun hr => ⟨h, Or.inl hr⟩) id
    · exact Or.inl ⟨h, Or.inr hm⟩

theorem Run.steps (hr : Run host begun own m) (h : ReflTransGen (Steps host) m m') :
    ∃ own', Run host begun own' m' := by
  induction h with
  | refl => exact ⟨own, hr⟩
  | tail _ hs ih =>
    obtain ⟨own', hr'⟩ := ih
    exact ⟨_, hr'.step hs⟩

/-- What a program has come to so far. -/
theorem exists_run {p : Prototype} (hstart : start p begun = .ok () m)
    (h : ReflTransGen (Proceeds host) m m') : ∃ own, Run host begun own m' :=
  (Run.start hstart).steps (steps_of_proceeds h)

theorem Concludes.unfinished_run {p : Prototype} (h : Concludes host p begun .unfinished m') :
    ∃ own, Run host begun own m' := by
  cases h with
  | unfinished hstart hrow => exact exists_run hstart hrow

theorem Concludes.finished_run {p : Prototype} (h : Concludes host p begun .finished m') :
    ∃ own m, Run host begun own m ∧ Machine.safePoint m = .ok false m' := by
  cases h with
  | @finished _ m _ hstart hrow hends =>
    obtain ⟨own, hr⟩ := exists_run hstart hrow
    exact ⟨own, m, hr, hends⟩

theorem interpret_unfinished {p : Prototype} {steps : Nat}
    (h : begun.interpret host steps p = (.unfinished, m')) : ∃ own, Run host begun own m' :=
  (concludes_of_interpret h).unfinished_run

theorem orderly_new (config : Config) (hfit : (new config).room ≤ Heap.slotLimit) :
    Orderly ∅ (new config) := by
  obtain ⟨heap, globals, methods, hrow, hnew⟩ := exists_new config
  rw [hnew] at hfit ⊢
  exact orderly_empty (Heap.row_wellFormed hrow (Heap.withThreshold_wellFormed _ _) hfit) rfl rfl
    rfl rfl (by simp)

theorem carried_empty (hf : ∀ r, m'.IsFiber r → m.IsFiber r) : carried ∅ m m' = ∅ := by
  ext r
  simp only [carried, Set.mem_ofPred_eq, Set.mem_empty_iff_false, false_or, iff_false, not_and,
    not_not]
  exact hf r

theorem room_le_of_steps (hh : ∀ id args, Makes Tends (host.call id args))
    (h : ReflTransGen (Steps host) m m') : m.room ≤ m'.room := by
  induction h with
  | refl => exact Nat.le_refl _
  | tail _ hs ih => exact ih.trans (hs.room_le_of_tends hh)

/-- A program that goes on only adds to what a heap has room for. -/
theorem room_le_of_proceeds (hh : ∀ id args, Makes Tends (host.call id args))
    (h : ReflTransGen (Proceeds host) m m') : m.room ≤ m'.room :=
  room_le_of_steps hh (steps_of_proceeds h)

theorem Stops.room_le (hh : ∀ id args, Makes Tends (host.call id args)) {e : Fault}
    (h : Stops host m e m') : m.room ≤ m'.room := by
  obtain ⟨m₁, hrow, h | h⟩ := h.steps
  · exact (room_le_of_steps hh hrow).trans (after_error h ▸ room_le_after Machine.safePoint m₁)
  · exact (room_le_of_steps hh hrow).trans
      (after_error h ▸ room_le_after (Machine.instruction host) m₁)

/-- What stopped a program has kept the heap well-formed, and all its fibers are given up. -/
theorem orderly_stopped (hh : host.LeavesFibers) (ho : Orderly ∅ begun) {p : Prototype}
    {cause : Halt} (h : Concludes host p begun (.halted cause) m')
    (hfit : m'.room ≤ Heap.slotLimit) : Orderly ∅ m' := by
  have htends := tends_of_leavesFibers hh
  cases h with
  | @unstarted e m h =>
    have ht := after_error h ▸ tends_after (start p) begun
    exact orderly_reset (ht.wellFormed ho.scheduled.wellFormed hfit)
  | @stopped e m₁ m₂ m h hrow hstops =>
    obtain ⟨m₃, hsteps, hends⟩ := hstops.steps
    have ht : Tends m₃ m := by
      rcases hends with h | h
      · exact after_error h ▸ tends_after Machine.safePoint m₃
      · exact after_error h ▸ tends_after (Machine.instruction host) m₃
    obtain ⟨own, hr⟩ := exists_run h hrow
    obtain ⟨own₃, hr₃⟩ := hr.steps hsteps
    have ho₃ := hr₃.orderly hh ho (ht.room_le.trans hfit)
    exact orderly_reset (ht.wellFormed ho₃.scheduled.wellFormed hfit)

theorem Concludes.room_le (hh : ∀ id args, Makes Tends (host.call id args)) {p : Prototype}
    {outcome : Outcome} (h : Concludes host p begun outcome m') : begun.room ≤ m'.room := by
  have hbegins : ∀ {m₁ m₂}, start p begun = .ok () m₁ → ReflTransGen (Proceeds host) m₁ m₂ →
      begun.room ≤ m₂.room := fun h hrow =>
    (after_ok h ▸ room_le_after (start p) begun).trans (room_le_of_proceeds hh hrow)
  cases h with
  | finished h hrow hends =>
    exact (hbegins h hrow).trans (after_ok hends ▸ room_le_after Machine.safePoint _)
  | unfinished h hrow => exact hbegins h hrow
  | unstarted h => exact after_error h ▸ room_le_after (start p) begun
  | @stopped e m₁ m₂ m h hrow hstops =>
    have hroom : m₂.room ≤ m.room := hstops.room_le hh
    exact (hbegins h hrow).trans hroom

/-- Between two runs no fiber is at work. -/
theorem Session.orderly (hh : host.LeavesFibers) (hs : Session host m)
    (hfit : m.room ≤ Heap.slotLimit) : Orderly ∅ m := by
  induction hs with
  | new config => exact orderly_new config hfit
  | @aside m m' _ ha ih =>
    have hsettles := ha.settles (ih (ha.tends.room_le.trans hfit)) hfit
    exact carried_empty hsettles.fibers ▸ hsettles.orderly
  | @concluded m m' p outcome _ h hne ih =>
    have ho := ih ((h.room_le (tends_of_leavesFibers hh)).trans hfit)
    cases outcome with
    | unfinished => exact absurd rfl hne
    | halted cause => exact orderly_stopped hh ho h hfit
    | finished =>
      obtain ⟨own, m₁, hrun, hsafe⟩ := h.finished_run
      have hroom : m₁.room ≤ m'.room := after_ok hsafe ▸ room_le_after Machine.safePoint m₁
      obtain ⟨found, m'', hm'', hsettles, -, hrest⟩ :=
        (hrun.orderly hh ho (hroom.trans hfit)).safePoint
      rw [hsafe] at hm''
      cases hm''
      exact hsettles.orderly.forget (hrest rfl)

/-! ## What the scheduler guarantees -/

/-- The fibers of a run at a point between two instructions. -/
structure InOrder (own : Set Handle) (m : Machine) : Prop where
  waiting : ∃ row, Waits m.status? m.awaiting row ∧ row.Nodup ∧
    ∀ r, r ∈ row ↔ r ∈ own ∧ m.stateOf? r = some .waiting
  nobody : m.running = none → ∀ r ∈ own, m.stateOf? r ≠ some .waiting
  out : ∀ r ∈ own, m.heap.fiberAt? r = some none ↔ ∃ t, m.running = some t ∧ t.id = r
  running : ∀ t, m.running = some t → t.id ∈ own ∧ t.fiber.state = .running
  suspended : ∀ r ∈ own, m.wakeups.count r = if m.stateOf? r = some .suspended then 1 else 0
  ready : ∀ r ∈ own, m.ready.count r = if m.stateOf? r = some .ready then 1 else 0

theorem stateOf?_eq_some_iff {r : Handle} {state : FiberState} :
    m.stateOf? r = some state ↔ ∃ caller, m.status? r = some ⟨state, caller⟩ := by
  rw [stateOf?_eq, Option.map_eq_some_iff]
  constructor
  · rintro ⟨⟨_, caller⟩, hs, rfl⟩
    exact ⟨caller, hs⟩
  · rintro ⟨caller, hs⟩
    exact ⟨_, hs, rfl⟩

theorem Orderly.inOrder (ho : Orderly own m) : InOrder own m := by
  have hs := ho.scheduled
  obtain ⟨row, hw, hn, hown, hall⟩ := hs.schedule.chain
  have hmem : ∀ r, r ∈ row ↔ r ∈ own ∧ m.stateOf? r = some .waiting := by
    intro r
    rw [stateOf?_eq_some_iff]
    exact ⟨fun hr => ⟨hown r hr, hw.waiting r hr⟩, fun ⟨hr, c, hc⟩ => hall r hr c hc⟩
  have htimes : ∀ r state, times (m.status? r) state =
      if m.stateOf? r = some state then 1 else 0 := by
    intro r state
    rw [stateOf?_eq, times]
  refine ⟨⟨row, hw, hn, hmem⟩, fun hrun r hr hwait => ?_, fun r hr => ⟨fun hb => ?_, ?_⟩,
    fun t ht => ⟨(hs.running t ht).1, (hs.running t ht).2.1⟩, fun r hr => ?_, fun r hr => ?_⟩
  · rw [awaiting, hrun] at hw
    cases hw
    exact absurd ((hmem r).mpr ⟨hr, hwait⟩) (List.not_mem_nil)
  · exact Option.map_eq_some_iff.mp (hs.out r hr hb)
  · rintro ⟨t, ht, rfl⟩
    exact (hs.running t ht).2.2
  · rw [hs.schedule.wakes r hr, htimes]
  · rw [hs.schedule.ready r hr, htimes]

/-- What holds of every run of every session, as long as the slots of the heap can be told
apart, whatever goes on outside: the fibers of the run are in order between any two
instructions; a safe point ends without a fault, and the number of rounds that its search is
given is enough; a fiber that is done stays done until it is collected, and no other fiber is;
a program that goes on is in a state of the run, and one that finishes leaves no fiber that is
not done. To run a program is one way in which it concludes. -/
structure SchedulerGuarantees (host : HostFunctions) : Prop where
  inOrder : ∀ {begun own m}, Session host begun → Run host begun own m →
    m.room ≤ Heap.slotLimit → InOrder own m
  safePoint : ∀ {begun own m}, Session host begun → Run host begun own m →
    m.room ≤ Heap.slotLimit → ∃ found m', Machine.safePoint m = .ok found m'
  search : ∀ {begun own m}, Session host begun → Run host begun own m →
    m.room ≤ Heap.slotLimit → ∀ n, m.timers.active + 2 ≤ n →
      findFiber n m = findFiber (m.timers.active + 2) m
  done : ∀ {begun own m m'}, Session host begun → Run host begun own m → Steps host m m' →
    m'.room ≤ Heap.slotLimit → ∀ r ∈ own, m.stateOf? r = some .done → m'.IsFiber r →
      m'.stateOf? r = some .done
  lost : ∀ {begun own m m'}, Session host begun → Run host begun own m → Steps host m m' →
    m'.room ≤ Heap.slotLimit → ∀ r ∈ own, ¬ m'.IsFiber r → m.stateOf? r = some .done
  interpret : ∀ {begun p n outcome m'}, begun.interpret host n p = (outcome, m') →
    Concludes host p begun outcome m'
  unfinished : ∀ {begun p m'}, Concludes host p begun .unfinished m' →
    ∃ own, Run host begun own m'
  finished : ∀ {begun p m'}, Session host begun → Concludes host p begun .finished m' →
    m'.room ≤ Heap.slotLimit →
      (∃ own m, Run host begun own m ∧ Machine.safePoint m = .ok false m' ∧
        ∀ r ∈ carried own m m', m'.stateOf? r = some .done) ∧
      ∀ r, m'.IsFiber r → ¬ begun.IsFiber r → m'.stateOf? r = some .done

theorem schedulerGuarantees (hh : host.LeavesFibers) : SchedulerGuarantees host := by
  have horderly : ∀ {begun own m}, Session host begun → Run host begun own m →
      m.room ≤ Heap.slotLimit → Orderly own m := fun hs hr hfit =>
    hr.orderly hh (hs.orderly hh ((hr.room_le hh).trans hfit)) hfit
  have hstep : ∀ {begun own m m'}, Session host begun → Run host begun own m →
      Steps host m m' → m'.room ≤ Heap.slotLimit → Progress own m m' := by
    intro begun own m m' hs hr hst hfit
    have hroom := hst.room_le_of_tends (tends_of_leavesFibers hh)
    exact (horderly hs hr (hroom.trans hfit)).progress hh hst hfit
  refine ⟨fun hs hr hfit => (horderly hs hr hfit).inOrder, fun hs hr hfit => ?_,
    fun hs hr hfit n hn => ?_, fun hs hr hst hfit => (hstep hs hr hst hfit).done,
    fun hs hr hst hfit => (hstep hs hr hst hfit).lost, concludes_of_interpret,
    Concludes.unfinished_run, fun {begun p m'} hs h hfit => ?_⟩
  · obtain ⟨found, m', hm', -⟩ := (horderly hs hr hfit).safePoint
    exact ⟨found, m', hm'⟩
  · obtain ⟨found, m', hfind, -⟩ := (horderly hs hr hfit).findFiber
    rw [hfind n hn, hfind _ (Nat.le_refl _)]
  · obtain ⟨own, m, hr, hsafe⟩ := h.finished_run
    have hroom : m.room ≤ m'.room := after_ok hsafe ▸ room_le_after Machine.safePoint m
    obtain ⟨found, m'', hm'', hsettles, -, hrest⟩ :=
      (horderly hs hr (hroom.trans hfit)).safePoint
    rw [hsafe] at hm''
    cases hm''
    refine ⟨⟨own, m, hr, hsafe, (hrest rfl).done⟩, fun r hf hb => (hrest rfl).done r ?_⟩
    have hown := (hr.isFiber (hsettles.fibers r hf)).resolve_right hb
    exact ⟨hf, Or.inl hown⟩

/-! ## A host that collects, posts events and moves the clock -/

instance (priority := low) {α : Type} (x : Act α) [hx : Makes Move x] : Makes Aside x :=
  hx.mono fun _ _ => .quiet

instance : Makes Aside Machine.collect := .single fun m => .collect m

instance : Makes Aside (modify (Machine.post .collect)) :=
  .single fun _ => .post fun _ h => by cases h

instance (d : Duration) : Makes Aside (modify (Machine.advance d)) := .single fun m => .clock m _

instance (data : UserData) : Makes Still (alloc (.userData data)) := makes_alloc nofun nofun

instance (target : Value) (name : String) (v : Value) : Makes Still (bindField target name v) := by
  unfold bindField
  exact .parts

instance (e : Event) : Makes SameRunning (modify (Machine.post e)) := .single fun _ => rfl

instance (d : Duration) : Makes SameRunning (modify (Machine.advance d)) := .single fun _ => rfl

instance (id : Nat) (args : List Value) : Makes SameRunning (Probe.host.call id args) := by
  simp only [Probe.host]
  split
  · unfold Probe.run Probe.addToField Probe.bumpBox
    exact .parts
  · exact .throw _

theorem leavesFibers_probe : Probe.host.LeavesFibers := by
  intro id args
  simp only [Probe.host]
  split
  · unfold Probe.run Probe.addToField Probe.bumpBox
    exact .parts
  · exact .throw _

/-- Whether an act succeeds with a result. -/
def yields {α : Type} [DecidableEq α] (x : Act α) (a : α) (m : Machine) : Bool :=
  match x m with
  | .ok b _ => b = a
  | .error _ _ => false

theorem eq_ok_of_yields {α : Type} [DecidableEq α] {x : Act α} {a : α}
    (h : yields x a m = true) : x m = .ok a (after x m) := by
  unfold yields at h
  cases hx : x m with
  | ok b m' =>
    simp only [hx, decide_eq_true_eq] at h
    rw [h, after_ok hx]
  | error e m' => simp [hx] at h

theorem eq_error_of_not_yields {x : Act Unit} {m : Machine} (h : yields x () m = false) :
    ∃ e, x m = .error e (after x m) := by
  unfold yields at h
  cases hx : x m with
  | ok u m' => simp [hx] at h
  | error e m' => exact ⟨e, by rw [after_error hx]⟩

/-- The fiber that runs, for a machine in which one does. -/
def runner (m : Machine) : Handle := m.runningId?.getD ⟨0, .zero⟩

/-- An async function that sleeps for a millisecond. -/
def nap : Prototype where
  name := "nap"
  arity := 0
  isAsync := true
  code := #[Opcode.constant.toByte, 0, Opcode.await.toByte, Opcode.ret.toByte]
  constants := [.number 1.0]
  lines := #[]

/-- A program that starts a nap. -/
def napper : Prototype where
  name := "script"
  arity := 0
  isAsync := false
  code := #[Opcode.constant.toByte, 0, Opcode.call.toByte, 0, Opcode.ret.toByte]
  constants := [.function nap]
  lines := #[]

/-- The program comes to a state in which its fiber sleeps, and to its end. -/
theorem schedulerGuarantees_probe : SchedulerGuarantees Probe.host ∧ Session Probe.host (new {}) ∧
    (∃ own m, Run Probe.host (new {}) own m ∧ m.timers.active = 1 ∧ m.room ≤ Heap.slotLimit) ∧
    ∃ m', (new {}).interpret Probe.host 8 napper = (.finished, m') ∧ m'.room ≤ Heap.slotLimit := by
  have hsleeps : ((new {}).interpret Probe.host 5 napper).1 = .unfinished := by decide +kernel
  have hends : ((new {}).interpret Probe.host 8 napper).1 = .finished := by decide +kernel
  obtain ⟨own, hrun⟩ := interpret_unfinished (interpret_eq hsleeps)
  refine ⟨schedulerGuarantees leavesFibers_probe, .new {}, ?_, ?_⟩
  · exact ⟨own, _, hrun, by decide +kernel, by decide +kernel⟩
  · exact ⟨_, interpret_eq hends, by decide +kernel⟩

end Machine
end FiberMachine
