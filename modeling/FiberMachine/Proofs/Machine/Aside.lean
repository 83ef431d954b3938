import FiberMachine.Proofs.Machine.Order

/-!
# What the host does on the side

Native functions of a host may build objects, collect, post events and move the
clock. They do not switch fibers, and as long as they resume none by an event, the
fibers of a run stay in order. A collection finds every fiber that is not done: the
running one and the queues are roots, and the waiting ones hang on the running one.
-/

namespace FiberMachine

open Relation (ReflTransGen)

namespace Machine

variable {own : Set Handle} {m m' : Machine}

open Heap (Reached)

theorem roots_running {t : Running} (ht : m.running = some t) :
    ∀ r ∈ t.references, r ∈ m.roots := by
  intro r hr
  simp [roots, ht, hr]

theorem roots_ready : ∀ r ∈ m.ready, r ∈ m.roots := by
  intro r hr
  simp [roots, hr]

theorem roots_wakeups : ∀ r ∈ m.wakeups, r ∈ m.roots := by
  intro r hr
  rcases List.mem_append.mp hr with hr | hr
  · simp [roots, hr]
  · simp only [roots, List.mem_append, hr, true_or, or_true]

theorem roots_root {r : Handle} (hr : m.root = some r) : r ∈ m.roots := by
  simp [roots, hr]

theorem Orderly.isLive (ho : Orderly own m) {r : Handle} (hr : r ∈ own) : m.heap.isLive r := by
  obtain ⟨body, hb⟩ := ho.scheduled.fibers r hr
  exact Heap.isLive_of_fiberAt? hb

/-- What a parked fiber refers to is reached with it. -/
theorem reached_caller {r c : Handle} {f : Fiber} (hr : Reached m.heap m.roots r)
    (hb : m.heap.fiberAt? r = some (some f)) (hc : f.caller = some c) (hl : m.heap.isLive c) :
    Reached m.heap m.roots c := by
  obtain ⟨o, ho, hbody⟩ := Option.bind_eq_some_iff.mp hb
  rw [Body.fiber?_eq_some_iff] at hbody
  refine hr.step ho ?_ hl
  simp [Object.references, Body.references, hbody, Fiber.references, hc]

/-- The waiting fibers hang on the running one. -/
theorem Orderly.reached_row (ho : Orderly own m) {start : Option Handle} {row : List Handle}
    (hw : Waits m.status? start row) (hown : ∀ r ∈ row, r ∈ own)
    (hstart : ∀ c ∈ row, start = some c → Reached m.heap m.roots c) :
    ∀ r ∈ row, Reached m.heap m.roots r := by
  induction hw with
  | nobody => simp
  | @next r caller rest hstatus _ ih =>
    have hr := hstart r (List.mem_cons_self ..) rfl
    obtain ⟨f, hf, hfs⟩ := fiber_of_status hstatus (ho.scheduled.ne_running hstatus (by simp))
    intro q hq
    rcases List.mem_cons.mp hq with rfl | hq
    · exact hr
    · refine ih (fun c hc => hown c (List.mem_cons_of_mem _ hc)) (fun c hc hcaller => ?_) q hq
      have hcf : f.caller = some c := by
        rw [← hcaller]
        exact congrArg Status.caller hfs
      exact reached_caller hr hf hcf (ho.isLive (hown c (List.mem_cons_of_mem _ hc)))

theorem mem_of_times {list : List Handle} {r : Handle} {s : Status} {state : FiberState}
    (hc : list.count r = times (some s) state) (hs : s.state = state) : r ∈ list := by
  refine List.count_pos_iff.mp ?_
  rw [hc]
  simp [times, hs]

/-- A fiber of the run has a status, and is the running one if that says so. -/
theorem Scheduled.exists_status {head : Option Handle} {ready wakes : List Handle}
    (hs : Scheduled own head ready wakes m) {r : Handle} (hr : r ∈ own) :
    ∃ s, m.status? r = some s ∧ (s.state = .running → ∃ t, m.running = some t ∧ t.id = r) := by
  by_cases hrun : m.running.map Running.id = some r
  · obtain ⟨t, ht, rfl⟩ := Option.map_eq_some_iff.mp hrun
    exact ⟨_, Machine.status?_running ht, fun _ => ⟨t, ht, rfl⟩⟩
  · obtain ⟨body, hb⟩ := hs.fibers r hr
    cases body with
    | none => exact absurd (hs.out r hr hb) hrun
    | some f =>
      refine ⟨statusOf f, ?_, fun hstate => absurd hstate (hs.parked r hr f hb)⟩
      simp only [status?, parkedStatus?, hb]
      cases ht : m.running with
      | none => rfl
      | some t =>
        rw [ht, Option.map_some, Option.some.injEq] at hrun
        simp [hrun]

/-- Every fiber that is not done is reached. -/
theorem Orderly.reached (ho : Orderly own m) {r : Handle} (hr : r ∈ own)
    (hstate : m.stateOf? r ≠ some .done) : Reached m.heap m.roots r := by
  have hl := ho.isLive hr
  obtain ⟨s, hs, hrunning⟩ := ho.scheduled.exists_status hr
  have hready := ho.scheduled.schedule.ready r hr
  have hwakes := ho.scheduled.schedule.wakes r hr
  rw [hs] at hready hwakes
  rw [stateOf?_eq, hs, Option.map_some, ne_eq, Option.some.injEq] at hstate
  cases hst : s.state with
  | running =>
    obtain ⟨t, ht, rfl⟩ := hrunning hst
    exact .root (roots_running ht _ (List.mem_cons_self ..)) hl
  | ready => exact .root (roots_ready r (mem_of_times hready hst)) hl
  | suspended => exact .root (roots_wakeups r (mem_of_times hwakes hst)) hl
  | done => exact absurd hst hstate
  | waiting =>
    obtain ⟨row, hw, -, hown, hall⟩ := ho.scheduled.schedule.chain
    refine ho.reached_row hw hown (fun c hc hstart => ?_) r (hall r hr s.caller ?_)
    · obtain ⟨t, ht, hcaller⟩ := Option.bind_eq_some_iff.mp hstart
      refine .root (roots_running ht c ?_) (ho.isLive (hown c hc))
      simp [Running.references, Fiber.references, hcaller]
    · rw [hs, ← hst]

/-! ## Collections -/

theorem fiberAt?_collected (hw : m.heap.WellFormed) {r : Handle}
    (hr : Reached m.heap m.roots r) : m.collected.heap.fiberAt? r = m.heap.fiberAt? r := by
  simp only [Heap.fiberAt?, collected, Heap.get?_collect_of_reached hw hr]

theorem isFiber_collected (hw : m.heap.WellFormed) (r : Handle) :
    m.collected.IsFiber r ↔ m.IsFiber r ∧ Reached m.heap m.roots r := by
  by_cases hr : Reached m.heap m.roots r
  · simp only [IsFiber, fiberAt?_collected hw hr, hr, and_true]
  · simp only [hr, and_false, iff_false]
    intro hf
    obtain ⟨body, hb⟩ := Option.isSome_iff_exists.mp hf
    exact hr ((Heap.isLive_collect hw _ r).mp (Heap.isLive_of_fiberAt? hb))

theorem status?_collected (hw : m.heap.WellFormed) {r : Handle}
    (hr : Reached m.heap m.roots r) : m.collected.status? r = m.status? r := by
  have hp : parkedStatus? m.collected.heap r = parkedStatus? m.heap r := by
    simp only [parkedStatus?, fiberAt?_collected hw hr]
  have hsame : m.collected.running = m.running := rfl
  simp only [status?, hsame, hp]

/-- A step that adds no fiber, ends none, and takes none away but those that are done. -/
structure Settles (own : Set Handle) (m m' : Machine) : Prop where
  orderly : Orderly (carried own m m') m'
  fibers : ∀ r, m'.IsFiber r → m.IsFiber r
  done : ∀ r ∈ own, m'.IsFiber r → (m'.stateOf? r = some .done ↔ m.stateOf? r = some .done)
  lost : ∀ r ∈ own, ¬ m'.IsFiber r → m.stateOf? r = some .done

theorem Settles.progress (hs : Settles own m m') : Progress own m m' :=
  ⟨hs.orderly, fun r hr hd hf => (hs.done r hr hf).mpr hd, hs.lost⟩

theorem Settles.mem_carried (hs : Settles own m m') {r : Handle} :
    r ∈ carried own m m' ↔ m'.IsFiber r ∧ r ∈ own := by
  simp only [carried, Set.mem_ofPred_eq]
  exact and_congr_right fun hf => or_iff_left fun hn => hn (hs.fibers r hf)

theorem Settles.carried_trans {m'' : Machine} (ha : Settles own m m')
    (hb : Settles (carried own m m') m' m'') :
    carried (carried own m m') m' m'' = carried own m m'' := by
  ext r
  rw [hb.mem_carried, ha.mem_carried]
  simp only [carried, Set.mem_ofPred_eq]
  constructor
  · rintro ⟨hf, -, hr⟩
    exact ⟨hf, Or.inl hr⟩
  · rintro ⟨hf, hor⟩
    have hf' := hb.fibers r hf
    exact ⟨hf, hf', hor.resolve_right fun hn => hn (ha.fibers r hf')⟩

theorem Settles.trans {m'' : Machine} (ha : Settles own m m')
    (hb : Settles (carried own m m') m' m'') : Settles own m m'' := by
  refine ⟨ha.carried_trans hb ▸ hb.orderly, fun r hf => ha.fibers r (hb.fibers r hf),
    fun r hr hf => ?_,
    fun r hr hn => ?_⟩
  · have hf' := hb.fibers r hf
    exact (hb.done r (ha.mem_carried.mpr ⟨hf', hr⟩) hf).trans (ha.done r hr hf')
  · by_cases hf' : m'.IsFiber r
    · refine (ha.done r hr hf').mp ?_
      exact hb.lost r (ha.mem_carried.mpr ⟨hf', hr⟩) hn
    · exact ha.lost r hr hf'

/-- A step that leaves the same fibers, and the same ones done. -/
theorem Orderly.settles (ho : Orderly own m) (h : Orderly own m')
    (hf : ∀ r, m'.IsFiber r ↔ m.IsFiber r)
    (hd : ∀ r, m'.stateOf? r = some .done ↔ m.stateOf? r = some .done) : Settles own m m' where
  orderly := (carried_eq ho hf).symm ▸ h
  fibers r := (hf r).mp
  done r _ _ := hd r
  lost r hr hn := absurd ((hf r).mpr (ho.isFiber hr)) hn

/-- A collection takes away nothing but fibers that are done. -/
theorem Orderly.settles_collected (ho : Orderly own m) : Settles own m m.collected := by
  have hw := ho.scheduled.wellFormed
  have hmem : ∀ r, r ∈ carried own m m.collected ↔ r ∈ own ∧ Reached m.heap m.roots r := by
    intro r
    simp only [carried, Set.mem_ofPred_eq, isFiber_collected hw]
    constructor
    · rintro ⟨⟨hf, hr⟩, hor⟩
      exact ⟨hor.resolve_right fun hn => hn hf, hr⟩
    · rintro ⟨hr, hreached⟩
      exact ⟨⟨ho.isFiber hr, hreached⟩, Or.inl hr⟩
  refine ⟨⟨⟨fun r hr => ?_, fun r hr => ?_, fun r hr => ?_⟩, ?_⟩, fun r hf => ?_, fun r hr hf => ?_,
    fun r hr hn => ?_⟩
  · exact (hmem r).mpr ⟨ho.ready r hr, .root (roots_ready r hr) (ho.isLive (ho.ready r hr))⟩
  · refine (hmem r).mpr ⟨ho.timers r hr, .root ?_ (ho.isLive (ho.timers r hr))⟩
    exact roots_wakeups r (List.mem_append_left _ hr)
  · have hroot : r ∈ m.roots := by
      refine roots_wakeups r (List.mem_append_right _ (List.mem_filterMap.mpr ⟨_, hr, rfl⟩))
    refine (ho.events r hr).imp (fun h => (hmem r).mpr ⟨h, .root hroot (ho.isLive h)⟩) ?_
    rintro ⟨hl, hb⟩
    have hreached : Reached m.heap m.roots r := .root hroot hl
    exact ⟨(Heap.isLive_collect hw _ r).mpr hreached, (fiberAt?_collected hw hreached).trans hb⟩
  · have hs := ho.scheduled
    have hstatus : ∀ r ∈ carried own m m.collected, m.collected.status? r = m.status? r :=
      fun r hr => status?_collected hw ((hmem r).mp hr).2
    have hat : ∀ r ∈ carried own m m.collected,
        m.collected.heap.fiberAt? r = m.heap.fiberAt? r :=
      fun r hr => fiberAt?_collected hw ((hmem r).mp hr).2
    refine ⟨hw.collect _, ?_, fun r hr => ?_, fun r hr hb => ?_, fun r hr f hb => ?_,
      fun t ht => ?_, fun r hr => ?_⟩
    · refine (hs.schedule.restrict (fun r hr => ((hmem r).mp hr).1) fun r hr c hc => ?_).congr
        hstatus
      refine (hmem r).mpr ⟨hr, ho.reached hr ?_⟩
      rw [stateOf?_eq, hc]
      simp
    · rw [hat r hr]
      exact hs.fibers r ((hmem r).mp hr).1
    · rw [hat r hr] at hb
      exact hs.out r ((hmem r).mp hr).1 hb
    · rw [hat r hr] at hb
      exact hs.parked r ((hmem r).mp hr).1 f hb
    · obtain ⟨hown, hstate, hb⟩ := hs.running t ht
      have hid : t.id ∈ carried own m m.collected := by
        refine (hmem _).mpr ⟨hown, .root (roots_running ht _ ?_) (ho.isLive hown)⟩
        exact List.mem_cons_self ..
      exact ⟨hid, hstate, (hat _ hid).trans hb⟩
    · obtain ⟨hown, hdone⟩ := hs.root r hr
      have hroot : r ∈ carried own m m.collected :=
        (hmem r).mpr ⟨hown, .root (roots_root hr) (ho.isLive hown)⟩
      refine ⟨hroot, ?_⟩
      rwa [stateOf?_eq, hstatus r hroot, ← stateOf?_eq]
  · exact ((isFiber_collected hw r).mp hf).1
  · rw [stateOf?_eq, status?_collected hw ((isFiber_collected hw r).mp hf).2, ← stateOf?_eq]
  · by_contra hstate
    exact hn ((isFiber_collected hw r).mpr ⟨ho.isFiber hr, ho.reached hr hstate⟩)

/-! ## Moves of the host -/

/-- What a native function of the host may do, one thing at a time. An event of its own
resumes no fiber. -/
inductive Aside : Machine → Machine → Prop
  | quiet {m m' : Machine} : Move m m' → Aside m m'
  | collect (m : Machine) : Aside m m.collected
  | post {m : Machine} {event : Event} :
      (∀ r, event = .resume r → m.heap.isLive r ∧ m.heap.fiberAt? r = none) →
      Aside m (m.post event)
  | clock (m : Machine) (now : Duration) : Aside m { m with timers := { m.timers with now } }

theorem Aside.tends (ha : Aside m m') : Tends m m' := by
  cases ha with
  | quiet hm => exact hm.tends
  | collect => exact tends_collected m
  | post _ => exact .of_heap_eq rfl
  | clock _ => exact .of_heap_eq rfl

theorem Aside.runningId?_eq (ha : Aside m m') : m'.runningId? = m.runningId? := by
  cases ha with
  | quiet hm => exact hm.runningId?_eq
  | _ => rfl

theorem Orderly.post (ho : Orderly own m) {event : Event}
    (he : ∀ r, event = .resume r → m.heap.isLive r ∧ m.heap.fiberAt? r = none) :
    Orderly own (m.post event) where
  ready := ho.ready
  timers := ho.timers
  events r hr := by
    rcases List.mem_append.mp hr with hr | hr
    · exact ho.events r hr
    · exact Or.inr (he r (List.mem_singleton.mp hr).symm)
  scheduled := by
    have hs : Scheduled own m.awaiting m.ready m.wakeups (m.post event) :=
      ho.scheduled.of_parts rfl rfl fun _ => id
    refine { hs with schedule := { hs.schedule with wakes := fun r hr => ?_ } }
    have hnew : ((m.events ++ [event]).filterMap Event.fiber?).count r =
        (m.events.filterMap Event.fiber?).count r := by
      cases event with
      | collect =>
        have hnone : [Event.collect].filterMap Event.fiber? = [] := rfl
        rw [List.filterMap_append, hnone, List.append_nil]
      | resume q =>
        have hne : q ≠ r := by
          rintro rfl
          have hf := ho.isFiber hr
          simp [IsFiber, (he q rfl).2] at hf
        simp [Event.fiber?, List.filterMap_append, hne]
    have hwakes := hs.schedule.wakes r hr
    simp only [wakeups, List.count_append] at hwakes
    change (m.timers.fibers ++ (m.events ++ [event]).filterMap Event.fiber?).count r = _
    rw [List.count_append, hnew, hwakes]

theorem Aside.settles (ha : Aside m m') (ho : Orderly own m) (hfit : m'.room ≤ Heap.slotLimit) :
    Settles own m m' := by
  cases ha with
  | quiet hm =>
    obtain ⟨hw, ha⟩ := hm.alike ho.scheduled.wellFormed hfit
    exact ho.settles (ho.alike hw ha) ha.isFiber fun r => by rw [ha.stateOf?_eq]
  | collect => exact ho.settles_collected
  | post he => exact ho.settles (ho.post he) (fun _ => Iff.rfl) fun _ => Iff.rfl
  | clock now =>
    refine ho.settles ⟨⟨ho.ready, ho.timers, ho.events⟩, ?_⟩ (fun _ => Iff.rfl) fun _ => Iff.rfl
    exact ho.scheduled.of_parts rfl rfl fun _ => id

theorem room_le_of_asides (hr : ReflTransGen Aside m m') : m.room ≤ m'.room :=
  (tends_of_row (ReflTransGen.mono (fun _ _ => Aside.tends) _ _ hr)).room_le

theorem runningId?_of_asides (hr : ReflTransGen Aside m m') : m'.runningId? = m.runningId? := by
  induction hr with
  | refl => rfl
  | tail _ ha ih => exact ha.runningId?_eq.trans ih

theorem asides_settle (hr : ReflTransGen Aside m m') (ho : Orderly own m)
    (hfit : m'.room ≤ Heap.slotLimit) : Settles own m m' := by
  induction hr with
  | refl => exact ho.settles ho (fun _ => Iff.rfl) fun _ => Iff.rfl
  | tail _ ha ih =>
    have hs := ih (ha.tends.room_le.trans hfit)
    exact hs.trans (ha.settles hs.orderly hfit)

end Machine

/-- The native functions of a host leave the switching of fibers to the machine. -/
def HostFunctions.LeavesFibers (host : HostFunctions) : Prop :=
  ∀ id args, Makes Machine.Aside (host.call id args)

end FiberMachine
