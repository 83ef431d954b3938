import FiberMachine.Proofs.Machine.Turns

/-!
# Safe points

A safe point turns timers into events and events into switches until a fiber runs or
none is left. It ends because a wait takes a timer away, and what it ends with is a
fiber that runs or a machine in which every fiber of the run is done.
-/

namespace FiberMachine

open Relation (ReflTransGen)

namespace Timers

theorem fibers_poll (t : Timers) :
    (t.poll.1.fibers ++ t.poll.2.filterMap Event.fiber?).Perm t.fibers := by
  have hfired : (t.due.map fun timer => Event.resume timer.fiber).filterMap Event.fiber? =
      t.due.map Timer.fiber := by
    rw [List.filterMap_map]
    exact List.filterMap_eq_map.symm ▸ rfl
  simp only [poll]
  split
  · rename_i h
    simp [fibers, h]
  · simp only [fibers, hfired, ← List.map_append]
    refine List.Perm.map _ ?_
    have hdue : t.due.Perm (t.pending.filter (isDue t.now)) := List.mergeSort_perm _ _
    exact (List.Perm.append_left _ hdue).trans
      (List.perm_append_comm.trans (List.filter_append_perm (isDue t.now) t.pending))

theorem active_poll_le (t : Timers) : t.poll.1.active ≤ t.active := by
  simp only [poll]
  split
  · exact Nat.le_refl _
  · exact List.length_filter_le ..

/-- The clock after a wait, before the timers are looked at. -/
def woken (t : Timers) : Timers :=
  match t.earliest? with
  | none => t
  | some deadline => { t with now := max t.now deadline }

theorem wait_eq (t : Timers) : t.wait = t.woken.poll := by
  simp only [wait, woken]
  cases t.earliest? <;> rfl

theorem fibers_woken (t : Timers) : t.woken.fibers = t.fibers := by
  simp only [woken]
  cases t.earliest? <;> rfl

theorem fibers_wait (t : Timers) :
    (t.wait.1.fibers ++ t.wait.2.filterMap Event.fiber?).Perm t.fibers := by
  rw [wait_eq, ← fibers_woken t]
  exact fibers_poll _

/-- A wait for a timer makes one fire. -/
theorem active_wait_lt {t : Timers} (h : 0 < t.active) : t.wait.1.active < t.active := by
  obtain ⟨d, hd⟩ : ∃ d, t.earliest? = some d := by
    cases he : t.earliest? with
    | none =>
      rw [earliest?, List.min?_eq_none_iff, List.map_eq_nil_iff] at he
      simp [active, he] at h
    | some d => exact ⟨d, rfl⟩
  obtain ⟨timer, hmem, hdeadline⟩ := List.mem_map.mp (List.min?_mem hd)
  have hwait : t.wait = poll { t with now := max t.now d } := by
    simp only [wait, hd]
  have hpoll : t.wait.1.pending = t.pending.filter fun timer => !isDue (max t.now d) timer := by
    rw [hwait]
    simp only [poll]
    split
    · rename_i hnil
      simp [hnil]
    · rfl
  rw [active, hpoll, active]
  refine List.length_filter_lt_length_iff_exists.mpr ⟨timer, hmem, ?_⟩
  simp only [isDue, Bool.not_eq_true', decide_eq_false_iff_not, not_not]
  exact hdeadline ▸ Nat.le_max_right t.now timer.deadline

end Timers

namespace Machine

variable {own : Set Handle} {m m' : Machine}

/-! ## Timers and events -/

/-- The machine after its timers have fired. -/
def fired (fire : Timers × List Event) (m : Machine) : Machine :=
  { m with timers := fire.1, events := m.events ++ fire.2 }

theorem fire_apply (f : Timers → Timers × List Event) (m : Machine) :
    fire f m = .ok () (m.fired (f m.timers)) := rfl

theorem Orderly.fired (ho : Orderly own m) {f : Timers × List Event}
    (hf : (f.1.fibers ++ f.2.filterMap Event.fiber?).Perm m.timers.fibers) :
    Orderly own (m.fired f) where
  ready := ho.ready
  timers r hr := ho.timers r (hf.mem_iff.mp (List.mem_append_left _ hr))
  events r hr := by
    rcases List.mem_append.mp hr with hr | hr
    · exact ho.events r hr
    · refine Or.inl (ho.timers r (hf.mem_iff.mp (List.mem_append_right _ ?_)))
      exact List.mem_filterMap.mpr ⟨_, hr, rfl⟩
  scheduled := by
    have hs : Scheduled own m.awaiting m.ready m.wakeups (m.fired f) :=
      ho.scheduled.of_parts rfl rfl fun _ => id
    have hperm : (m.fired f).wakeups.Perm m.wakeups := by
      simp only [wakeups, Machine.fired, List.filterMap_append]
      refine List.Perm.trans ?_ (hf.append_right _)
      rw [List.append_assoc]
      exact List.Perm.append_left _ List.perm_append_comm
    exact { hs with schedule := hs.schedule.perm (.refl _) hperm }

theorem Orderly.settles_fired (ho : Orderly own m) {f : Timers × List Event}
    (hf : (f.1.fibers ++ f.2.filterMap Event.fiber?).Perm m.timers.fibers) :
    Settles own m (m.fired f) :=
  ho.settles (ho.fired hf) (fun _ => Iff.rfl) fun _ => Iff.rfl

/-- The machine with fewer events. -/
def withEvents (events : List Event) (m : Machine) : Machine := { m with events }

theorem stateOf?_of_not_isFiber {r : Handle} (hs : ∀ t, m.running = some t → m.IsFiber t.id)
    (hr : ¬ m.IsFiber r) : m.stateOf? r = none := by
  have hp : parkedStatus? m.heap r = none := by
    simp only [IsFiber, Option.not_isSome_iff_eq_none] at hr
    simp only [parkedStatus?, hr, Option.bind_none]
  rw [stateOf?_eq, status?]
  cases ht : m.running with
  | none => simp only [hp, Option.map_none]
  | some t =>
    have hne : t.id ≠ r := fun he => hr (he ▸ hs t ht)
    simp only [hne, ↓reduceIte, hp, Option.map_none]

/-- An event that does not concern the run may be taken away. -/
theorem Orderly.drop (ho : Orderly own m) {event : Event} {rest : List Event}
    (he : m.events = event :: rest) (hr : ∀ r, event = .resume r → r ∉ own) :
    Orderly own (m.withEvents rest) where
  ready := ho.ready
  timers := ho.timers
  events r hmem := ho.events r (he ▸ List.mem_cons_of_mem _ hmem)
  scheduled := by
    have hs : Scheduled own m.awaiting m.ready m.wakeups (m.withEvents rest) :=
      ho.scheduled.of_parts rfl rfl fun _ => id
    refine { hs with schedule := { hs.schedule with wakes := fun r hmem => ?_ } }
    have hwakes := hs.schedule.wakes r hmem
    rw [← hwakes]
    cases event with
    | collect => simp only [wakeups, withEvents, he, List.filterMap_cons, Event.fiber?]
    | resume q =>
      have hne : q ≠ r := fun h => hr q rfl (h ▸ hmem)
      simp [wakeups, withEvents, he, Event.fiber?, hne]

theorem state_of_times {list : List Handle} {r : Handle} {s : Status} {state : FiberState}
    (hc : list.count r = times (some s) state) (hr : r ∈ list) : s.state = state := by
  have hpos := List.count_pos_iff.mpr hr
  rw [hc] at hpos
  by_contra h
  simp [times, h] at hpos

/-- What a part of a safe point makes of a machine, when it wakes no one but by what is
listed. -/
structure Wakes (own : Set Handle) (m m' : Machine) : Prop extends Settles own m m' where
  timers : m'.timers = m.timers
  running : m.running.isSome → m'.running.isSome

theorem Wakes.trans {m'' : Machine} (ha : Wakes own m m')
    (hb : Wakes (carried own m m') m' m'') : Wakes own m m'' :=
  ⟨ha.toSettles.trans hb.toSettles, hb.timers.trans ha.timers, fun h => hb.running (ha.running h)⟩

/-- The first event wakes a fiber of the run. -/
theorem Orderly.handle_resume (ho : Orderly own m) {r : Handle} {rest : List Event}
    (he : m.events = .resume r :: rest) (hr : r ∈ own) :
    ∃ m', resume r (m.withEvents rest) = .ok () m' ∧ Wakes own m m' ∧ m'.events = rest := by
  have hperm : (r :: (m.withEvents rest).wakeups).Perm m.wakeups := by
    simp only [wakeups, withEvents, he, List.filterMap_cons, Event.fiber?]
    exact List.perm_middle.symm
  have hs : Scheduled own (m.withEvents rest).awaiting m.ready (r :: (m.withEvents rest).wakeups)
      (m.withEvents rest) := by
    have hs := ho.scheduled
    have hp : Scheduled own m.awaiting m.ready (r :: (m.withEvents rest).wakeups) m :=
      { hs with schedule := hs.schedule.perm (.refl _) hperm }
    exact hp.of_parts rfl rfl fun _ => id
  obtain ⟨⟨state, caller⟩, hst, -⟩ := hs.exists_status hr
  have hwakes := hs.schedule.wakes r hr
  rw [hst] at hwakes
  obtain rfl : state = .suspended := state_of_times hwakes (List.mem_cons_self ..)
  obtain ⟨m', hm', hsome, hq, hdone, hs'⟩ := hs.resume hr hst .wake
  refine ⟨m', hm', ⟨?_, hq.timers, fun _ => hsome⟩, hq.events⟩
  refine ho.settles ⟨?_, ?_⟩ hq.isFiber hdone
  · have hl : Listed own (m.withEvents rest) :=
      ⟨ho.ready, ho.timers, fun r hmem => ho.events r (he ▸ List.mem_cons_of_mem _ hmem)⟩
    exact hl.switched hq
  · rw [hq.ready, hq.wakeups_eq]
    exact hs'

/-- The first event is handled. -/
theorem Orderly.handle (ho : Orderly own m) {event : Event} {rest : List Event}
    (he : m.events = event :: rest) :
    ∃ m', Machine.handle event (m.withEvents rest) = .ok () m' ∧ Wakes own m m' ∧
      m'.events = rest := by
  cases event with
  | collect =>
    have hd := ho.drop he (fun r h => by cases h)
    have hw : Wakes own m (m.withEvents rest).collected := by
      refine ⟨?_, rfl, id⟩
      refine (ho.settles hd (fun _ => Iff.rfl) fun _ => Iff.rfl).trans ?_
      have hc : carried own m (m.withEvents rest) = own := carried_eq ho fun _ => Iff.rfl
      rw [hc]
      exact hd.settles_collected
    exact ⟨_, rfl, hw, rfl⟩
  | resume r =>
    by_cases hr : r ∈ own
    · exact ho.handle_resume he hr
    · have hd := ho.drop he (fun q h => by cases h; exact hr)
      have hnone : (m.withEvents rest).stateOf? r = none := by
        refine stateOf?_of_not_isFiber (fun t ht => ho.isFiber (ho.scheduled.running t ht).1) ?_
        have hevent := (ho.events r (he ▸ List.mem_cons_self ..)).resolve_left hr
        simp [IsFiber, withEvents, hevent.2]
      refine ⟨m.withEvents rest, ?_, ⟨?_, rfl, id⟩, rfl⟩
      · simp only [Machine.handle, resume, bind_apply, get_apply, hnone, pure_apply]
      · exact ho.settles hd (fun _ => Iff.rfl) fun _ => Iff.rfl

/-- All events are handled, one after the other. -/
theorem Orderly.handleAll (events : List Event) (ho : Orderly own m) (he : m.events = events) :
    ∃ m', Machine.handleAll events m = .ok () m' ∧ Wakes own m m' ∧ m'.events = [] := by
  induction events generalizing own m with
  | nil =>
    exact ⟨m, rfl, ⟨ho.settles ho (fun _ => Iff.rfl) fun _ => Iff.rfl, rfl, id⟩, he⟩
  | cons event rest ih =>
    obtain ⟨m₁, hm₁, hw₁, he₁⟩ := ho.handle he
    obtain ⟨m', hm', hw', he'⟩ := ih hw₁.orderly he₁
    refine ⟨m', ?_, hw₁.trans hw', he'⟩
    have hevent : Machine.handle event { m with events := rest } = .ok () m₁ := hm₁
    simp only [Machine.handleAll, bind_apply, modify_apply, hevent, hm']

/-! ## Finding a fiber -/

/-- The first fiber in line is ready, and it runs when it is resumed. -/
theorem Orderly.resume_first (ho : Orderly own m) {r : Handle} {rest : List Handle}
    (hready : m.ready = r :: rest) : m.stateOf? r = some .ready ∧
      ∃ m', resume r { m with ready := rest } = .ok () m' ∧ Wakes own m m' ∧
        m'.running.isSome ∧ m'.events = m.events := by
  have hr : r ∈ own := ho.ready r (hready ▸ List.mem_cons_self ..)
  have hs : Scheduled own m.awaiting (r :: rest) m.wakeups { m with ready := rest } := by
    have hs := ho.scheduled
    rw [hready] at hs
    exact hs.of_parts rfl rfl fun _ => id
  obtain ⟨⟨state, caller⟩, hst, -⟩ := hs.exists_status hr
  have hcount := hs.schedule.ready r hr
  rw [hst] at hcount
  obtain rfl : state = .ready := state_of_times hcount (List.mem_cons_self ..)
  obtain ⟨m', hm', hsome, hq, hdone, hs'⟩ := hs.resume hr hst .ready
  have hof : stateOf? { m with ready := rest } r = some .ready := by
    rw [stateOf?_eq, hst]
    rfl
  refine ⟨hof, m', hm', ⟨?_, hq.timers, fun _ => hsome⟩, hsome, hq.events⟩
  refine ho.settles ⟨?_, ?_⟩ hq.isFiber hdone
  · have hl : Listed own { m with ready := rest } :=
      ⟨fun q hq => ho.ready q (hready ▸ List.mem_cons_of_mem _ hq), ho.timers, ho.events⟩
    exact hl.switched hq
  · rw [hq.ready, hq.wakeups_eq]
    exact hs'

theorem startReady_nil (hready : m.ready = []) : Machine.startReady m = .ok false m := by
  simp only [Machine.startReady, bind_apply, get_apply, hready, startFirst, pure_apply]

theorem startReady_cons {r : Handle} {rest : List Handle} (hready : m.ready = r :: rest)
    (hr : m.stateOf? r = some .ready) (hm' : resume r { m with ready := rest } = .ok () m') :
    Machine.startReady m = .ok true m' := by
  have hr' : stateOf? { m with ready := rest } r = some .ready := hr
  simp only [Machine.startReady, bind_apply, get_apply, hready, startFirst, modify_apply, hr',
    ↓reduceIte, hm', pure_apply]

/-- The oldest fiber that is ready runs. -/
theorem Orderly.startReady (ho : Orderly own m) :
    (m.ready = [] ∧ Machine.startReady m = .ok false m) ∨
      ∃ m', Machine.startReady m = .ok true m' ∧ Wakes own m m' ∧ m'.running.isSome := by
  cases hready : m.ready with
  | nil => exact Or.inl ⟨rfl, startReady_nil hready⟩
  | cons r rest =>
    obtain ⟨hr, m', hm', hw, hsome, -⟩ := ho.resume_first hready
    exact Or.inr ⟨m', startReady_cons hready hr hm', hw, hsome⟩

theorem Orderly.of_startReady (ho : Orderly own m) {m₁ : Machine}
    (h : Machine.startReady m = .ok true m₁) :
    ∃ r rest, m.ready = r :: rest ∧ m.stateOf? r = some .ready ∧
      resume r { m with ready := rest } = .ok () m₁ ∧ Wakes own m m₁ := by
  cases hready : m.ready with
  | nil => cases (startReady_nil hready).symm.trans h
  | cons r rest =>
    obtain ⟨hr, m', hm', hw, -, -⟩ := ho.resume_first hready
    cases (startReady_cons hready hr hm').symm.trans h
    exact ⟨r, rest, rfl, hr, hm', hw⟩

theorem Orderly.of_startReady_false (ho : Orderly own m) {m₁ : Machine}
    (h : Machine.startReady m = .ok false m₁) : m.ready = [] ∧ m = m₁ := by
  rcases ho.startReady with ⟨hready, hstart⟩ | ⟨m', hstart, -, -⟩
  · cases hstart.symm.trans h
    exact ⟨hready, rfl⟩
  · cases hstart.symm.trans h

/-- Nothing is left to do, and every fiber of the run is done. -/
structure Rest (own : Set Handle) (m : Machine) : Prop where
  running : m.running = none
  root : m.root = none
  ready : m.ready = []
  timers : m.timers.pending = []
  events : m.events = []
  done : ∀ r ∈ own, m.stateOf? r = some .done

theorem Orderly.done_of_idle (ho : Orderly own m) (hrun : m.running = none) (hready : m.ready = [])
    (htimers : m.timers.pending = []) (hevents : m.events = []) :
    ∀ r ∈ own, m.stateOf? r = some .done := by
  intro r hr
  obtain ⟨s, hst, hrunning⟩ := ho.scheduled.exists_status hr
  have hcount := ho.scheduled.schedule.ready r hr
  have hwakes := ho.scheduled.schedule.wakes r hr
  obtain ⟨row, hw, -, -, hall⟩ := ho.scheduled.schedule.chain
  rw [hst] at hcount hwakes
  rw [stateOf?_eq, hst, Option.map_some, Option.some.injEq]
  cases hs : s.state with
  | done => rfl
  | running =>
    obtain ⟨t, ht, -⟩ := hrunning hs
    simp [hrun] at ht
  | ready => simp [hready, times, hs] at hcount
  | suspended => simp [wakeups, Timers.fibers, htimers, hevents, times, hs] at hwakes
  | waiting =>
    rw [awaiting, hrun] at hw
    cases hw
    exact absurd (hall r hr s.caller (by rw [hst, ← hs])) (List.not_mem_nil)

/-- Without a fiber that could run, the one of the program is done too. -/
theorem Orderly.rest (ho : Orderly own m) (hrun : m.running = none) (hready : m.ready = [])
    (htimers : m.timers.pending = []) (hevents : m.events = []) : Rest own m := by
  have hdone := ho.done_of_idle hrun hready htimers hevents
  refine ⟨hrun, ?_, hready, htimers, hevents, hdone⟩
  cases hroot : m.root with
  | none => rfl
  | some r =>
    obtain ⟨hown, hnot⟩ := ho.scheduled.root r hroot
    exact absurd (hdone r hown) hnot

/-- The search after the events are handled. -/
def seek (again : Nat) : Act Bool := do
  if (← get).running.isSome then return true
  else if ← startReady then findFiber again
  else if 0 < (← get).timers.active then
    fire Timers.wait
    findFiber again
  else if (← get).root.isNone then return false
  else throw (.failed .nothingRunnable)

/-- What a round of the search comes to when its events are handled. -/
inductive Seeks (again : Nat) (m : Machine) : Bool → Machine → Prop
  | running : m.running.isSome → Seeks again m true m
  | starts {found : Bool} {m' : Machine} (m₁ : Machine) : m.running = none →
      startReady m = .ok true m₁ → findFiber again m₁ = .ok found m' → Seeks again m found m'
  | waits {found : Bool} {m' : Machine} (m₁ : Machine) : m.running = none →
      startReady m = .ok false m₁ → 0 < m₁.timers.active →
      findFiber again (m₁.fired m₁.timers.wait) = .ok found m' → Seeks again m found m'
  | rests (m₁ : Machine) : m.running = none → startReady m = .ok false m₁ →
      m₁.timers.active = 0 → m₁.root = none → Seeks again m false m₁

theorem seeks_of_ok {again : Nat} {found : Bool} (h : seek again m = .ok found m') :
    Seeks again m found m' := by
  cases hrun : m.running with
  | some t =>
    simp only [seek, bind_apply, get_apply, hrun, Option.isSome_some, ↓reduceIte, pure_apply] at h
    cases h
    exact .running (by rw [hrun]; rfl)
  | none =>
    simp only [seek, bind_apply, get_apply, hrun, Option.isSome_none, Bool.false_eq_true,
      ↓reduceIte] at h
    cases hstart : startReady m with
    | error e m₁ => simp [hstart] at h
    | ok started m₁ =>
      simp only [hstart] at h
      cases started with
      | true => exact .starts m₁ hrun hstart h
      | false =>
        simp only [Bool.false_eq_true, ↓reduceIte, bind_apply, get_apply] at h
        by_cases hpos : 0 < m₁.timers.active
        · simp only [hpos, ↓reduceIte] at h
          exact .waits m₁ hrun hstart hpos h
        · simp only [hpos, ↓reduceIte, bind_apply, get_apply] at h
          cases hroot : m₁.root with
          | some r => simp [hroot, throw_apply] at h
          | none =>
            simp only [hroot, Option.isNone_none, ↓reduceIte, pure_apply] at h
            cases h
            exact .rests m' hrun hstart (Nat.eq_zero_of_not_pos hpos) hroot

/-- A round of the search, in which the timers that are due have fired and the events are
handled. -/
theorem seeks_of_findFiber {again : Nat} {found : Bool} {m₁ : Machine}
    (hm₁ : handleAll (m.fired m.timers.poll).events (m.fired m.timers.poll) = .ok () m₁)
    (h : findFiber (again + 1) m = .ok found m') : Seeks again m₁ found m' := by
  refine seeks_of_ok ?_
  simpa only [findFiber, seek, bind_apply, fire_apply, get_apply, hm₁] using h

/-- The first half of a round of the search. -/
theorem Orderly.findFiber_succ (ho : Orderly own m) :
    ∃ m₁, (∀ n, findFiber (n + 1) m = seek n m₁) ∧ Settles own m m₁ ∧
      (m.running.isSome → m₁.running.isSome) ∧ m₁.timers.active ≤ m.timers.active ∧
      m₁.events = [] := by
  have hs := ho.settles_fired (Timers.fibers_poll m.timers)
  obtain ⟨m₁, hm₁, hw, he⟩ := hs.orderly.handleAll _ rfl
  refine ⟨m₁, fun n => ?_, hs.trans hw.toSettles, fun h => hw.running h, ?_, he⟩
  · simp only [findFiber, seek, bind_apply, fire_apply, get_apply, hm₁]
  · rw [hw.timers]
    exact Timers.active_poll_le m.timers

/-- A machine in which nothing else is left waits for the earliest timer. -/
theorem findFiber_wait {again : Nat} (hpoll : m.timers.poll = (m.timers, []))
    (hrun : m.running = none) (hevents : m.events = []) (hready : m.ready = [])
    (hactive : 0 < m.timers.active) :
    findFiber (again + 1) m = findFiber again (m.fired m.timers.wait) := by
  have hfired : m.fired (m.timers, []) = m := by simp [fired]
  simp only [findFiber, bind_apply, fire_apply, hpoll, hfired, get_apply, hevents, handleAll,
    pure_apply, hrun, Option.isSome_none, Bool.false_eq_true, ↓reduceIte, startReady, hready,
    startFirst, hactive]

theorem Orderly.findFiber_running (ho : Orderly own m) (hrun : m.running.isSome) :
    ∃ m', (∀ n, findFiber (n + 1) m = .ok true m') ∧ Settles own m m' ∧ m'.running.isSome := by
  obtain ⟨m₁, hround, hs, hsome, -, -⟩ := ho.findFiber_succ
  refine ⟨m₁, fun n => ?_, hs, hsome hrun⟩
  rw [hround]
  simp only [seek, bind_apply, get_apply, hsome hrun, ↓reduceIte, pure_apply]

/-- The search ends with a fiber that runs or with a machine at rest, however often it
may look again, once that is often enough. -/
theorem Orderly.findFiber (ho : Orderly own m) :
    ∃ found m', (∀ n, m.timers.active + 2 ≤ n → Machine.findFiber n m = .ok found m') ∧
      Settles own m m' ∧ (found = true → m'.running.isSome) ∧
      (found = false → Rest (carried own m m') m') := by
  -- a round either ends the search, starts a fiber, or takes a timer away
  induction hk : m.timers.active using Nat.strong_induction_on generalizing own m with
  | _ k ih =>
    obtain ⟨m₁, hround, hs₁, -, hactive, hevents⟩ := ho.findFiber_succ
    have hfind : ∀ n, k + 2 ≤ n → Machine.findFiber n m = seek (n - 1) m₁ := by
      intro n hn
      rw [← hround, Nat.sub_add_cancel (by omega)]
    cases hrun : m₁.running with
    | some t =>
      refine ⟨true, m₁, fun n hn => ?_, hs₁, fun _ => by rw [hrun]; rfl, by simp⟩
      rw [hfind n hn]
      simp [seek, bind_apply, get_apply, hrun, pure_apply]
    | none =>
      have hnone : m₁.running.isSome = false := by rw [hrun]; rfl
      rcases hs₁.orderly.startReady with ⟨hready, hstart⟩ | ⟨m₂, hstart, hw, hsome⟩
      · by_cases hpos : 0 < m₁.timers.active
        · have hs₂ := hs₁.orderly.settles_fired m₁.timers.fibers_wait
          have hlt : (m₁.fired m₁.timers.wait).timers.active < k :=
            Nat.lt_of_lt_of_le (Timers.active_wait_lt hpos) (hk ▸ hactive)
          obtain ⟨found, m', hm', hs', htrue, hfalse⟩ := ih _ hlt hs₂.orderly rfl
          have hs₃ := hs₂.trans hs'
          refine ⟨found, m', fun n hn => ?_, hs₁.trans hs₃, htrue, fun h => ?_⟩
          · rw [hfind n hn]
            simp only [seek, bind_apply, get_apply, hnone, hstart, hpos, fire_apply, ↓reduceIte,
              Bool.false_eq_true]
            exact hm' (n - 1) (by omega)
          · rw [← hs₁.carried_trans hs₃, ← hs₂.carried_trans hs']
            exact hfalse h
        · have hpending : m₁.timers.pending = [] := by
            rw [← List.length_eq_zero_iff]
            exact Nat.eq_zero_of_not_pos hpos
          have hrest := hs₁.orderly.rest hrun hready hpending hevents
          refine ⟨false, m₁, fun n hn => ?_, hs₁, by simp, fun _ => hrest⟩
          rw [hfind n hn]
          simp [seek, bind_apply, get_apply, hrun, hstart, hpos, hrest.root, pure_apply]
      · obtain ⟨m₃, hm₃, hs₃, hsome₃⟩ := hw.orderly.findFiber_running hsome
        have hs₂ := hw.toSettles.trans hs₃
        refine ⟨true, m₃, fun n hn => ?_, hs₁.trans hs₂, fun _ => hsome₃, by simp⟩
        rw [hfind n hn]
        have hn' : n - 1 = (n - 2) + 1 := by omega
        simp only [seek, bind_apply, get_apply, hnone, hstart, ↓reduceIte, Bool.false_eq_true]
        rw [hn', hm₃]

/-- What comes of a safe point: a fiber that runs, after a collection if that is due, or a
machine at rest. -/
theorem Orderly.safePoint (ho : Orderly own m) :
    ∃ found m', Machine.safePoint m = .ok found m' ∧ Settles own m m' ∧
      (found = true → m'.running.isSome) ∧ (found = false → Rest (carried own m m') m') := by
  obtain ⟨found, m₁, hfind, hs, htrue, hfalse⟩ := ho.findFiber
  cases found with
  | false =>
    refine ⟨false, m₁, ?_, hs, by simp, hfalse⟩
    simp only [Machine.safePoint, bind_apply, get_apply, hfind _ (Nat.le_refl _), pure_apply,
      Bool.false_eq_true, ↓reduceIte]
  | true =>
    by_cases hdue : m₁.collectionDue
    · refine ⟨true, m₁.collected, ?_, hs.trans hs.orderly.settles_collected, htrue, by simp⟩
      simp only [Machine.safePoint, bind_apply, get_apply, hfind _ (Nat.le_refl _), ↓reduceIte,
        collectIfDue, hdue]
      rfl
    · refine ⟨true, m₁, ?_, hs, htrue, by simp⟩
      simp only [Machine.safePoint, bind_apply, get_apply, hfind _ (Nat.le_refl _), ↓reduceIte,
        collectIfDue, hdue, Bool.false_eq_true, pure_apply]

end Machine
end FiberMachine
