import FiberMachine.Proofs.Machine.Aside

/-!
# Instructions take turns

An instruction is quiet but for at most one thing: a fiber that it spawns or hands
over to, the end or the sleep of the running fiber, or a native function of the host.
-/

namespace FiberMachine

open Relation (ReflTransGen)

namespace Machine

variable {own : Set Handle} {head : Option Handle} {ready wakes : List Handle} {m m' : Machine}

/-! ## New fibers -/

/-- The machine with one more fiber. -/
def withNewFiber (f : Fiber) (m : Machine) : Machine :=
  { m with heap := (m.heap.alloc (.fiber (some f))).1 }

def newFiberHandle (f : Fiber) (m : Machine) : Handle := (m.heap.alloc (.fiber (some f))).2

/-- A new fiber has the function and the arguments on its stack and one frame for it. -/
theorem newFiber_eq_ok_body {kind : FiberKind} {function r : Handle} {args : List Value}
    {caller module : Option Handle} (h : newFiber kind function args caller module m = .ok r m') :
    ∃ (f : Function) (stack : OperandStack), m.heap.function function = .ok f ∧
      (OperandStack.empty m.config.stackSlots).pushAll (.ofHandle function :: args) = .ok stack ∧
      let body : Fiber := ⟨stack, [.enter function f.chunk 0 f.module], caller, kind, .ready, module⟩
      m' = m.withNewFiber body ∧ r = m.newFiberHandle body := by
  obtain ⟨_, _, hm, h⟩ := bind_eq_ok h
  cases hm
  obtain ⟨f, _, hf, h⟩ := bind_eq_ok h
  obtain ⟨stack, _, hstack, h⟩ := bind_eq_ok h
  rw [except_apply] at hf hstack
  split at hf <;> cases hf
  split at hstack <;> cases hstack
  cases h
  exact ⟨_, _, by assumption, by assumption, rfl, rfl⟩

theorem newFiber_eq_ok {kind : FiberKind} {function r : Handle} {args : List Value}
    {caller module : Option Handle} (h : newFiber kind function args caller module m = .ok r m') :
    ∃ f : Fiber, f.state = .ready ∧ m' = m.withNewFiber f ∧ r = m.newFiberHandle f := by
  obtain ⟨_, _, -, -, hm, hr⟩ := newFiber_eq_ok_body h
  exact ⟨_, rfl, hm, hr⟩

/-- What is known of a new fiber before its slot is looked at. -/
theorem allocated_newFiber (hw : m.heap.WellFormed) {f : Fiber}
    (hfit : (m.withNewFiber f).room ≤ Heap.slotLimit) :
    Heap.Allocated m.heap (m.withNewFiber f).heap (m.newFiberHandle f)
      (.ofBody (.fiber (some f))) :=
  Heap.alloc_allocated hw.toArena _ hfit

theorem fiberAt?_newFiber (hw : m.heap.WellFormed) {f : Fiber}
    (hfit : (m.withNewFiber f).room ≤ Heap.slotLimit) (r : Handle) :
    (m.withNewFiber f).heap.fiberAt? r =
      if r = m.newFiberHandle f then some (some f) else m.heap.fiberAt? r :=
  (allocated_newFiber hw hfit).fiberAt? r

theorem not_isLive_newFiber (hw : m.heap.WellFormed) {f : Fiber}
    (hfit : (m.withNewFiber f).room ≤ Heap.slotLimit) :
    ¬ m.heap.isLive (m.newFiberHandle f) := by
  simp [Heap.isLive, (allocated_newFiber hw hfit).fresh]

theorem isFiber_newFiber (hw : m.heap.WellFormed) {f : Fiber}
    (hfit : (m.withNewFiber f).room ≤ Heap.slotLimit) (r : Handle) :
    (m.withNewFiber f).IsFiber r ↔ r = m.newFiberHandle f ∨ m.IsFiber r := by
  simp only [IsFiber, fiberAt?_newFiber hw hfit]
  split
  · simp [*]
  · simp [*]

theorem isLive_of_isFiber {r : Handle} (h : m.IsFiber r) : m.heap.isLive r := by
  obtain ⟨body, hb⟩ := Option.isSome_iff_exists.mp h
  exact Heap.isLive_of_fiberAt? hb

theorem carried_newFiber (ho : Orderly own m) {f : Fiber}
    (hfit : (m.withNewFiber f).room ≤ Heap.slotLimit)
    (hf : ∀ r, m'.IsFiber r ↔ (m.withNewFiber f).IsFiber r) :
    carried own m m' = insert (m.newFiberHandle f) own := by
  have hw := ho.scheduled.wellFormed
  have hnew : ¬ m.IsFiber (m.newFiberHandle f) := fun h =>
    not_isLive_newFiber hw hfit (isLive_of_isFiber h)
  ext r
  simp only [carried, Set.mem_ofPred_eq, Set.mem_insert_iff, hf, isFiber_newFiber hw hfit]
  constructor
  · rintro ⟨rfl | hr, hor⟩
    · exact Or.inl rfl
    · exact Or.inr (hor.resolve_right fun hn => hn hr)
  · rintro (rfl | hr)
    · exact ⟨Or.inl rfl, Or.inr hnew⟩
    · exact ⟨Or.inr (ho.isFiber hr), Or.inl hr⟩

theorem status?_newFiber (hs : Scheduled own head ready wakes m) {f : Fiber}
    (hfit : (m.withNewFiber f).room ≤ Heap.slotLimit) :
    (m.withNewFiber f).status? =
      Function.update m.status? (m.newFiberHandle f) (some (statusOf f)) := by
  funext r
  have hp : parkedStatus? (m.withNewFiber f).heap r =
      if r = m.newFiberHandle f then some (statusOf f) else parkedStatus? m.heap r := by
    simp only [parkedStatus?, fiberAt?_newFiber hs.wellFormed hfit]
    split <;> rfl
  have hrunning : ∀ t, m.running = some t → t.id ≠ m.newFiberHandle f := by
    intro t ht he
    refine not_isLive_newFiber hs.wellFormed hfit ?_
    rw [← he]
    exact Heap.isLive_of_fiberAt? (hs.running t ht).2.2
  have hsame : (m.withNewFiber f).running = m.running := rfl
  simp only [status?, hsame, hp]
  by_cases h : r = m.newFiberHandle f
  · rw [h, Function.update_self, if_pos rfl]
    cases hr : m.running with
    | none => rfl
    | some t => simp only [if_neg (hrunning t hr)]
  · rw [Function.update_of_ne h, status?]
    cases m.running with
    | none => exact if_neg h
    | some t => rw [if_neg h]

/-- A new fiber joins the others as one that is ready. -/
theorem Scheduled.newFiber (hs : Scheduled own head ready wakes m) {f : Fiber}
    (hf : f.state = .ready) (hfit : (m.withNewFiber f).room ≤ Heap.slotLimit)
    (hr : m.newFiberHandle f ∉ ready) (hw : m.newFiberHandle f ∉ wakes) :
    Scheduled (insert (m.newFiberHandle f) own) head (m.newFiberHandle f :: ready) wakes
      (m.withNewFiber f) := by
  have hat := fiberAt?_newFiber hs.wellFormed hfit
  have hlive := not_isLive_newFiber hs.wellFormed hfit
  have hold : ∀ r ∈ own, r ≠ m.newFiberHandle f := by
    rintro r hr rfl
    obtain ⟨body, hb⟩ := hs.fibers _ hr
    exact hlive (Heap.isLive_of_fiberAt? hb)
  have hsplit : ∀ r ∈ insert (m.newFiberHandle f) own, r ≠ m.newFiberHandle f → r ∈ own :=
    fun r hr hne => (Set.mem_insert_iff.mp hr).resolve_left hne
  refine ⟨hs.wellFormed.alloc (by simp) hfit, ?_, fun r h => ?_, fun r h hout => ?_,
    fun r h g hg => ?_, fun t h => ?_, fun r h => ?_⟩
  · rw [status?_newFiber hs hfit, statusOf, hf]
    exact hs.schedule.add (fun h => hold _ h rfl) hr hw f.caller
  · rw [hat]
    split
    · exact ⟨_, rfl⟩
    · rename_i hne
      exact hs.fibers r (hsplit r h hne)
  · rw [hat] at hout
    split at hout
    · simp at hout
    · rename_i hne
      exact hs.out r (hsplit r h hne) hout
  · rw [hat] at hg
    split at hg
    · cases hg
      simp [hf]
    · rename_i hne
      exact hs.parked r (hsplit r h hne) g hg
  · obtain ⟨hmem, hstate, hbody⟩ := hs.running t h
    refine ⟨Set.mem_insert_of_mem _ hmem, hstate, ?_⟩
    rw [hat, if_neg (hold _ hmem), hbody]
  · obtain ⟨hmem, hdone⟩ := hs.root r h
    refine ⟨Set.mem_insert_of_mem _ hmem, ?_⟩
    rwa [stateOf?_eq, status?_newFiber hs hfit, Function.update_of_ne (hold r hmem), ← stateOf?_eq]

/-- Neither the queue nor the events and timers can name a new fiber. -/
theorem Orderly.fresh (ho : Orderly own m) {r : Handle} (hr : ¬ m.heap.isLive r) :
    r ∉ own ∧ r ∉ m.ready ∧ r ∉ m.wakeups := by
  have hown : r ∉ own := fun h => hr (isLive_of_isFiber (ho.isFiber h))
  refine ⟨hown, fun h => hown (ho.ready r h), fun h => ?_⟩
  rcases List.mem_append.mp h with h | h
  · exact hown (ho.timers r h)
  · obtain ⟨event, hevent, he⟩ := List.mem_filterMap.mp h
    cases event with
    | collect => simp [Event.fiber?] at he
    | resume s =>
      obtain rfl : s = r := by simpa [Event.fiber?] using he
      exact (ho.events s hevent).elim hown fun hs => hr hs.1

/-! ## Spawning and importing -/

theorem stateOf?_newFiber (ho : Orderly own m) {f : Fiber}
    (hfit : (m.withNewFiber f).room ≤ Heap.slotLimit) {r : Handle} (hr : r ∈ own) :
    (m.withNewFiber f).stateOf? r = m.stateOf? r := by
  rw [stateOf?_eq, status?_newFiber ho.scheduled hfit, Function.update_of_ne, ← stateOf?_eq]
  rintro rfl
  exact not_isLive_newFiber ho.scheduled.wellFormed hfit (isLive_of_isFiber (ho.isFiber hr))

theorem live_newFiber (hw : m.heap.WellFormed) {f : Fiber}
    (hfit : (m.withNewFiber f).room ≤ Heap.slotLimit) {r : Handle} (hr : m.heap.isLive r) :
    (m.withNewFiber f).heap.isLive r ∧
      (m.withNewFiber f).heap.fiberAt? r = m.heap.fiberAt? r := by
  obtain ⟨o, ho⟩ := Heap.isLive_iff.mp hr
  refine ⟨Heap.isLive_iff.mpr ⟨o, (allocated_newFiber hw hfit).get?_of_get? ho⟩, ?_⟩
  rw [fiberAt?_newFiber hw hfit, if_neg]
  rintro rfl
  exact not_isLive_newFiber hw hfit hr

theorem Listed.newFiber (hl : Listed own m) (hw : m.heap.WellFormed) {f : Fiber}
    (hfit : (m.withNewFiber f).room ≤ Heap.slotLimit) :
    Listed (insert (m.newFiberHandle f) own) (m.withNewFiber f) where
  ready r hr := Set.mem_insert_of_mem _ (hl.ready r hr)
  timers r hr := Set.mem_insert_of_mem _ (hl.timers r hr)
  events r hr := (hl.events r hr).imp (Set.mem_insert_of_mem _) fun ⟨hlive, hf⟩ =>
    ⟨(live_newFiber hw hfit hlive).1, (live_newFiber hw hfit hlive).2.trans hf⟩

theorem turns_enqueue (kind : FiberKind) (function : Handle) (args : List Value)
    (caller module : Option Handle) : Leads Turn (do
      let spawned ← newFiber kind function args caller module
      modify fun m => { m with ready := m.ready ++ [spawned] } : Act Unit) where
  leads m _ m' h := by
    obtain ⟨r, _, hnew, h⟩ := bind_eq_ok h
    obtain ⟨f, hf, rfl, rfl⟩ := newFiber_eq_ok hnew
    cases h
    refine ⟨Heap.size_le_alloc _ _, fun own ho hfit => ?_⟩
    have hw := ho.scheduled.wellFormed
    have hcarried : carried own m { m.withNewFiber f with
        ready := (m.withNewFiber f).ready ++ [m.newFiberHandle f] } =
        insert (m.newFiberHandle f) own := carried_newFiber ho hfit fun _ => Iff.rfl
    obtain ⟨-, hready, hwakes⟩ := ho.fresh (not_isLive_newFiber hw hfit)
    have hs := ho.scheduled.newFiber hf hfit hready hwakes
    have hlisted := ho.toListed.newFiber hw hfit
    refine ⟨?_, fun r hr hd _ => ?_, fun r hr hn => ?_⟩
    · rw [hcarried]
      refine ⟨⟨fun r hr => ?_, hlisted.timers, hlisted.events⟩, ?_⟩
      · rcases List.mem_append.mp hr with hr | hr
        · exact hlisted.ready r hr
        · rw [List.mem_singleton.mp hr]
          exact Set.mem_insert ..
      · have hperm : (m.ready ++ [m.newFiberHandle f]).Perm (m.newFiberHandle f :: m.ready) :=
          List.perm_append_comm
        have hp : Scheduled (insert (m.newFiberHandle f) own) m.awaiting
            (m.ready ++ [m.newFiberHandle f]) m.wakeups (m.withNewFiber f) :=
          { hs with schedule := hs.schedule.perm hperm (.refl _) }
        exact hp.of_parts rfl rfl fun _ => id
    · exact (stateOf?_newFiber ho hfit hr).trans hd
    · exact absurd ((isFiber_newFiber hw hfit r).mpr (Or.inr (ho.isFiber hr))) hn

instance (function : Handle) (argc : Nat) : Leads Turn (spawn function argc) := by
  unfold spawn
  refine Leads.behind inferInstance fun _ => Leads.behind inferInstance fun _ =>
    Leads.behind inferInstance fun _ => turns_enqueue ..

/-- A new fiber that runs at once. -/
theorem turns_handOver (kind : FiberKind) (function : Handle) (args : List Value)
    (caller module : Option Handle) :
    Leads Turn (do resume (← newFiber kind function args caller module) : Act Unit) where
  leads m _ m' h := by
    obtain ⟨r, _, hnew, h⟩ := bind_eq_ok h
    obtain ⟨f, hf, rfl, rfl⟩ := newFiber_eq_ok hnew
    have hroom : (m.withNewFiber f).room ≤ m'.room := after_ok h ▸ room_le_after _ _
    refine ⟨Nat.le_trans (Heap.size_le_alloc _ _) hroom, fun own ho hfit' => ?_⟩
    have hw := ho.scheduled.wellFormed
    have hfit := Nat.le_trans hroom hfit'
    obtain ⟨-, hready, hwakes⟩ := ho.fresh (not_isLive_newFiber hw hfit)
    have hst : (m.withNewFiber f).status? (m.newFiberHandle f) = some ⟨.ready, f.caller⟩ := by
      rw [status?_newFiber ho.scheduled hfit, Function.update_self, statusOf, hf]
    obtain ⟨m'', hm'', -, hq, hdone, hs⟩ := (ho.scheduled.newFiber hf hfit hready hwakes).resume
      (Set.mem_insert ..) hst .ready
    rw [h] at hm''
    cases hm''
    refine ⟨?_, fun r hr hd _ => (hdone r).mpr ?_, fun r hr hn => ?_⟩
    · rw [carried_newFiber ho hfit hq.isFiber]
      refine ⟨(ho.toListed.newFiber hw hfit).switched hq, ?_⟩
      rw [hq.ready, hq.wakeups_eq]
      exact hs
    · exact (stateOf?_newFiber ho hfit hr).trans hd
    · refine absurd ((hq.isFiber r).mpr ?_) hn
      exact (isFiber_newFiber hw hfit r).mpr (Or.inr (ho.isFiber hr))

instance (key : Handle) (code : Prototype) : Leads Turn (startModule key code) := by
  unfold startModule
  refine Leads.behind inferInstance fun _ => Leads.behind inferInstance fun _ =>
    Leads.behind inferInstance fun _ => Leads.behind inferInstance fun _ => turns_handOver ..

/-! ## Sleeping and ending -/

theorem runningId_eq_ok {id : Handle} (h : runningId m = .ok id m') :
    m = m' ∧ ∃ t, m.running = some t ∧ t.id = id := by
  simp only [runningId] at h
  cases ht : m.running with
  | none => simp [ht] at h
  | some t =>
    simp only [ht, EStateM.Result.ok.injEq] at h
    exact ⟨h.2, t, rfl, h.1⟩

/-- The schedule of the running fiber. -/
theorem Scheduled.status?_running (hs : Scheduled own head ready wakes m) {t : Running}
    (ht : m.running = some t) : m.status? t.id = some ⟨.running, t.fiber.caller⟩ := by
  rw [Machine.status?_running ht, statusOf, (hs.running t ht).2.1]

theorem awaiting_eq {t : Running} (ht : m.running = some t) : m.awaiting = t.fiber.caller := by
  simp only [awaiting, ht, Option.bind_some]

instance (delay : Duration) : Leads Turn (sleep delay) where
  leads m _ m' h := by
    have hroom : m.room ≤ m'.room := after_ok h ▸ room_le_after (sleep delay) m
    refine ⟨hroom, fun own ho _ => ?_⟩
    obtain ⟨id, _, hid, h⟩ := bind_eq_ok h
    obtain ⟨rfl, t, ht, rfl⟩ := runningId_eq_ok hid
    obtain ⟨_, m₁, hm₁, h⟩ := bind_eq_ok h
    obtain rfl : { m with timers := m.timers.add delay t.id } = m₁ := by
      simpa [modify_apply] using hm₁
    have ht₁ : { m with timers := m.timers.add delay t.id }.running = some t := ht
    have hs : Scheduled own m.awaiting m.ready m.wakeups
        { m with timers := m.timers.add delay t.id } := ho.scheduled.of_parts rfl rfl fun _ => id
    have hnew := hs.schedule.suspend (hs.status?_running ht₁)
    rw [awaiting_eq ht] at hnew
    obtain ⟨m'', hm'', hq, hdone, hs'⟩ := hs.returnToCaller ht₁ (by simp) (by simp) hnew
    rw [h] at hm''
    cases hm''
    have hfiber : ∀ r, m'.IsFiber r ↔ m.IsFiber r := hq.isFiber
    refine ⟨?_, fun r _ hd _ => hdone r hd, fun r hr hn =>
      absurd ((hfiber r).mpr (ho.isFiber hr)) hn⟩
    rw [carried_eq ho hfiber]
    have hlisted : Listed own { m with timers := m.timers.add delay t.id } := by
      refine ⟨ho.ready, fun r hr => ?_, ho.events⟩
      simp only [Timers.fibers, Timers.add, List.map_append, List.mem_append, List.map_cons,
        List.map_nil, List.mem_singleton] at hr
      rcases hr with hr | rfl
      · exact ho.timers r hr
      · exact (ho.scheduled.running t ht).1
    refine ⟨hlisted.switched hq, ?_⟩
    have hperm : m'.wakeups.Perm (t.id :: m.wakeups) := by
      rw [hq.wakeups_eq]
      simp only [wakeups, Timers.fibers, Timers.add, List.map_append, List.map_cons, List.map_nil,
        List.append_assoc]
      exact List.perm_middle
    rw [hq.ready]
    exact { hs' with schedule := hs'.schedule.perm (.refl _) hperm }

/-- The end of the running fiber, once its module is complete. -/
def depart (id : Handle) : Act Unit := do
  modify fun m => { m with root := m.root.filter (· != id) }
  returnToCaller .done

theorem progress_depart {t : Running} (ho : Orderly own m) (ht : m.running = some t)
    (h : depart t.id m = .ok () m') : Progress own m m' := by
  obtain ⟨_, m₁, hm₁, h⟩ := bind_eq_ok h
  obtain rfl : { m with root := m.root.filter (· != t.id) } = m₁ := by
    simpa [modify_apply] using hm₁
  have hs : Scheduled own m.awaiting m.ready m.wakeups
      { m with root := m.root.filter (· != t.id) } := by
    refine ho.scheduled.of_parts rfl rfl fun r hr => ?_
    exact (Option.filter_eq_some_iff.mp hr).1
  have hroot : m.root.filter (· != t.id) ≠ some t.id := by
    intro hr
    simpa using (Option.filter_eq_some_iff.mp hr).2
  have ht₁ : { m with root := m.root.filter (· != t.id) }.running = some t := ht
  have hnew := hs.schedule.finish (hs.status?_running ht₁)
  rw [awaiting_eq ht] at hnew
  obtain ⟨m'', hm'', hq, hdone, hs'⟩ := hs.returnToCaller ht₁ (by simp) (fun _ => hroot) hnew
  rw [h] at hm''
  cases hm''
  have hfiber : ∀ r, m'.IsFiber r ↔ m.IsFiber r := hq.isFiber
  refine ⟨?_, fun r _ hd _ => hdone r hd, fun r hr hn =>
    absurd ((hfiber r).mpr (ho.isFiber hr)) hn⟩
  rw [carried_eq ho hfiber]
  have hlisted : Listed own { m with root := m.root.filter (· != t.id) } :=
    ⟨ho.ready, ho.timers, ho.events⟩
  refine ⟨hlisted.switched hq, ?_⟩
  rw [hq.ready, hq.wakeups_eq]
  exact hs'

theorem room_le_depart {id : Handle} {u : Unit} (h : depart id m = .ok u m') :
    m.room ≤ m'.room := by
  have hgrows : Makes Tends (depart id) := by
    unfold depart
    exact .parts
  exact after_ok h ▸ room_le_after (depart id) m

theorem finish_eq_ok {u : Unit} (h : finish m = .ok u m') :
    ∃ t m₁, m.running = some t ∧ ReflTransGen Move m m₁ ∧ depart t.id m₁ = .ok () m' := by
  obtain ⟨id, _, hid, h⟩ := bind_eq_ok h
  obtain ⟨rfl, t, ht, rfl⟩ := runningId_eq_ok hid
  obtain ⟨⟨stack, frames, caller, kind, state, module⟩, m₀, hf, h⟩ := bind_eq_ok h
  have hrow : ReflTransGen Move m m₀ := after_ok hf ▸ Makes.row m
  have hquiet : ∃ q : Act Unit, Makes Move q ∧ (do q; depart t.id : Act Unit) m₀ = .ok u m' := by
    cases kind with
    | module =>
      cases module with
      | none => exact ⟨pure (), inferInstance, h⟩
      | some module => exact ⟨completeModule module, inferInstance, h⟩
    | _ => exact ⟨pure (), inferInstance, h⟩
  obtain ⟨q, hq, hqm⟩ := hquiet
  obtain ⟨_, m₁, hq₁, hd⟩ := bind_eq_ok hqm
  exact ⟨t, m₁, ht, hrow.trans (after_ok hq₁ ▸ hq.row m₀), hd⟩

theorem Alike.running_id (ha : Alike m m') {t : Running} (ht : m.running = some t) :
    ∃ t', m'.running = some t' ∧ t'.id = t.id := by
  have hr := ha.outline.running
  rw [ht] at hr
  obtain ⟨t', ht', hout⟩ := Option.map_eq_some_iff.mp hr
  exact ⟨t', ht', congrArg Prod.fst hout⟩

instance : Leads Turn finish where
  leads m _ m' h := by
    obtain ⟨t, m₁, ht, hrow, hd⟩ := finish_eq_ok h
    have hroom := room_le_depart hd
    refine ⟨(room_le_of_row hrow).trans hroom, fun own ho hfit => ?_⟩
    refine ho.progress_row hrow (hroom.trans hfit) fun ha ho₁ => ?_
    obtain ⟨t₁, ht₁, hid⟩ := ha.running_id ht
    rw [← hid] at hd
    exact progress_depart ho₁ ht₁ hd

/-! ## Calls -/

variable {host : HostFunctions}

theorem turns_asides {α : Type} {x : Act α} (hx : Makes Aside x) :
    Leads (Staying Turn) x where
  leads m _ m' h := by
    have hrow : ReflTransGen Aside m m' := after_ok h ▸ hx.row m
    refine ⟨⟨room_le_of_asides hrow, fun own ho hfit => ?_⟩, runningId?_of_asides hrow⟩
    exact (asides_settle hrow ho hfit).progress

theorem turns_runNative (hh : host.LeavesFibers) (n : Native) (args : List Value) :
    Leads (Staying Turn) (runNative host n args) := by
  unfold runNative
  split
  · infer_instance
  · exact turns_asides (hh _ _)

theorem turns_instruction (hh : host.LeavesFibers) : Leads Turn (instruction host) :=
  have := turns_runNative hh
  inferInstance

end Machine
end FiberMachine
