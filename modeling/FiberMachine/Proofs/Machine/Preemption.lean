import FiberMachine.Proofs.Machine.Nesting
import FiberMachine.Proofs.Machine.Runs

/-!
# Preemption

While a fiber is switched out it keeps its operands, its frames and its module, and it is
not lost. The fiber that runs and those that wait under it unwind in the order opposite to
the one in which they were interrupted.
-/

namespace FiberMachine

open Relation (ReflTransGen)

namespace Machine

variable {m m' : Machine} {row row' : List Handle} {r : Handle} {t : Running}

/-! ## Steps -/

/-- What a step makes of the stack of fibers: it pushes some, or pops the running one, which
has parked or is done. -/
inductive Shift (row : List Handle) (m : Machine) (row' : List Handle) (m' : Machine) : Prop
  | pushed (fibers : List Handle) : m'.line row' = fibers ++ m.line row → Shift row m row' m'
  | popped (t : Handle) : m.line row = t :: m'.line row' →
      m'.stateOf? t = some .suspended ∨ m'.stateOf? t = some .done → Shift row m row' m'

/-- A step keeps the fibers stacked, and loses none, old or new, unless it ends the running
one. -/
structure Shifts (row : List Handle) (m : Machine) (row' : List Handle) (m' : Machine) :
    Prop where
  nested : Nested row' m'
  shift : Shift row m row' m'
  tended : ∀ r, Tended row m r →
    Tended row' m' r ∨ m.runningId? = some r ∧ m'.stateOf? r = some .done
  fresh : ∀ r, m'.IsFiber r → m.IsFiber r ∨ Tended row' m' r
  done : ∀ r, m.stateOf? r = some .done → m'.IsFiber r → m'.stateOf? r = some .done

theorem Pushes.shifts (hp : Pushes row m row' m') : Shifts row m row' m' := by
  obtain ⟨fibers, hline⟩ := hp.line
  exact ⟨hp.nested, .pushed fibers hline, fun r hr => .inl (hp.tended r hr),
    fun r hr => .inl (hp.fibers r hr), hp.done⟩

/-! ## Instructions -/

structure Shifting (m m' : Machine) : Prop where
  room_le : m.room ≤ m'.room
  shifts : ∀ row, Nested row m → m'.room ≤ Heap.slotLimit → ∃ row', Shifts row m row' m'

theorem Nested.pushes_alike (hn : Nested row m) (hw : m'.heap.WellFormed) (ha : Alike m m') :
    Pushes row m row m' :=
  ⟨hn.alike hw ha, ⟨[], ha.line_eq⟩, fun _ hr => hr.alike ha, fun r hr => (ha.isFiber r).mp hr,
    fun r hd _ => (ha.stateOf?_eq r).trans hd⟩

theorem Shifts.alike_left {m₁ : Machine} (ha : Alike m m₁) (h : Shifts row m₁ row' m') :
    Shifts row m row' m' := by
  obtain ⟨hn, hshift, htended, hfresh, hdone⟩ := h
  rw [ha.runningId?_eq] at htended
  refine ⟨hn, ?_, fun r hr => htended r (hr.alike ha), fun r hr => ?_, fun r hd =>
    hdone r ((ha.stateOf?_eq r).trans hd)⟩
  · cases hshift with
    | pushed fibers hline => exact .pushed fibers (ha.line_eq ▸ hline)
    | popped t hline hs => exact .popped t (ha.line_eq ▸ hline) hs
  · exact (hfresh r hr).imp (ha.isFiber r).mp id

theorem Shifts.alike_right {m₁ : Machine} (h : Shifts row m row' m₁) (hw : m'.heap.WellFormed)
    (ha : Alike m₁ m') : Shifts row m row' m' := by
  obtain ⟨hn, hshift, htended, hfresh, hdone⟩ := h
  refine ⟨hn.alike hw ha, ?_, fun r hr => ?_, fun r hr => ?_, fun r hd hr => ?_⟩
  · cases hshift with
    | pushed fibers hline => exact .pushed fibers (ha.line_eq.trans hline)
    | popped t hline hs =>
      refine .popped t (hline.trans ?_) (by simpa only [ha.stateOf?_eq] using hs)
      rw [ha.line_eq]
  · rw [ha.stateOf?_eq]
    exact (htended r hr).imp (fun h => h.alike ha) id
  · exact (hfresh r ((ha.isFiber r).mp hr)).imp id fun h => h.alike ha
  · exact (ha.stateOf?_eq r).trans (hdone r hd ((ha.isFiber r).mp hr))

instance : Absorbs Shifting where
  of_row hr := by
    refine ⟨room_le_of_row hr, fun row hn hfit => ?_⟩
    obtain ⟨hw, ha⟩ := row_alike hr hn.wellFormed hfit
    exact ⟨row, (hn.pushes_alike hw ha).shifts⟩
  row_left hr h := by
    refine ⟨(room_le_of_row hr).trans h.room_le, fun row hn hfit => ?_⟩
    obtain ⟨hw, ha⟩ := row_alike hr hn.wellFormed (h.room_le.trans hfit)
    obtain ⟨row', hs⟩ := h.shifts row (hn.alike hw ha) hfit
    exact ⟨row', hs.alike_left ha⟩
  row_right h hr := by
    refine ⟨h.related.room_le.trans (room_le_of_row hr), fun row hn hfit => ?_⟩
    obtain ⟨row', hs⟩ := h.related.shifts row hn ((room_le_of_row hr).trans hfit)
    obtain ⟨hw, ha⟩ := row_alike hr hs.nested.wellFormed hfit
    exact ⟨row', hs.alike_right hw ha⟩

/-! ## New fibers -/

theorem status?_newFiber_of_isLive (hw : m.heap.WellFormed) {f : Fiber}
    (hfit : (m.withNewFiber f).room ≤ Heap.slotLimit) (hr : m.heap.isLive r) :
    (m.withNewFiber f).status? r = m.status? r := by
  simp only [status?, parkedStatus?, (live_newFiber hw hfit hr).2]
  rfl

/-- What a new fiber makes of the others. -/
structure Joined (row : List Handle) (f : Fiber) (m : Machine) : Prop where
  nested : Nested row (m.withNewFiber f)
  tended : ∀ r, Tended row m r → Tended row (m.withNewFiber f) r
  fibers : ∀ r, (m.withNewFiber f).IsFiber r → m.IsFiber r ∨ r = m.newFiberHandle f
  done : ∀ r, m.stateOf? r = some .done → (m.withNewFiber f).stateOf? r = some .done

theorem Nested.newFiber (hn : Nested row m) {f : Fiber}
    (hfit : (m.withNewFiber f).room ≤ Heap.slotLimit) : Joined row f m := by
  have hstatus : ∀ r, m.heap.isLive r → (m.withNewFiber f).status? r = m.status? r := fun r hr =>
    status?_newFiber_of_isLive hn.wellFormed hfit hr
  have hstate : ∀ r, m.heap.isLive r → (m.withNewFiber f).stateOf? r = m.stateOf? r := fun r hr => by
    rw [stateOf?_eq, hstatus r hr, ← stateOf?_eq]
  refine ⟨hn.congr ((adds_newFiber f m).housed hn.toHoused hfit) rfl fun r hr =>
    hstatus r (hn.isLive hr), fun r hr => ?_, fun r hr => ?_, fun r hd => ?_⟩
  · have hs := hstate r (hr.reached hn).isLive
    cases hr with
    | running hid => exact .running hid
    | waiting hr => exact .waiting hr
    | suspended hst hr => exact .suspended (hs.trans hst) hr
    | ready hst hr => exact .ready (hs.trans hst) hr
  · exact ((isFiber_newFiber hn.wellFormed hfit r).mp hr).symm
  · exact (hstate r (isLive_of_stateOf? hn.toHoused hd)).trans hd

/-- The new fiber is in the state that it was given. -/
theorem stateOf?_newFiberHandle (hn : Nested row m) {f : Fiber}
    (hfit : (m.withNewFiber f).room ≤ Heap.slotLimit) :
    (m.withNewFiber f).stateOf? (m.newFiberHandle f) = some f.state := by
  have hne : ∀ t, m.running = some t → t.id ≠ m.newFiberHandle f := by
    rintro t ht he
    refine not_isLive_newFiber hn.wellFormed hfit ?_
    exact he ▸ Heap.isLive_of_fiberAt? (hn.out t ht)
  have hat := (fiberAt?_newFiber hn.wellFormed hfit (m.newFiberHandle f)).trans (if_pos rfl)
  rw [stateOf?_eq, status?_of_fiberAt? hat hne]
  rfl

theorem shifting_enqueue (kind : FiberKind) (function : Handle) (args : List Value)
    (caller module : Option Handle) : Leads Shifting (do
      let spawned ← newFiber kind function args caller module
      modify fun m => { m with ready := m.ready ++ [spawned] } : Act Unit) where
  leads m _ m' h := by
    obtain ⟨r, _, hnew, h⟩ := bind_eq_ok h
    obtain ⟨f, hf, rfl, rfl⟩ := newFiber_eq_ok hnew
    cases h
    refine ⟨Heap.size_le_alloc _ _, fun row hn hfit => ⟨row, ?_⟩⟩
    have hj := hn.newFiber hfit
    have hp : Pushes row (m.withNewFiber f) row { m.withNewFiber f with
        ready := (m.withNewFiber f).ready ++ [m.newFiberHandle f] } :=
      hj.nested.requeue rfl rfl (fun _ => id) fun _ => List.mem_append_left _
    refine ⟨hp.nested, .pushed [] rfl, fun r hr => .inl (hp.tended r (hj.tended r hr)), fun r hr => ?_,
      fun r hd hr => hp.done r (hj.done r hd) hr⟩
    refine (hj.fibers r (hp.fibers r hr)).imp id ?_
    rintro rfl
    refine .ready ?_ (List.mem_append_right _ (List.mem_singleton_self _))
    exact (stateOf?_newFiberHandle hn hfit).trans (congrArg some hf)

instance (function : Handle) (argc : Nat) : Leads Shifting (spawn function argc) := by
  unfold spawn
  refine Leads.behind inferInstance fun _ => Leads.behind inferInstance fun _ =>
    Leads.behind inferInstance fun _ => shifting_enqueue ..

/-- A new fiber runs at once, and nothing else changes before that on which fibers depend. -/
theorem Joined.resumed {f : Fiber} {m₁ : Machine} (hj : Joined row f m)
    (hready : (m.withNewFiber f).stateOf? (m.newFiberHandle f) = some .ready)
    (hp : Pushes row (m.withNewFiber f) row m₁)
    (hstate : m₁.stateOf? (m.newFiberHandle f) = (m.withNewFiber f).stateOf? (m.newFiberHandle f))
    (hline : m₁.line row = m.line row) (h : resume (m.newFiberHandle f) m₁ = .ok () m') :
    ∃ row', Shifts row m row' m' := by
  obtain ⟨row', hresumed⟩ := hp.nested.resumed h
  have hfibers := hresumed.queues.isFiber
  have hnested := hresumed.nested hp.nested
  have htended : ∀ r, Tended row m r → Tended row' m' r := fun r hr =>
    hresumed.tended (.inl (hp.tended r (hj.tended r hr)))
  have hdone : ∀ r, m.stateOf? r = some .done → m'.IsFiber r → m'.stateOf? r = some .done := by
    intro r hd hr
    exact hresumed.done hp.nested (hp.done r (hj.done r hd) ((hfibers r).mp hr))
  cases hresumed with
  | ignored hnot _ => exact absurd (hstate.trans hready) hnot
  | called _ _ _ hid _ =>
    refine ⟨_, hnested, .pushed [m.newFiberHandle f] ?_, fun r hr => .inl (htended r hr),
      fun r hr => ?_, hdone⟩
    · rw [line, hid, hline]
      rfl
    · refine (hj.fibers r (hp.fibers r ((hfibers r).mp hr))).imp id ?_
      rintro rfl
      exact .running hid

theorem shifting_handOver (kind : FiberKind) (function : Handle) (args : List Value)
    (caller module : Option Handle) :
    Leads Shifting (do resume (← newFiber kind function args caller module) : Act Unit) where
  leads m _ m' h := by
    obtain ⟨r, _, hnew, h⟩ := bind_eq_ok h
    obtain ⟨f, hf, rfl, rfl⟩ := newFiber_eq_ok hnew
    have hroom : (m.withNewFiber f).room ≤ m'.room := after_ok h ▸ room_le_after _ _
    refine ⟨Nat.le_trans (Heap.size_le_alloc _ _) hroom, fun row hn hfit' => ?_⟩
    have hfit := Nat.le_trans hroom hfit'
    have hj := hn.newFiber hfit
    have hready := (stateOf?_newFiberHandle hn hfit).trans (congrArg some hf)
    exact hj.resumed hready hj.nested.pushes rfl rfl h

instance (key : Handle) (code : Prototype) : Leads Shifting (startModule key code) := by
  unfold startModule
  refine Leads.behind inferInstance fun _ => Leads.behind inferInstance fun _ =>
    Leads.behind inferInstance fun _ => Leads.behind inferInstance fun _ => shifting_handOver ..

/-! ## Sleeping and ending -/

theorem Returned.line {state : FiberState} (h : Returned t.id state row m m')
    (ht : m.running = some t) : m.line row = t.id :: m'.line row.tail := by
  rw [line_running ht, Machine.line, h.runningId]
  cases row <;> rfl

theorem Returned.fresh {id : Handle} {state : FiberState} (h : Returned id state row m m')
    (hr : m'.IsFiber r) : m.IsFiber r := (h.queues.isFiber r).mp hr

theorem Returned.done {id : Handle} {state : FiberState} (h : Returned id state row m m')
    (hn : Nested row m) (hid : m.runningId? = some id) (hd : m.stateOf? r = some .done) :
    m'.stateOf? r = some .done := by
  have hline : r ∉ m.line row := fun hr => by
    have hstate := hn.stateOf?_line hr
    simp [hd] at hstate
  rw [mem_line, not_or] at hline
  refine (h.others r (fun he => hline.1 (he ▸ hid)) fun hhead => hline.2 ?_).trans hd
  exact List.mem_of_mem_head? hhead

theorem Returned.tended {id : Handle} {state : FiberState} (h : Returned id state row m m')
    (hid : m.runningId? = some id) (hr : Tended row m r) (hne : r ≠ id) :
    Tended row.tail m' r := by
  by_cases hhead : row.head? = some r
  · exact .running (h.runningId.trans hhead)
  · have hstate := h.others r hne hhead
    cases hr with
    | running hr => exact absurd (Option.some.inj (hr.symm.trans hid)) hne
    | waiting hr =>
      refine .waiting ?_
      cases row with
      | nil => cases hr
      | cons c rest =>
        refine (List.mem_cons.mp hr).resolve_left ?_
        rintro rfl
        exact hhead rfl
    | suspended hs hr => exact .suspended (hstate.trans hs) (h.queues.wakeups_eq ▸ hr)
    | ready hs hr => exact .ready (hstate.trans hs) (h.queues.ready ▸ hr)

instance (delay : Duration) : Leads Shifting (sleep delay) where
  leads m _ m' h := by
    refine ⟨after_ok h ▸ room_le_after (sleep delay) m, fun row hn _ => ⟨row.tail, ?_⟩⟩
    obtain ⟨id, _, hid, h⟩ := bind_eq_ok h
    obtain ⟨rfl, t, ht, rfl⟩ := runningId_eq_ok hid
    obtain ⟨_, m₁, hm₁, h⟩ := bind_eq_ok h
    obtain rfl : { m with timers := m.timers.add delay t.id } = m₁ := by
      simpa [modify_apply] using hm₁
    have hlisted : ∀ r, r = t.id ∨ r ∈ m.wakeups →
        r ∈ wakeups { m with timers := m.timers.add delay t.id } := by
      intro r hr
      simp only [wakeups, Timers.fibers, Timers.add, List.map_append, List.mem_append, List.map_cons,
        List.map_nil, List.mem_singleton] at hr ⊢
      tauto
    have hp : Pushes row m row { m with timers := m.timers.add delay t.id } :=
      hn.requeue rfl rfl (fun r hr => hlisted r (.inr hr)) fun _ => id
    have hreturned := hp.nested.returned ht h
    refine ⟨hreturned.nested, .popped t.id (hreturned.line ht) (.inl hreturned.state),
      fun r hr => .inl ?_, fun r hr => .inl (hreturned.fresh hr),
      fun r hd _ => hreturned.done hp.nested (runningId?_some ht) hd⟩
    by_cases hrt : r = t.id
    · refine .suspended (hrt ▸ hreturned.state) ?_
      rw [hreturned.queues.wakeups_eq]
      exact hlisted r (.inl hrt)
    · exact hreturned.tended (runningId?_some ht) (hp.tended r hr) hrt

theorem Nested.shifts_depart (hn : Nested row m) (ht : m.running = some t)
    (h : depart t.id m = .ok () m') : Shifts row m row.tail m' := by
  obtain ⟨_, m₁, hm₁, h⟩ := bind_eq_ok h
  obtain rfl : { m with root := m.root.filter (· != t.id) } = m₁ := by
    simpa [modify_apply] using hm₁
  have hp : Pushes row m row { m with root := m.root.filter (· != t.id) } :=
    hn.requeue rfl rfl (fun _ => id) fun _ => id
  have hreturned := hp.nested.returned ht h
  refine ⟨hreturned.nested, .popped t.id (hreturned.line ht) (.inr hreturned.state),
    fun r hr => ?_, fun r hr => .inl (hreturned.fresh hr),
    fun r hd _ => hreturned.done hp.nested (runningId?_some ht) hd⟩
  by_cases hrt : r = t.id
  · exact .inr ⟨hrt ▸ runningId?_some ht, hrt ▸ hreturned.state⟩
  · exact .inl (hreturned.tended (runningId?_some ht) (hp.tended r hr) hrt)

instance : Leads Shifting finish where
  leads m _ m' h := by
    obtain ⟨t, m₁, ht, hrow, hd⟩ := finish_eq_ok h
    refine ⟨(room_le_of_row hrow).trans (room_le_depart hd), fun row hn hfit => ⟨row.tail, ?_⟩⟩
    obtain ⟨hw, ha⟩ := row_alike hrow hn.wellFormed ((room_le_depart hd).trans hfit)
    obtain ⟨t₁, ht₁, hid⟩ := ha.running_id ht
    rw [← hid] at hd
    exact ((hn.alike hw ha).shifts_depart ht₁ hd).alike_left ha

/-! ## Hosts that intrude -/

/-- What a native function of the host may do, one thing at a time: it may build and change
objects other than fibers, collect, post any event and move the clock. -/
inductive Intrusion : Machine → Machine → Prop
  | still {m m' : Machine} : Still m m' → Intrusion m m'
  | collect (m : Machine) : Intrusion m m.collected
  | post (m : Machine) (event : Event) : Intrusion m (m.post event)
  | clock (m : Machine) (now : Duration) : Intrusion m { m with timers := { m.timers with now } }

theorem Intrusion.rests (h : Intrusion m m') : Rests m m' := by
  cases h with
  | still hs => exact hs.rests
  | collect => exact rests_collected m
  | post | clock => exact .of_eq rfl rfl

theorem Intrusion.sameRunning (h : Intrusion m m') : m'.running = m.running := by
  cases h with
  | still hs => exact hs.sameRunning
  | collect | post | clock => rfl

theorem Intrusion.pushes (h : Intrusion m m') (hn : Nested row m)
    (hfit : m'.room ≤ Heap.slotLimit) : Pushes row m row m' := by
  cases h with
  | still hs =>
    obtain ⟨hw, ha⟩ := hs.steady.move.alike hn.wellFormed hfit
    exact hn.pushes_alike hw ha
  | collect => exact hn.collected
  | post event =>
    refine hn.requeue rfl rfl (fun r hr => ?_) fun _ => id
    simp only [wakeups, Machine.post, List.filterMap_append, List.mem_append] at hr ⊢
    tauto
  | clock => exact hn.requeue rfl rfl (fun _ => id) fun _ => id

theorem Outside.intrusion (h : Outside m m') : Intrusion m m' := by
  cases h with
  | clock d => exact .clock m _
  | host host => exact .still (.beside rfl ⟨rfl, rfl, rfl, rfl, rfl, rfl⟩)

theorem rests_of_intrusions (h : ReflTransGen Intrusion m m') : Rests m m' :=
  .of_row (ReflTransGen.mono (fun _ _ => Intrusion.rests) _ _ h)

theorem pushes_of_intrusions (h : ReflTransGen Intrusion m m') (hn : Nested row m)
    (hfit : m'.room ≤ Heap.slotLimit) : Pushes row m row m' := by
  induction h with
  | refl => exact hn.pushes
  | tail _ hi ih =>
    have hp := ih (hi.rests.room_le.trans hfit)
    exact hp.trans (hi.pushes hp.nested hfit)

theorem running_of_intrusions (h : ReflTransGen Intrusion m m') : m'.running = m.running := by
  induction h with
  | refl => rfl
  | tail _ hi ih => exact hi.sameRunning.trans ih

end Machine

open Machine

/-- The native functions of a host do not work on fibers, except that they may post events
that resume them. -/
def HostFunctions.Intrudes (host : HostFunctions) : Prop :=
  ∀ id args, Makes Intrusion (host.call id args)

variable {host : HostFunctions}

theorem HostFunctions.Intrudes.leavesWork (hh : host.Intrudes) : host.LeavesWork where
  rests id args := (hh id args).mono fun _ _ => Intrusion.rests
  running id args := (hh id args).mono fun _ _ => Intrusion.sameRunning

theorem HostFunctions.Intrudes.sameRunning (hh : host.Intrudes) (n : Native) (args : List Value) :
    Makes SameRunning (runNative host n args) := (hh.leavesWork.ofNative n args).2

namespace Machine

theorem shifting_runNative (hh : host.Intrudes) (n : Native) (args : List Value) :
    Leads (Staying Shifting) (runNative host n args) := by
  unfold runNative
  split
  · infer_instance
  · refine ⟨fun m _ m' h => ?_⟩
    have hrow : ReflTransGen Intrusion m m' := after_ok h ▸ (hh _ _).row m
    have hid : m'.runningId? = m.runningId? := by
      rw [runningId?, running_of_intrusions hrow, runningId?]
    refine ⟨⟨(rests_of_intrusions hrow).room_le, fun row hn hfit => ⟨row, ?_⟩⟩, hid⟩
    exact (pushes_of_intrusions hrow hn hfit).shifts

theorem shifting_instruction (hh : host.Intrudes) : Leads Shifting (instruction host) :=
  have := shifting_runNative hh
  inferInstance

instance (p : Prototype) : Leads Shifting (start p) := by
  unfold start
  refine Leads.behind inferInstance fun function => ⟨fun m _ m' h => ?_⟩
  obtain ⟨r, _, hnew, h⟩ := bind_eq_ok h
  obtain ⟨f, hf, rfl, rfl⟩ := newFiber_eq_ok hnew
  obtain ⟨_, m₁, hroot, h⟩ := bind_eq_ok h
  obtain rfl : { m.withNewFiber f with root := some (m.newFiberHandle f) } = m₁ := by
    simpa [modify_apply] using hroot
  have hroom : (m.withNewFiber f).room ≤ m'.room := by
    have hle := room_le_after (resume (m.newFiberHandle f))
      { m.withNewFiber f with root := some (m.newFiberHandle f) }
    rwa [after_ok h] at hle
  refine ⟨Nat.le_trans (Heap.size_le_alloc _ _) hroom, fun row hn hfit' => ?_⟩
  have hfit := Nat.le_trans hroom hfit'
  have hj := hn.newFiber hfit
  have hready := (stateOf?_newFiberHandle hn hfit).trans (congrArg some hf)
  have hp : Pushes row (m.withNewFiber f) row
      { m.withNewFiber f with root := some (m.newFiberHandle f) } :=
    hj.nested.requeue rfl rfl (fun _ => id) fun _ => id
  exact hj.resumed hready hp rfl rfl h

/-! ## Runs -/

theorem Nested.step (hh : host.Intrudes) (hn : Nested row m) (hs : Steps host m m')
    (hfit : m'.room ≤ Heap.slotLimit) : ∃ row', Shifts row m row' m' := by
  cases hs with
  | safePoint h =>
    obtain ⟨row', hp, -⟩ := hn.safePoint h
    exact ⟨row', hp.shifts⟩
  | instruction h => exact ((shifting_instruction hh).leads m () m' h).shifts row hn hfit
  | outside h => exact ⟨row, (h.intrusion.pushes hn hfit).shifts⟩

theorem Steps.idle (hh : host.Intrudes) (hs : Steps host m m') : Idle m m' := by
  cases hs with
  | safePoint h => exact (after_ok h ▸ rests_after Machine.safePoint m).adds.idle
  | instruction h => exact (idle_instruction hh.leavesWork).leads m () m' h
  | outside h => exact h.intrusion.rests.adds.idle

theorem nested_nobody (hw : m.heap.WellFormed) (hrun : m.running = none) : Nested [] m where
  wellFormed := hw
  out t ht := by simp [hrun] at ht
  waits := by
    rw [awaiting, hrun]
    exact .nobody
  nodup := .nil
  running t ht := by simp [hrun] at ht

/-- Every fiber of a run goes on or is done. -/
theorem Shifts.carried {own : Set Handle} (h : Shifts row m row' m')
    (hown : ∀ r ∈ own, Tended row m r ∨ m.stateOf? r = some .done) :
    ∀ r ∈ carried own m m', Tended row' m' r ∨ m'.stateOf? r = some .done := by
  rintro r ⟨hr, hold⟩
  by_cases hf : m.IsFiber r
  · rcases hown r (hold.resolve_right fun h => h hf) with ht | hd
    · exact (h.tended r ht).imp id And.right
    · exact .inr (h.done r hd hr)
  · exact .inl ((h.fresh r hr).resolve_left hf)

theorem Run.nested {own : Set Handle} {begun : Machine} (hh : host.Intrudes)
    (hr : Run host begun own m) (hw : begun.heap.WellFormed) (hrun : begun.running = none)
    (hfit : m.room ≤ Heap.slotLimit) :
    ∃ row, Nested row m ∧ ∀ r ∈ own, Tended row m r ∨ m.stateOf? r = some .done := by
  induction hr with
  | @start m p h =>
    have hstart : Shifting begun m := Leads.leads (x := Machine.start p) _ _ _ h
    obtain ⟨row, hs⟩ := hstart.shifts [] (nested_nobody hw hrun) hfit
    exact ⟨row, hs.nested, hs.carried (fun r hr => absurd hr (Set.notMem_empty r))⟩
  | step _ hs ih =>
    obtain ⟨row, hn, hown⟩ := ih ((hs.idle hh).room_le.trans hfit)
    obtain ⟨row', hshifts⟩ := hn.step hh hs hfit
    exact ⟨row', hshifts.nested, hshifts.carried hown⟩

/-! ## Fibers that are switched out -/

/-- A step in which a fiber executes no instruction. -/
inductive Apart (host : HostFunctions) (r : Handle) (m m' : Machine) : Prop
  | safePoint {found : Bool} : Machine.safePoint m = .ok found m' → Apart host r m m'
  | instruction : m.runningId? ≠ some r → Machine.instruction host m = .ok () m' →
      Apart host r m m'
  | outside : Outside m m' → Apart host r m m'

theorem Apart.step (ha : Apart host r m m') : Steps host m m' := by
  cases ha with
  | safePoint h => exact .safePoint h
  | instruction _ h => exact .instruction h
  | outside h => exact .outside h

theorem Tended.exists_work (hn : Nested row m) (h : Tended row m r) : ∃ w, m.work? r = some w := by
  by_cases hid : m.runningId? = some r
  · obtain ⟨t, ht, rfl⟩ := Option.map_eq_some_iff.mp hid
    exact ⟨_, work?_running ht⟩
  · have hstatus : ∃ s, m.status? r = some s := by
      have hstate : ∃ state, m.stateOf? r = some state := by
        cases h with
        | running h => exact absurd h hid
        | waiting hr => exact (hn.stateOf?_line (mem_line.mpr (.inr hr))).elim (⟨_, ·⟩) (⟨_, ·⟩)
        | suspended hs _ => exact ⟨_, hs⟩
        | ready hs _ => exact ⟨_, hs⟩
      obtain ⟨state, hs⟩ := hstate
      rw [stateOf?_eq] at hs
      obtain ⟨s, hs, -⟩ := Option.map_eq_some_iff.mp hs
      exact ⟨s, hs⟩
    obtain ⟨s, hs⟩ := hstatus
    obtain ⟨f, hf, -⟩ := fiber_of_status hs fun t ht he => hid (he ▸ runningId?_some ht)
    exact ⟨f.work, (work?_parked hid).trans (parkedWork?_of_fiberAt? hf)⟩

/-- What is known of a fiber as long as it executes nothing. -/
structure Away (r : Handle) (row : List Handle) (m : Machine) (row' : List Handle) (m' : Machine) :
    Prop where
  nested : Nested row' m'
  tended : Tended row' m' r
  work : m'.work? r = m.work? r
  line : ∀ above rest, m.line row = above ++ r :: rest →
    ∃ above', m'.line row' = above' ++ r :: rest

/-- What was there before and is there afterwards is the same. -/
theorem work?_eq_of_tended (hn : Nested row m) (ht : Tended row m r) (hn' : Nested row' m')
    (ht' : Tended row' m' r)
    (h : ∀ w, m'.work? r = some w → m.work? r = some w ∨ m.work? r = none) :
    m'.work? r = m.work? r := by
  obtain ⟨w, hw⟩ := ht.exists_work hn
  obtain ⟨w', hw'⟩ := ht'.exists_work hn'
  rcases h w' hw' with hold | hold
  · rw [hw', hold]
  · simp [hw] at hold

theorem Pushes.away (hp : Pushes row m row' m') (hn : Nested row m) (ht : Tended row m r)
    (hr : Rests m m') (hfit : m'.room ≤ Heap.slotLimit) : Away r row m row' m' := by
  obtain ⟨fibers, hpushed⟩ := hp.line
  refine ⟨hp.nested, hp.tended r ht, ?_, fun above rest hline => ⟨fibers ++ above, ?_⟩⟩
  · exact work?_eq_of_tended hn ht hp.nested (hp.tended r ht) fun w hw =>
      .inl (hr.work hn.toHoused hfit r w hw)
  · rw [hpushed, hline, List.append_assoc]

theorem Shifts.away (hs : Shifts row m row' m') (hn : Nested row m) (ht : Tended row m r)
    (hid : m.runningId? ≠ some r) (hi : Idle m m') (hfit : m'.room ≤ Heap.slotLimit) :
    Away r row m row' m' := by
  have ht' : Tended row' m' r := (hs.tended r ht).resolve_right fun h => hid h.1
  refine ⟨hs.nested, ht', ?_, fun above rest hline => ?_⟩
  · exact work?_eq_of_tended hn ht hs.nested ht' fun w hw => hi.work hn.toHoused hfit r w hid hw
  · cases hs.shift with
    | pushed fibers hpushed => exact ⟨fibers ++ above, by rw [hpushed, hline, List.append_assoc]⟩
    | popped t hpopped _ =>
      rw [hpopped] at hline
      cases above with
      | nil => exact absurd (hn.line_eq_cons (hpopped.trans hline)).1 hid
      | cons c above => exact ⟨above, (List.cons.inj hline).2⟩

theorem Apart.away (hh : host.Intrudes) (ha : Apart host r m m') (hn : Nested row m)
    (ht : Tended row m r) (hfit : m'.room ≤ Heap.slotLimit) : ∃ row', Away r row m row' m' := by
  cases ha with
  | @safePoint found h =>
    obtain ⟨row', hp, -⟩ := hn.safePoint h
    exact ⟨row', hp.away hn ht (after_ok h ▸ rests_after Machine.safePoint m) hfit⟩
  | instruction hid h =>
    have hstep : Steps host m m' := .instruction h
    obtain ⟨row', hs⟩ := hn.step hh hstep hfit
    exact ⟨row', hs.away hn ht hid (hstep.idle hh) hfit⟩
  | outside h => exact ⟨row, (h.intrusion.pushes hn hfit).away hn ht h.intrusion.rests hfit⟩

theorem Away.trans {m₁ : Machine} {row₁ : List Handle} (h : Away r row m row₁ m₁)
    (h' : Away r row₁ m₁ row' m') : Away r row m row' m' where
  nested := h'.nested
  tended := h'.tended
  work := h'.work.trans h.work
  line above rest hline := by
    obtain ⟨above₁, hline₁⟩ := h.line above rest hline
    exact h'.line above₁ rest hline₁

theorem Nested.away (hh : host.Intrudes) (hn : Nested row m) (ht : Tended row m r)
    (h : ReflTransGen (Apart host r) m m') (hfit : m'.room ≤ Heap.slotLimit) :
    ∃ row', Away r row m row' m' := by
  induction h with
  | refl => exact ⟨row, hn, ht, rfl, fun above _ hline => ⟨above, hline⟩⟩
  | tail _ ha ih =>
    obtain ⟨row₁, h₁⟩ := ih ((ha.step.idle hh).room_le.trans hfit)
    obtain ⟨row', h'⟩ := ha.away hh h₁.nested h₁.tended hfit
    exact ⟨row', h₁.trans h'⟩

theorem Nested.waiting_iff (hn : Nested row m) (ht : Tended row m r) :
    m.stateOf? r = some .waiting ↔ r ∈ row := by
  refine ⟨fun hs => ?_, fun hr => ?_⟩
  · cases ht with
    | running hid =>
      obtain ⟨t, ht, rfl⟩ := Option.map_eq_some_iff.mp hid
      rw [stateOf?_eq, hn.status_running ht] at hs
      cases hs
    | waiting hr => exact hr
    | suspended hs' _ => simp [hs] at hs'
    | ready hs' _ => simp [hs] at hs'
  · obtain ⟨c, hc⟩ := hn.waits.waiting r hr
    rw [stateOf?_eq, hc, Option.map_some]

/-- A fiber that waits goes on when the one above it parks or ends, and not before. -/
theorem Shifts.goesOn_iff (hn : Nested row m) (hs : Shifts row m row' m') (hr : r ∈ row) :
    m'.runningId? = some r ↔ row.head? = some r ∧ ∃ t, m.runningId? = some t ∧
      (m'.stateOf? t = some .suspended ∨ m'.stateOf? t = some .done) := by
  have hd := hs.nested.nodup_line
  refine ⟨fun hid => ?_, ?_⟩
  · have hline' : m'.line row' = r :: row' := by
      rw [line, hid]
      rfl
    cases hs.shift with
    | pushed fibers hpushed =>
      -- it would be in the stack twice, running and waiting
      refine absurd hid (hs.nested.ne_of_mem ?_)
      rw [hline'] at hpushed
      cases fibers with
      | nil => exact absurd (hn.line_eq_cons hpushed.symm).1 (hn.ne_of_mem hr)
      | cons c fibers =>
        rw [(List.cons.inj hpushed).2]
        exact List.mem_append_right _ (mem_line.mpr (.inr hr))
    | popped t hpopped hst =>
      obtain ⟨ht, hrow⟩ := hn.line_eq_cons hpopped
      rw [hrow, hline']
      exact ⟨rfl, t, ht, hst⟩
  · rintro ⟨hhead, t, ht, hst⟩
    cases hs.shift with
    | pushed fibers hpushed =>
      have hmem : t ∈ m'.line row' := by
        rw [hpushed]
        exact List.mem_append_right _ (mem_line.mpr (.inl ht))
      have hstate := hs.nested.stateOf?_line hmem
      rcases hst with hst | hst <;> simp [hst] at hstate
    | popped t' hpopped _ =>
      obtain ⟨-, hrow⟩ := hn.line_eq_cons hpopped
      cases hline : m'.line row' with
      | nil =>
        rw [hrow, hline] at hhead
        cases hhead
      | cons c rest =>
        rw [hrow, hline, List.head?_cons, Option.some.injEq] at hhead
        exact hhead ▸ (hs.nested.line_eq_cons hline).1

/-- When the fiber runs again, what was under it is under it again. -/
theorem Away.under {above rest : List Handle} (h : Away r row m row' m')
    (hline : m.line row = above ++ r :: rest) (hid : m'.runningId? = some r) : row' = rest := by
  obtain ⟨above', hline'⟩ := h.line above rest hline
  have hd := h.nested.nodup_line
  have hcons : m'.line row' = r :: row' := by
    rw [Machine.line, hid]
    rfl
  cases above' with
  | nil => exact (h.nested.line_eq_cons hline').2
  | cons c above' =>
    obtain ⟨rfl, hrow⟩ := List.cons.inj (hcons.symm.trans hline')
    rw [hcons, hrow] at hd
    simp at hd

/-- What holds of every run in which a host may post any events, as long as the slots of the
heap can be told apart, whatever goes on outside. The running fiber and the fibers that wait for
one another under it are a stack, and every fiber of the run is in the stack, listed in a queue or
done. Switching changes the work of no fiber. As long as a fiber executes nothing, above all when
it is switched out and until it runs again, it has the work that it had; it waits as long as it is
in the stack, with the same fibers under it, and goes on exactly when the fiber above it parks or
is done. -/
structure PreemptionGuarantees (host : HostFunctions) : Prop where
  nested : ∀ {begun own m}, begun.heap.WellFormed → begun.running = none →
    Run host begun own m → m.room ≤ Heap.slotLimit →
      ∃ row, Nested row m ∧ ∀ r ∈ own, Tended row m r ∨ m.stateOf? r = some .done
  step : ∀ {row m m'}, Nested row m → Steps host m m' → m'.room ≤ Heap.slotLimit →
    ∃ row', Shifts row m row' m'
  waiting : ∀ {row m r}, Nested row m → Tended row m r →
    (m.stateOf? r = some .waiting ↔ r ∈ row)
  resumes : ∀ m target, Rests m (after (resume target) m)
  parks : ∀ m, Rests m (after (returnToCaller .suspended) m)
  away : ∀ {row m m' r}, Nested row m → Tended row m r → ReflTransGen (Apart host r) m m' →
    m'.room ≤ Heap.slotLimit → ∃ row', Away r row m row' m' ∧
      ∀ above rest, m.line row = above ++ r :: rest → m'.runningId? = some r → row' = rest
  goesOn : ∀ {row m row' m' r}, Nested row m → Shifts row m row' m' → r ∈ row →
    (m'.runningId? = some r ↔ row.head? = some r ∧ ∃ t, m.runningId? = some t ∧
      (m'.stateOf? t = some .suspended ∨ m'.stateOf? t = some .done))

theorem preemptionGuarantees (hh : host.Intrudes) : PreemptionGuarantees host where
  nested hw hrun hr hfit := hr.nested hh hw hrun hfit
  step hn hs hfit := hn.step hh hs hfit
  waiting hn ht := hn.waiting_iff ht
  resumes m target := rests_after (Machine.resume target) m
  parks m := rests_after (Machine.returnToCaller .suspended) m
  away hn ht h hfit := by
    obtain ⟨row', haway⟩ := hn.away hh ht h hfit
    exact ⟨row', haway, fun _ _ => haway.under⟩
  goesOn hn hs hr := hs.goesOn_iff hn hr

/-! ## A host that collects, posts events and moves the clock -/

instance (priority := low) {α : Type} (x : Act α) [hx : Makes Still x] : Makes Intrusion x :=
  hx.mono fun _ _ => .still

instance : Makes Intrusion Machine.collect := .single .collect

instance (event : Event) : Makes Intrusion (modify (Machine.post event)) :=
  .single fun m => .post m event

instance (d : Duration) : Makes Intrusion (modify (Machine.advance d)) :=
  .single fun m => .clock m _

theorem intrudes_probe : Probe.host.Intrudes := by
  intro id args
  simp only [Probe.host]
  split
  · unfold Probe.run Probe.addToField Probe.bumpBox
    exact .parts
  · exact .throw _

/-- A new machine with some code files at hand. -/
def withCode (files : List (String × Prototype)) : Machine :=
  (new {}).withHost (files.foldl (fun h file => h.addFile file.1 (CodeFile.write file.2)) .empty)

theorem wellFormed_withCode (files : List (String × Prototype)) :
    (withCode files).heap.WellFormed :=
  (orderly_new {} (by decide +kernel)).scheduled.wellFormed

theorem running_withCode (files : List (String × Prototype)) : (withCode files).running = none := by
  obtain ⟨heap, globals, methods, -, hnew⟩ := exists_new {}
  rw [withCode, hnew]
  rfl

/-- The code of a module that does nothing. -/
def idle : Prototype := ⟨"idle", 0, false, #[Opcode.pushNil.toByte, Opcode.ret.toByte], [], #[]⟩

/-- A program that imports the module. -/
def importing : Prototype where
  name := "script"
  arity := 0
  isAsync := false
  code := #[Opcode.importModule.toByte, 0, 0, Opcode.pushNil.toByte, Opcode.ret.toByte]
  constants := [.text "idle"]
  lines := #[]

/-- The machine in which the program begins. -/
def importing₀ : Machine := after (start importing) (withCode [("idle.ember", idle)])

def importing₁ : Machine := after (instruction Probe.host) importing₀

def importing₂ : Machine := after (instruction Probe.host) importing₁

def importing₃ : Machine := after (instruction Probe.host) importing₂

/-- The program waits for the module, and goes on when it is done. -/
theorem preemptionGuarantees_probe : PreemptionGuarantees Probe.host ∧
    ∃ row m m' r, Nested row m ∧ r ∈ row ∧ ReflTransGen (Apart Probe.host r) m m' ∧
      m'.runningId? = some r ∧ m'.room ≤ Heap.slotLimit := by
  refine ⟨preemptionGuarantees intrudes_probe, ?_⟩
  obtain ⟨hstart, hloads, hpush, hret, hfit₁, hfit, hawaits, hbelow⟩ :
      yields (start importing) () (withCode [("idle.ember", idle)]) = true ∧
      yields (instruction Probe.host) () importing₀ = true ∧
      yields (instruction Probe.host) () importing₁ = true ∧
      yields (instruction Probe.host) () importing₂ = true ∧
      importing₁.room ≤ Heap.slotLimit ∧ importing₃.room ≤ Heap.slotLimit ∧
      importing₁.awaiting ≠ none ∧ importing₁.runningId? ≠ importing₁.awaiting ∧
      importing₂.runningId? ≠ importing₁.awaiting ∧
      importing₃.runningId? = importing₁.awaiting := by decide +kernel
  have hpush : instruction Probe.host importing₁ = .ok () importing₂ := eq_ok_of_yields hpush
  have hret : instruction Probe.host importing₂ = .ok () importing₃ := eq_ok_of_yields hret
  have hrun : ∃ own, Run Probe.host (withCode [("idle.ember", idle)]) own importing₁ :=
    ⟨_, .step (.start (eq_ok_of_yields hstart)) (.instruction (eq_ok_of_yields hloads))⟩
  obtain ⟨own, hrun⟩ := hrun
  obtain ⟨row, hn, -⟩ := (preemptionGuarantees intrudes_probe).nested (wellFormed_withCode _)
    (running_withCode _) hrun hfit₁
  have hchain := hn.waits
  cases hwaits : importing₁.awaiting with
  | none => exact absurd hwaits hawaits
  | some r =>
    rw [hwaits] at hchain hbelow
    cases hchain with
    | next =>
      have haway : ReflTransGen (Apart Probe.host r) importing₁ importing₃ :=
        .tail (.single (.instruction hbelow.1 hpush)) (.instruction hbelow.2.1 hret)
      exact ⟨_, importing₁, importing₃, r, hn, List.mem_cons_self, haway, hbelow.2.2, hfit⟩

end Machine

end FiberMachine
