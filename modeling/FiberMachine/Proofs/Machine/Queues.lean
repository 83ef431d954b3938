import FiberMachine.Proofs.Machine.Returns
import FiberMachine.Proofs.Machine.Wakening

/-!
# What happens to the queues

A fiber lies in a queue while it sleeps or has not started. An instruction lines up what it
spawns behind the others, and it puts a fiber to sleep only if it is an await: then the running
fiber gets one timer.
-/

namespace FiberMachine

open Relation (ReflTransGen)

/-- The state of a fiber that lies in a queue. -/
def FiberState.Queued (s : FiberState) : Prop := s = .suspended ∨ s = .ready

/-- The time for which an await of a value puts a fiber to sleep. -/
def Value.delay? (v : Value) : Option Duration :=
  v.toFloat?.bind fun ms => if 0.0 ≤ ms then Duration.ofMilliseconds? ms else none

namespace Machine

variable {host : HostFunctions} {m m₁ m' : Machine} {row row' : List Handle} {r target : Handle}
  {s state : FiberState} {delay : Duration} {u : Unit}

/-! ## Switches -/

theorem Nested.not_mem_line (hn : Nested row m) (hs : s.Queued) (hr : m.stateOf? r = some s) :
    r ∉ m.line row := by
  intro hline
  have hstate := hn.stateOf?_line hline
  rw [hr] at hstate
  rcases hs with rfl | rfl <;> simp at hstate

/-- A fiber that is resumed leaves its queue, and no other one comes into a queue. -/
theorem Resumed.queued (h : Resumed target row m row' m') (hs : s.Queued)
    (hr : m'.stateOf? r = some s) : m.stateOf? r = some s := by
  cases h with
  | ignored => exact hr
  | called _ hn _ hid hothers =>
    have hline := hn.not_mem_line hs hr
    rw [mem_line, not_or, hid] at hline
    rw [← hothers r (fun he => hline.1 (he ▸ rfl)) hline.2]
    exact hr

theorem Returned.queued {id : Handle} (h : Returned id state row m m') (hs : s.Queued)
    (hr : m'.stateOf? r = some s) : m.stateOf? r = some s ∨ r = id ∧ s = state := by
  by_cases hid : r = id
  · rw [hid, h.state, Option.some.injEq] at hr
    exact .inr ⟨hid, hr.symm⟩
  · have hline := h.nested.not_mem_line hs hr
    rw [mem_line, not_or, h.runningId] at hline
    rw [← h.others r hid hline.1]
    exact .inl hr

theorem Joined.queued {f : Fiber} (hn : Nested row m) (hf : f.state = .ready)
    (hfit : (m.withNewFiber f).room ≤ Heap.slotLimit)
    (hr : (m.withNewFiber f).stateOf? r = some s) :
    m.stateOf? r = some s ∨ s = .ready ∧ ¬ m.IsFiber r := by
  have hfresh := not_isLive_newFiber hn.wellFormed hfit
  by_cases hid : r = m.newFiberHandle f
  · rw [hid, stateOf?_newFiberHandle hn hfit, hf, Option.some.injEq] at hr
    exact .inr ⟨hr.symm, hid ▸ fun h => hfresh (isLive_of_isFiber h)⟩
  · refine .inl ?_
    have hstatus : (m.withNewFiber f).status? r = m.status? r := by
      simp only [status?, parkedStatus?, fiberAt?_newFiber hn.wellFormed hfit, if_neg hid]
      rfl
    rw [stateOf?_eq, ← hstatus, ← stateOf?_eq]
    exact hr

/-! ## Instructions that do not sleep -/

/-- The timers stay, no fiber falls asleep, and only new ones become ready, of which one at
most joins the line. -/
structure Stirs (m m' : Machine) : Prop where
  pending : m'.timers.pending = m.timers.pending
  ready : ∃ joined : Option Handle, m'.ready = m.ready ++ joined.toList
  queued : ∀ r s, s.Queued → m'.stateOf? r = some s →
    m.stateOf? r = some s ∨ s = .ready ∧ ¬ m.IsFiber r

structure Stirring (m m' : Machine) : Prop extends Tends m m' where
  stirs : ∀ row, Nested row m → m'.room ≤ Heap.slotLimit → Stirs m m'

theorem none_joined (h : m'.ready = m.ready) :
    ∃ joined : Option Handle, m'.ready = m.ready ++ joined.toList :=
  ⟨none, by rw [h, Option.toList_none, List.append_nil]⟩

theorem Alike.stirs (ha : Alike m m') : Stirs m m' where
  pending := congrArg Timers.pending ha.outline.timers
  ready := none_joined ha.outline.ready
  queued r _ _ hr := .inl ((ha.stateOf?_eq r).symm.trans hr)

theorem Stirs.alike_left (ha : Alike m m₁) (h : Stirs m₁ m') : Stirs m m' where
  pending := h.pending.trans (congrArg Timers.pending ha.outline.timers)
  ready := ha.outline.ready ▸ h.ready
  queued r s hs hr := by
    have hqueued := h.queued r s hs hr
    rwa [ha.stateOf?_eq, ha.isFiber] at hqueued

theorem Stirs.alike_right (h : Stirs m m₁) (ha : Alike m₁ m') : Stirs m m' where
  pending := (congrArg Timers.pending ha.outline.timers).trans h.pending
  ready := ha.outline.ready ▸ h.ready
  queued r s hs hr := h.queued r s hs ((ha.stateOf?_eq r).symm.trans hr)

instance : Absorbs Stirring where
  of_row hr := by
    refine ⟨(houses_of_moves hr).toTends, fun row hn hfit => ?_⟩
    exact (row_alike hr hn.wellFormed hfit).2.stirs
  row_left hr h := by
    refine ⟨(houses_of_moves hr).toTends.trans h.toTends, fun row hn hfit => ?_⟩
    obtain ⟨hw, ha⟩ := row_alike hr hn.wellFormed (h.room_le.trans hfit)
    exact (h.stirs row (hn.alike hw ha) hfit).alike_left ha
  row_right h hr := by
    refine ⟨h.related.toTends.trans (houses_of_moves hr).toTends, fun row hn hfit => ?_⟩
    have hfit₁ := (room_le_of_row hr).trans hfit
    obtain ⟨-, ha⟩ := row_alike hr (h.related.wellFormed hn.wellFormed hfit₁) hfit
    exact (h.related.stirs row hn hfit₁).alike_right ha

instance (function : Handle) (argc : Nat) : Leads Stirring (spawn function argc) := by
  unfold spawn
  refine .behind inferInstance fun id => .behind inferInstance fun args =>
    .behind inferInstance fun _ => ⟨fun m _ m' h => ?_⟩
  obtain ⟨r, _, hnew, h⟩ := bind_eq_ok h
  obtain ⟨f, hf, rfl, rfl⟩ := newFiber_eq_ok hnew
  cases h
  refine ⟨(adds_newFiber f m).toTends.trans (.of_heap_eq rfl), fun row hn hfit => ?_⟩
  refine ⟨rfl, ⟨some (m.newFiberHandle f), rfl⟩, fun r s _ hstate => ?_⟩
  exact Joined.queued hn hf hfit hstate

/-- A new fiber that runs at once leaves the queues as they are. -/
theorem stirring_handOver (kind : FiberKind) (function : Handle) (args : List Value)
    (caller module : Option Handle) :
    Leads Stirring (do resume (← newFiber kind function args caller module) : Act Unit) where
  leads m _ m' h := by
    obtain ⟨r, _, hnew, h⟩ := bind_eq_ok h
    obtain ⟨f, hf, rfl, rfl⟩ := newFiber_eq_ok hnew
    have htends := after_ok h ▸ tends_after (resume (m.newFiberHandle f)) (m.withNewFiber f)
    refine ⟨(adds_newFiber f m).toTends.trans htends, fun row hn hfit => ?_⟩
    have hfit₁ := htends.room_le.trans hfit
    obtain ⟨row', hresumed⟩ := (hn.newFiber hfit₁).nested.resumed h
    have hq := hresumed.queues
    refine ⟨congrArg Timers.pending hq.timers, none_joined hq.ready, fun r s hs hstate => ?_⟩
    exact Joined.queued hn hf hfit₁ (hresumed.queued hs hstate)

instance (key : Handle) (code : Prototype) : Leads Stirring (startModule key code) := by
  unfold startModule
  refine Leads.behind inferInstance fun _ => Leads.behind inferInstance fun _ =>
    Leads.behind inferInstance fun _ => Leads.behind inferInstance fun _ => stirring_handOver ..

theorem Nested.stirs_depart {t : Running} (hn : Nested row m) (ht : m.running = some t)
    (h : depart t.id m = .ok () m') : Stirs m m' := by
  obtain ⟨_, m₁, hm₁, h⟩ := bind_eq_ok h
  obtain rfl : { m with root := m.root.filter (· != t.id) } = m₁ := by
    simpa [modify_apply] using hm₁
  have hn₁ : Nested row { m with root := m.root.filter (· != t.id) } := hn.of_eq rfl rfl
  have hreturned := hn₁.returned ht h
  have hq := hreturned.queues
  refine ⟨congrArg Timers.pending hq.timers, none_joined hq.ready, fun r s hs hstate => ?_⟩
  refine (hreturned.queued hs hstate).imp id fun hdone => ?_
  rcases hs with rfl | rfl <;> cases hdone.2

instance : Leads Stirring finish where
  leads m _ m' h := by
    have htends := after_ok h ▸ tends_after finish m
    refine ⟨htends, fun row hn hfit => ?_⟩
    obtain ⟨t, m₁, ht, hrow, hd⟩ := finish_eq_ok h
    obtain ⟨hw, ha⟩ := row_alike hrow hn.wellFormed ((room_le_depart hd).trans hfit)
    obtain ⟨t₁, ht₁, hid⟩ := ha.running_id ht
    rw [← hid] at hd
    exact ((hn.alike hw ha).stirs_depart ht₁ hd).alike_left ha

/-- Nothing that a host does brings a fiber into a queue. -/
theorem Intrusion.stirs (h : Intrusion m₁ m') (hs : Stirs m m₁) (hm : m₁.Housed)
    (hfit : m'.room ≤ Heap.slotLimit) : Stirs m m' := by
  cases h with
  | still hstill => exact hs.alike_right (hstill.steady.move.alike hm.wellFormed hfit).2
  | collect =>
    exact ⟨hs.pending, hs.ready, fun r s hq hr => hs.queued r s hq (stateOf?_of_collected hm hr)⟩
  | post | clock => exact ⟨hs.pending, hs.ready, hs.queued⟩

theorem stirs_of_intrusions (h : ReflTransGen Intrusion m m') (hn : Nested row m)
    (hfit : m'.room ≤ Heap.slotLimit) : Stirs m m' := by
  induction h with
  | refl => exact ⟨rfl, none_joined rfl, fun r s _ hr => .inl hr⟩
  | tail hrow hi ih =>
    have hfit₁ := hi.rests.room_le.trans hfit
    exact hi.stirs (ih hfit₁) (pushes_of_intrusions hrow hn hfit₁).nested.toHoused hfit

theorem stirring_runNative (hh : host.Intrudes) (n : Native) (args : List Value) :
    Leads (Staying Stirring) (runNative host n args) := by
  unfold runNative
  split
  · infer_instance
  · refine ⟨fun m _ m' h => ?_⟩
    have hrow : ReflTransGen Intrusion m m' := after_ok h ▸ (hh _ _).row m
    have hid : m'.runningId? = m.runningId? := by
      rw [runningId?, running_of_intrusions hrow, runningId?]
    refine ⟨⟨(rests_of_intrusions hrow).toTends, fun row hn hfit => ?_⟩, hid⟩
    exact stirs_of_intrusions hrow hn hfit

theorem stirring_execute (hh : host.Intrudes) {op : Opcode} (hop : op ≠ .await) :
    Leads Stirring (execute host op) := by
  have := stirring_runNative hh
  unfold execute
  cases op with
  | await => exact absurd rfl hop
  | _ => infer_instance

theorem alike_skip (k : Nat) (m : Machine) : Alike m (m.skip k) := by
  refine ⟨⟨?_, rfl, rfl, rfl, rfl⟩, .refl _⟩
  simp only [skip, Option.map_map]
  rfl

theorem Nested.skip (hn : Nested row m) (k : Nat) : Nested row (m.skip k) :=
  hn.alike hn.wellFormed (alike_skip k m)

theorem Nested.stirs_execute (hh : host.Intrudes) {op : Opcode} (hop : op ≠ .await)
    (hn : Nested row m) (h : execute host op (m.skip 1) = .ok u m')
    (hfit : m'.room ≤ Heap.slotLimit) : Stirs m m' :=
  (((stirring_execute hh hop).leads _ _ _ h).stirs row (hn.skip 1) hfit).alike_left (alike_skip 1 m)

/-! ## Sleeping -/

/-- The time for which an await puts the running fiber to sleep. -/
def delay? (m : Machine) : Option Duration :=
  (m.running.bind fun t => t.fiber.stack.values.back?).bind Value.delay?

/-- A fiber goes to sleep, with one timer. -/
structure FallsAsleep (r : Handle) (delay : Duration) (m m' : Machine) : Prop where
  timers : m'.timers = m.timers.add delay r
  events : m'.events = m.events
  ready : m'.ready = m.ready
  state : m'.stateOf? r = some .suspended
  queued : ∀ q s, s.Queued → m'.stateOf? q = some s →
    m.stateOf? q = some s ∨ q = r ∧ s = .suspended

theorem Nested.fallsAsleep_sleep {t : Running} (hn : Nested row m) (ht : m.running = some t)
    (h : sleep delay m = .ok u m') : FallsAsleep t.id delay m m' := by
  obtain ⟨id, _, hid, h⟩ := bind_eq_ok h
  obtain ⟨rfl, t', ht', rfl⟩ := runningId_eq_ok hid
  cases ht.symm.trans ht'
  obtain ⟨_, m₁, hm₁, h⟩ := bind_eq_ok h
  obtain rfl : { m with timers := m.timers.add delay t.id } = m₁ := by
    simpa [modify_apply] using hm₁
  have hn₁ : Nested row { m with timers := m.timers.add delay t.id } := hn.of_eq rfl rfl
  have hreturned := hn₁.returned ht h
  have hq := hreturned.queues
  exact ⟨hq.timers, hq.events, hq.ready, hreturned.state, fun q s => hreturned.queued⟩

theorem FallsAsleep.alike_left (ha : Alike m m₁) (h : FallsAsleep r delay m₁ m') :
    FallsAsleep r delay m m' where
  timers := ha.outline.timers ▸ h.timers
  events := ha.outline.events ▸ h.events
  ready := ha.outline.ready ▸ h.ready
  state := h.state
  queued q s hs hq := by
    have hqueued := h.queued q s hs hq
    rwa [ha.stateOf?_eq] at hqueued

/-- An await takes the topmost operand and sleeps for the time that it says. -/
theorem await_eq_ok {t : Running} (ht : m.running = some t)
    (h : execute host .await (m.skip 1) = .ok u m') : ∃ v below delay,
      t.fiber.stack.pop = .ok (v, below) ∧ v.delay? = some delay ∧
      ReflTransGen Move (m.skip 1) ((m.skip 1).withStack (t.skip 1) below) ∧
      sleep delay ((m.skip 1).withStack (t.skip 1) below) = .ok u m' := by
  obtain ⟨v, m₁, hpop, h⟩ := bind_eq_ok h
  have hrow : ReflTransGen Move (m.skip 1) m₁ := after_ok hpop ▸ Makes.row _
  obtain ⟨below, hbelow, rfl⟩ := pop_eq_ok (running_skip ht) hpop
  cases hv : v.delay? with
  | none =>
    simp only [Value.delay?] at hv
    simp only [hv, bind_apply, get_apply, throw_apply, reduceCtorEq] at h
  | some delay =>
    have hdelay := hv
    simp only [Value.delay?] at hv
    simp only [hv] at h
    exact ⟨v, below, delay, hbelow, hdelay, hrow, h⟩

/-- An await puts the running fiber to sleep for the time that the topmost operand says. -/
theorem Nested.fallsAsleep {t : Running} (hn : Nested row m) (ht : m.running = some t)
    (h : execute host .await (m.skip 1) = .ok u m') (hfit : m'.room ≤ Heap.slotLimit) :
    ∃ delay, m.delay? = some delay ∧ FallsAsleep t.id delay m m' := by
  obtain ⟨v, below, delay, hbelow, hv, hrow, h⟩ := await_eq_ok ht h
  have hroom := after_ok h ▸ room_le_after (sleep delay) ((m.skip 1).withStack (t.skip 1) below)
  obtain ⟨hw, ha⟩ := row_alike hrow (hn.skip 1).wellFormed (hroom.trans hfit)
  have hn₁ : Nested row ((m.skip 1).withStack (t.skip 1) below) := (hn.skip 1).alike hw ha
  have hasleep := hn₁.fallsAsleep_sleep rfl h
  refine ⟨delay, ?_, (hasleep.alike_left ha).alike_left (alike_skip 1 m)⟩
  have htop : t.fiber.stack.values.back? = some v := (OperandStack.pop_eq_ok hbelow).2
  rw [delay?, ht, Option.bind_some, htop, Option.bind_some, hv]

end Machine

end FiberMachine
