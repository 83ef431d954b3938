import FiberMachine.Proofs.Machine.Leads
import FiberMachine.Proofs.Machine.Switches

/-!
# Order among the fibers of a run

Between two instructions the queue, the timers and the events of a machine hold what
the schedule of its fibers calls for. A run adds fibers as it spawns them and imports
modules, and collections take away those that are done.
-/

namespace FiberMachine

open Relation (ReflTransGen)

namespace Machine

def IsFiber (m : Machine) (r : Handle) : Prop := (m.heap.fiberAt? r).isSome

/-- The queue and the timers list fibers of the run. An event may also name an object
that is no fiber, and then does nothing. -/
structure Listed (own : Set Handle) (m : Machine) : Prop where
  ready : ∀ r ∈ m.ready, r ∈ own
  timers : ∀ r ∈ m.timers.fibers, r ∈ own
  events : ∀ r, Event.resume r ∈ m.events →
    r ∈ own ∨ (m.heap.isLive r ∧ m.heap.fiberAt? r = none)

/-- The fibers of a run are in order: the schedule that the machine shows is theirs. -/
structure Orderly (own : Set Handle) (m : Machine) : Prop extends Listed own m where
  scheduled : Scheduled own m.awaiting m.ready m.wakeups m

/-- The fibers of a run after a step: those that are left and those that are new. -/
def carried (own : Set Handle) (m m' : Machine) : Set Handle :=
  { r | m'.IsFiber r ∧ (r ∈ own ∨ ¬ m.IsFiber r) }

/-- A step keeps the order; a fiber that is done stays so until it is collected, and no
other fiber is. -/
structure Progress (own : Set Handle) (m m' : Machine) : Prop where
  orderly : Orderly (carried own m m') m'
  done : ∀ r ∈ own, m.stateOf? r = some .done → m'.IsFiber r → m'.stateOf? r = some .done
  lost : ∀ r ∈ own, ¬ m'.IsFiber r → m.stateOf? r = some .done

variable {own : Set Handle} {m m' : Machine}

theorem Orderly.isFiber (ho : Orderly own m) {r : Handle} (hr : r ∈ own) : m.IsFiber r := by
  obtain ⟨body, hb⟩ := ho.scheduled.fibers r hr
  simp [IsFiber, hb]

theorem Alike.isFiber (ha : Alike m m') (r : Handle) : m'.IsFiber r ↔ m.IsFiber r := by
  simp only [IsFiber, ha.fibers.fiberAt]

theorem Alike.stateOf?_eq (ha : Alike m m') (r : Handle) : m'.stateOf? r = m.stateOf? r := by
  rw [Machine.stateOf?_eq, Machine.stateOf?_eq, ha.status?_eq]

theorem Alike.awaiting_eq (ha : Alike m m') : m'.awaiting = m.awaiting := by
  have hr := congrArg (Option.map fun o => o.2.1) ha.outline.running
  simp only [Option.map_map] at hr
  simp only [awaiting]
  cases h : m.running <;> cases h' : m'.running <;> simp [h, h', Running.outline] at hr ⊢
  exact hr

theorem Alike.wakeups_eq (ha : Alike m m') : m'.wakeups = m.wakeups := by
  simp only [wakeups, ha.outline.timers, ha.outline.events]

theorem Listed.alike (hl : Listed own m) (ha : Alike m m') : Listed own m' where
  ready := ha.outline.ready ▸ hl.ready
  timers := ha.outline.timers ▸ hl.timers
  events r hr := by
    rw [ha.outline.events] at hr
    refine (hl.events r hr).imp id fun ⟨hlive, hf⟩ => ⟨ha.fibers.live r hlive, ?_⟩
    rw [ha.fibers.fiberAt, hf]

theorem Orderly.alike (ho : Orderly own m) (hw : m'.heap.WellFormed) (ha : Alike m m') :
    Orderly own m' where
  toListed := ho.toListed.alike ha
  scheduled := by
    rw [ha.awaiting_eq, ha.outline.ready, ha.wakeups_eq]
    exact ho.scheduled.alike hw ha

theorem Listed.switched (hl : Listed own m) (hq : SameQueues m m') : Listed own m' where
  ready := hq.ready ▸ hl.ready
  timers := hq.timers ▸ hl.timers
  events r hr := by
    rw [hq.events] at hr
    refine (hl.events r hr).imp id fun ⟨hlive, hf⟩ => ⟨(hq.live r).trans hlive, ?_⟩
    have hsome := hq.fibers r
    rw [hf] at hsome
    simpa using hsome

theorem SameQueues.wakeups_eq (hq : SameQueues m m') : m'.wakeups = m.wakeups := by
  simp only [wakeups, hq.events, hq.timers]

theorem SameQueues.isFiber (hq : SameQueues m m') (r : Handle) : m'.IsFiber r ↔ m.IsFiber r := by
  simp only [IsFiber, hq.fibers]

theorem carried_eq (ho : Orderly own m) (hf : ∀ r, m'.IsFiber r ↔ m.IsFiber r) :
    carried own m m' = own := by
  ext r
  simp only [carried, Set.mem_ofPred_eq, hf]
  exact ⟨fun ⟨h, hor⟩ => hor.resolve_right fun hn => hn h, fun h => ⟨ho.isFiber h, Or.inl h⟩⟩

theorem Orderly.progress_alike (ho : Orderly own m) (hw : m'.heap.WellFormed) (ha : Alike m m') :
    Progress own m m' where
  orderly := by
    rw [carried_eq ho ha.isFiber]
    exact ho.alike hw ha
  done r _ hd _ := by rw [ha.stateOf?_eq, hd]
  lost r hr hn := absurd ((ha.isFiber r).mpr (ho.isFiber hr)) hn

theorem carried_congr_left {m₁ : Machine} (h : ∀ r, m₁.IsFiber r ↔ m.IsFiber r) :
    carried own m₁ m' = carried own m m' := by
  ext r
  simp only [carried, Set.mem_ofPred_eq, h]

theorem carried_congr_right {m₁ : Machine} (h : ∀ r, m'.IsFiber r ↔ m₁.IsFiber r) :
    carried own m m' = carried own m m₁ := by
  ext r
  simp only [carried, Set.mem_ofPred_eq, h]

/-! ## Turns -/

/-- What one step may do to the fibers of a run. -/
structure Turn (m m' : Machine) : Prop where
  room_le : m.room ≤ m'.room
  progress : ∀ own, Orderly own m → m'.room ≤ Heap.slotLimit → Progress own m m'

theorem Turn.of_row (hr : ReflTransGen Move m m') : Turn m m' where
  room_le := room_le_of_row hr
  progress own ho hfit := by
    obtain ⟨hw, ha⟩ := row_alike hr ho.scheduled.wellFormed hfit
    exact ho.progress_alike hw ha

/-- Quiet moves may come first. -/
theorem Orderly.progress_row {m₁ : Machine} (ho : Orderly own m) (hr : ReflTransGen Move m m₁)
    (hfit : m₁.room ≤ Heap.slotLimit)
    (h : Alike m m₁ → Orderly own m₁ → Progress own m₁ m') : Progress own m m' := by
  obtain ⟨hw, ha⟩ := row_alike hr ho.scheduled.wellFormed hfit
  have hp := h ha (ho.alike hw ha)
  refine ⟨carried_congr_left ha.isFiber ▸ hp.orderly, fun r hr hd => hp.done r hr ?_,
    fun r hr hn => ?_⟩
  · rw [ha.stateOf?_eq, hd]
  · rw [← ha.stateOf?_eq]
    exact hp.lost r hr hn

theorem Turn.row_left {m₁ : Machine} (hr : ReflTransGen Move m m₁) (ht : Turn m₁ m') :
    Turn m m' where
  room_le := (room_le_of_row hr).trans ht.room_le
  progress own ho hfit := ho.progress_row hr (ht.room_le.trans hfit) fun _ ho₁ =>
    ht.progress own ho₁ hfit

theorem Turn.row_right {m₁ : Machine} (ht : Turn m m₁) (hr : ReflTransGen Move m₁ m') :
    Turn m m' where
  room_le := ht.room_le.trans (room_le_of_row hr)
  progress own ho hfit := by
    have hp := ht.progress own ho ((room_le_of_row hr).trans hfit)
    obtain ⟨hw, ha⟩ := row_alike hr hp.orderly.scheduled.wellFormed hfit
    refine ⟨carried_congr_right ha.isFiber ▸ hp.orderly.alike hw ha, fun r hr hd hf => ?_,
      fun r hr hn => hp.lost r hr fun h => hn ((ha.isFiber r).mpr h)⟩
    rw [ha.stateOf?_eq]
    exact hp.done r hr hd ((ha.isFiber r).mp hf)

instance : Absorbs Turn := ⟨.of_row, .row_left, fun ht => .row_right ht.related⟩

end Machine
end FiberMachine
