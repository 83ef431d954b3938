import FiberMachine.Proofs.Heap.Collection
import FiberMachine.Proofs.Machine.Growth
import FiberMachine.Proofs.Machine.Schedule

/-!
# Switches keep the schedule

The schedule of a machine is read off its heap and its running fiber. Quiet moves do
not change it; a switch is a fiber leaving and another one entering, and each of the
two changes the state of one fiber.
-/

namespace FiberMachine

open Relation (ReflTransGen)

namespace Body

/-- The body of a fiber, which is none while the fiber runs. -/
def fiber? : Body → Option (Option Fiber)
  | fiber body => some body
  | _ => none

theorem fiber?_eq_some_iff {b : Body} {f : Option Fiber} : b.fiber? = some f ↔ b = .fiber f := by
  cases b <;> simp [fiber?]

theorem fiber?_of_kind {b : Body} (h : b.kind ≠ .fiber) : b.fiber? = none := by
  cases b <;> simp_all [fiber?, kind]

end Body

namespace Heap

def fiberAt? (h : Heap) (r : Handle) : Option (Option Fiber) :=
  (h.get? r).bind fun o => o.body.fiber?

/-- The fibers are as they were, and nothing that was live is gone. -/
structure SameFibers (h h' : Heap) : Prop where
  fiberAt : ∀ r, h'.fiberAt? r = h.fiberAt? r
  live : ∀ r, h.isLive r → h'.isLive r

theorem SameFibers.refl (h : Heap) : SameFibers h h := ⟨fun _ => rfl, fun _ hr => hr⟩

theorem SameFibers.trans {h h' h'' : Heap} (ha : SameFibers h h') (hb : SameFibers h' h'') :
    SameFibers h h'' :=
  ⟨fun r => (hb.fiberAt r).trans (ha.fiberAt r), fun r hr => hb.live r (ha.live r hr)⟩

theorem isLive_of_fiberAt? {h : Heap} {r : Handle} {b : Option Fiber}
    (hb : h.fiberAt? r = some b) : h.isLive r := by
  obtain ⟨o, ho, -⟩ := Option.bind_eq_some_iff.mp hb
  exact isLive_iff.mpr ⟨o, ho⟩

theorem Allocated.fiberAt? {h h' : Heap} {r : Handle} {o : Object} (ha : Allocated h h' r o)
    (s : Handle) : h'.fiberAt? s = if s = r then o.body.fiber? else h.fiberAt? s := by
  simp only [Heap.fiberAt?, ha.get?]
  split <;> rfl

theorem Allocated.isLive {h h' : Heap} {r s : Handle} {o : Object} (ha : Allocated h h' r o)
    (hs : h.isLive s) : h'.isLive s := by
  obtain ⟨p, hp⟩ := isLive_iff.mp hs
  exact isLive_iff.mpr ⟨p, ha.get?_of_get? hp⟩

theorem Allocated.sameFibers {h h' : Heap} {r : Handle} {o : Object} (ha : Allocated h h' r o)
    (ho : o.kind ≠ .fiber) : SameFibers h h' where
  fiberAt s := by
    rw [ha.fiberAt?]
    split
    · rename_i hs
      rw [Body.fiber?_of_kind ho, hs, Heap.fiberAt?, ha.fresh]
      rfl
    · rfl
  live _ hs := ha.isLive hs

theorem sameFibers_intern {h : Heap} (ha : h.Arena) (s : String)
    (hfit : (h.intern s).1.slots.size ≤ slotLimit) : SameFibers h (h.intern s).1 := by
  cases hs : h.texts.find? s with
  | some r =>
    rw [intern_old hs]
    exact .refl h
  | none =>
    have hn := (intern_allocated ha hs hfit).1.sameFibers (by simp [Object.kind, Object.ofBody,
      Body.kind])
    exact ⟨hn.fiberAt, hn.live⟩

theorem fiber?_plain (f : Object → Object) [hf : Plain f] (o : Object) :
    (f o).body.fiber? = o.body.fiber? := by
  cases hb : o.body.fiber? with
  | some b =>
    rw [Body.fiber?_eq_some_iff] at hb ⊢
    exact hf.fiber o b hb
  | none =>
    refine Body.fiber?_of_kind fun hk => ?_
    have hkind : o.body.kind = .fiber := (hf.kind o).symm.trans hk
    cases ho : o.body <;> simp_all [Body.kind, Body.fiber?]

theorem isLive_update (h : Heap) (r s : Handle) (f : Object → Object) :
    (h.update r f).isLive s = h.isLive s := by
  simp only [isLive, get?_update]
  split
  · rename_i hs
    simp [hs]
  · rfl

theorem sameFibers_update (h : Heap) (r : Handle) (f : Object → Object) [Plain f] :
    SameFibers h (h.update r f) where
  fiberAt s := by
    simp only [fiberAt?, get?_update]
    split
    · rename_i hs
      rw [hs]
      cases h.get? r with
      | none => rfl
      | some o => exact fiber?_plain f o
    · rfl
  live s hs := by rwa [isLive_update]

theorem Move.sameFibers {h h' : Heap} (hm : Move h h') (hw : h.WellFormed)
    (hfit : h'.slots.size ≤ slotLimit) : SameFibers h h' := by
  cases hm with
  | intern s => exact sameFibers_intern hw.toArena s hfit
  | alloc ht hf => exact (alloc_allocated hw.toArena _ hfit).sameFibers hf
  | update r f => exact sameFibers_update h r f

end Heap

namespace Machine

theorem SameOutline.refl (m : Machine) : SameOutline m m := ⟨rfl, rfl, rfl, rfl, rfl⟩

theorem SameOutline.trans {m m' m'' : Machine} (ha : SameOutline m m') (hb : SameOutline m' m'') :
    SameOutline m m'' :=
  ⟨hb.running.trans ha.running, hb.root.trans ha.root, hb.ready.trans ha.ready,
    hb.events.trans ha.events, hb.timers.trans ha.timers⟩

theorem sameOutline_of_moves {m m' : Machine} (hr : ReflTransGen Move m m') : SameOutline m m' := by
  induction hr with
  | refl => exact .refl m
  | tail _ hm ih =>
    refine ih.trans ?_
    cases hm with
    | heap => exact ⟨rfl, rfl, rfl, rfl, rfl⟩
    | work _ ho => exact ho

/-- What has nothing to do with the switching of fibers may differ. -/
structure Alike (m m' : Machine) : Prop where
  outline : SameOutline m m'
  fibers : Heap.SameFibers m.heap m'.heap

theorem Move.alike {m m' : Machine} (hm : Move m m') (hw : m.heap.WellFormed)
    (hfit : m'.room ≤ Heap.slotLimit) : m'.heap.WellFormed ∧ Alike m m' := by
  cases hm with
  | heap hh => exact ⟨hh.wellFormed hw hfit, ⟨rfl, rfl, rfl, rfl, rfl⟩, hh.sameFibers hw hfit⟩
  | work hh ho => exact ⟨hh ▸ hw, ho, hh ▸ .refl _⟩

theorem row_alike {m m' : Machine} (hr : ReflTransGen Move m m') (hw : m.heap.WellFormed)
    (hfit : m'.room ≤ Heap.slotLimit) : m'.heap.WellFormed ∧ Alike m m' := by
  induction hr with
  | refl => exact ⟨hw, .refl m, .refl _⟩
  | tail _ hm ih =>
    obtain ⟨hw', ha⟩ := ih (hm.tends.room_le.trans hfit)
    obtain ⟨hw'', hb⟩ := hm.alike hw' hfit
    exact ⟨hw'', ha.outline.trans hb.outline, ha.fibers.trans hb.fibers⟩

/-! ## The schedule of a machine -/

def statusOf (f : Fiber) : Status := ⟨f.state, f.caller⟩

def parkedStatus? (h : Heap) (r : Handle) : Option Status :=
  (h.fiberAt? r).bind fun body => body.map statusOf

def status? (m : Machine) (r : Handle) : Option Status :=
  match m.running with
  | some t => if t.id = r then some (statusOf t.fiber) else parkedStatus? m.heap r
  | none => parkedStatus? m.heap r

/-- The fiber that waits for the running one. -/
def awaiting (m : Machine) : Option Handle := m.running.bind fun t => t.fiber.caller

/-- The fibers that a timer or an event will resume. -/
def wakeups (m : Machine) : List Handle := m.timers.fibers ++ m.events.filterMap Event.fiber?

theorem parkedState?_eq (h : Heap) (r : Handle) :
    parkedState? h r = (parkedStatus? h r).map Status.state := by
  simp only [parkedState?, parkedStatus?, Heap.fiberAt?]
  rcases h.get? r with _ | ⟨marked, members, body⟩
  · rfl
  · cases body with
    | fiber body => cases body <;> rfl
    | _ => rfl

theorem stateOf?_eq (m : Machine) (r : Handle) :
    m.stateOf? r = (m.status? r).map Status.state := by
  simp only [stateOf?, status?, parkedState?_eq]
  cases m.running with
  | none => rfl
  | some t => by_cases h : t.id = r <;> simp [h, statusOf]

theorem Alike.status?_eq {m m' : Machine} (ha : Alike m m') (r : Handle) :
    m'.status? r = m.status? r := by
  have hr := ha.outline.running
  have hp : parkedStatus? m'.heap r = parkedStatus? m.heap r := by
    simp only [parkedStatus?, ha.fibers.fiberAt]
  simp only [status?, hp]
  rcases h : m.running with _ | t <;> rcases h' : m'.running with _ | t' <;>
    simp [h, h', Running.outline] at hr ⊢
  obtain ⟨hid, hcaller, -, hstate, -⟩ := hr
  simp [hid, hcaller, hstate, statusOf]

/-- The fibers of a run between two switches, against a head, a queue and wake-ups that
need not be those of the machine yet. -/
structure Scheduled (own : Set Handle) (head : Option Handle) (ready wakes : List Handle)
    (m : Machine) : Prop where
  wellFormed : m.heap.WellFormed
  schedule : Schedule own m.status? head ready wakes
  fibers : ∀ r ∈ own, ∃ body, m.heap.fiberAt? r = some body
  out : ∀ r ∈ own, m.heap.fiberAt? r = some none → m.running.map Running.id = some r
  parked : ∀ r ∈ own, ∀ f, m.heap.fiberAt? r = some (some f) → f.state ≠ .running
  running : ∀ t, m.running = some t →
    t.id ∈ own ∧ t.fiber.state = .running ∧ m.heap.fiberAt? t.id = some none
  root : ∀ r, m.root = some r → r ∈ own ∧ m.stateOf? r ≠ some .done

variable {own : Set Handle} {head : Option Handle} {ready wakes : List Handle} {m : Machine}

theorem Scheduled.alike {m' : Machine} (hs : Scheduled own head ready wakes m)
    (hw : m'.heap.WellFormed) (ha : Alike m m') : Scheduled own head ready wakes m' where
  wellFormed := hw
  schedule := hs.schedule.congr fun r _ => ha.status?_eq r
  fibers r hr := by
    rw [ha.fibers.fiberAt]
    exact hs.fibers r hr
  out r hr h := by
    rw [ha.fibers.fiberAt] at h
    have hid := congrArg (Option.map Prod.fst) ha.outline.running
    simp only [Option.map_map] at hid
    exact hid.trans (hs.out r hr h)
  parked r hr f h := by
    rw [ha.fibers.fiberAt] at h
    exact hs.parked r hr f h
  running t' h' := by
    have hr := ha.outline.running
    rw [h'] at hr
    obtain ⟨t, ht, hout⟩ := Option.map_eq_some_iff.mp hr.symm
    simp only [Running.outline, Prod.mk.injEq] at hout
    obtain ⟨hown, hstate, hbody⟩ := hs.running t ht
    rw [ha.fibers.fiberAt]
    exact ⟨hout.1 ▸ hown, hout.2.2.2.1 ▸ hstate, hout.1 ▸ hbody⟩
  root r h := by
    rw [ha.outline.root] at h
    rw [stateOf?_eq, ha.status?_eq, ← stateOf?_eq]
    exact hs.root r h

/-- The queues do not matter for a schedule that is given apart. -/
theorem Scheduled.of_parts {m' : Machine} (hs : Scheduled own head ready wakes m) (hh : m'.heap = m.heap)
    (hr : m'.running = m.running) (ht : ∀ r, m'.root = some r → m.root = some r) :
    Scheduled own head ready wakes m' := by
  have hstatus : m'.status? = m.status? := by
    funext r
    simp only [status?, hr, hh]
  refine ⟨hh ▸ hs.wellFormed, hstatus ▸ hs.schedule, hh ▸ hs.fibers, hh ▸ hr ▸ hs.out,
    hh ▸ hs.parked, hh ▸ hr ▸ hs.running, fun r h => ?_⟩
  rw [stateOf?_eq, hstatus, ← stateOf?_eq]
  exact hs.root r (ht r h)

/-! ## Leaving and entering -/

theorem fiberAt?_withFiber (h : Heap) (r s : Handle) (b : Option Fiber) :
    (h.update r (withFiber b)).fiberAt? s =
      if s = r then (h.fiberAt? r).map fun _ => b else h.fiberAt? s := by
  simp only [Heap.fiberAt?, Heap.get?_update]
  split
  · rcases h.get? r with _ | ⟨marked, members, body⟩
    · rfl
    · cases body <;> rfl
  · rfl

/-- The machine after its running fiber has left. -/
def left (state : FiberState) (t : Running) (m : Machine) : Machine :=
  { m with
    running := none
    heap := m.heap.update t.id (withFiber (some (park state t.fiber))) }

/-- The machine after a fiber has entered, called by another one. -/
def entered (id : Handle) (f : Fiber) (caller : Option Handle) (m : Machine) : Machine :=
  { m with
    heap := m.heap.update id (withFiber none)
    running := some ⟨id, { f with state := .running, caller }⟩ }

theorem leave_eq {t : Running} (hr : m.running = some t) (hl : m.heap.isLive t.id)
    (state : FiberState) : leave state m = .ok () (m.left state t) := by
  simp only [leave, bind_apply, get_apply, hr, modify_apply, change_apply, hl, ↓reduceIte, left]

theorem leave_nobody (hr : m.running = none) (state : FiberState) : leave state m = .ok () m := by
  simp only [leave, bind_apply, get_apply, hr, pure_apply]

theorem enter_eq {id : Handle} {f : Fiber} (hb : m.heap.fiberAt? id = some (some f)) :
    enter id m = .ok () (m.entered id f f.caller) := by
  obtain ⟨⟨marked, members, body⟩, ho, hbody⟩ := Option.bind_eq_some_iff.mp hb
  rw [Body.fiber?_eq_some_iff] at hbody
  simp only at hbody
  subst hbody
  have hl : m.heap.isLive id := Heap.isLive_iff.mpr ⟨_, ho⟩
  simp only [enter, bind_apply, get_apply, Heap.get, ho, except_apply, change_apply, hl, ↓reduceIte,
    modify_apply, entered]

/-- The queues are as they were, and the same handles are good, and for fibers. -/
structure SameQueues (m m' : Machine) : Prop where
  root : m'.root = m.root
  ready : m'.ready = m.ready
  events : m'.events = m.events
  timers : m'.timers = m.timers
  room : m'.room = m.room
  live : ∀ r, m'.heap.isLive r = m.heap.isLive r
  fibers : ∀ r, (m'.heap.fiberAt? r).isSome = (m.heap.fiberAt? r).isSome

theorem SameQueues.refl (m : Machine) : SameQueues m m :=
  ⟨rfl, rfl, rfl, rfl, rfl, fun _ => rfl, fun _ => rfl⟩

theorem SameQueues.trans {m m' m'' : Machine} (ha : SameQueues m m') (hb : SameQueues m' m'') :
    SameQueues m m'' :=
  ⟨hb.root.trans ha.root, hb.ready.trans ha.ready, hb.events.trans ha.events,
    hb.timers.trans ha.timers, hb.room.trans ha.room, fun r => (hb.live r).trans (ha.live r),
    fun r => (hb.fibers r).trans (ha.fibers r)⟩

theorem isSome_fiberAt?_withFiber (h : Heap) (r s : Handle) (b : Option Fiber) :
    ((h.update r (withFiber b)).fiberAt? s).isSome = (h.fiberAt? s).isSome := by
  rw [fiberAt?_withFiber]
  split
  · rename_i hs
    simp [hs]
  · rfl

theorem sameQueues_left (m : Machine) (state : FiberState) (t : Running) :
    SameQueues m (m.left state t) :=
  ⟨rfl, rfl, rfl, rfl, Heap.size_update .., fun _ => Heap.isLive_update ..,
    fun _ => isSome_fiberAt?_withFiber ..⟩

theorem sameQueues_entered (m : Machine) (id : Handle) (f : Fiber) (caller : Option Handle) :
    SameQueues m (m.entered id f caller) :=
  ⟨rfl, rfl, rfl, rfl, Heap.size_update .., fun _ => Heap.isLive_update ..,
    fun _ => isSome_fiberAt?_withFiber ..⟩

theorem statusOf_park (state : FiberState) (f : Fiber) :
    statusOf (park state f) = ⟨state, f.caller⟩ := by
  cases state <;> rfl

theorem status?_left {t : Running} (hr : m.running = some t)
    (hb : m.heap.fiberAt? t.id = some none) (state : FiberState) :
    (m.left state t).status? = Function.update m.status? t.id (some ⟨state, t.fiber.caller⟩) := by
  funext r
  by_cases h : r = t.id
  · simp [status?, left, parkedStatus?, fiberAt?_withFiber, h, hb, statusOf_park]
  · simp [status?, left, parkedStatus?, fiberAt?_withFiber, h, hr, Ne.symm h]

theorem status?_entered (hr : m.running = none) (id : Handle) (f : Fiber)
    (caller : Option Handle) :
    (m.entered id f caller).status? = Function.update m.status? id (some ⟨.running, caller⟩) := by
  funext r
  by_cases h : r = id
  · simp [status?, entered, h, statusOf]
  · simp [status?, entered, parkedStatus?, fiberAt?_withFiber, h, hr, Ne.symm h]

theorem status?_running {t : Running} (hr : m.running = some t) :
    m.status? t.id = some (statusOf t.fiber) := by
  simp [status?, hr]

/-- The running fiber leaves, in any state but running. -/
theorem Scheduled.left {t : Running} {state : FiberState} {head' : Option Handle}
    {ready' wakes' : List Handle} (hs : Scheduled own head ready wakes m) (hr : m.running = some t)
    (hstate : state ≠ .running) (hroot : state = .done → m.root ≠ some t.id)
    (hnew : Schedule own (Function.update m.status? t.id (some ⟨state, t.fiber.caller⟩)) head'
      ready' wakes') : Scheduled own head' ready' wakes' (m.left state t) := by
  obtain ⟨hown, hrunning, hbody⟩ := hs.running t hr
  have hat : ∀ r, (m.left state t).heap.fiberAt? r =
      if r = t.id then some (some (park state t.fiber)) else m.heap.fiberAt? r := by
    intro r
    refine (fiberAt?_withFiber ..).trans ?_
    rw [hbody]
    rfl
  refine ⟨wellFormed_withFiber hs.wellFormed _ _, ?_, fun r h => ?_, fun r h hb => ?_,
    fun r h f hf => ?_, fun t' h => ?_, fun r h => ?_⟩
  · rw [status?_left hr hbody]
    exact hnew
  · rw [hat]
    split
    · exact ⟨_, rfl⟩
    · exact hs.fibers r h
  · rw [hat] at hb
    split at hb
    · simp at hb
    · rename_i hne
      have hrt := hs.out r h hb
      rw [hr, Option.map_some, Option.some.injEq] at hrt
      exact absurd hrt.symm hne
  · rw [hat] at hf
    split at hf
    · cases hf
      have hpark : (park state t.fiber).state = state :=
        congrArg Status.state (statusOf_park state t.fiber)
      rwa [hpark]
    · exact hs.parked r h f hf
  · simp [Machine.left] at h
  · obtain ⟨hmem, hdone⟩ := hs.root r h
    refine ⟨hmem, ?_⟩
    rw [stateOf?_eq, status?_left hr hbody]
    by_cases hrt : r = t.id
    · rw [hrt, Function.update_self]
      intro hd
      exact hroot (Option.some.inj hd) (hrt ▸ h)
    · rwa [Function.update_of_ne hrt, ← stateOf?_eq]

/-- A fiber enters while none runs. -/
theorem Scheduled.entered {id : Handle} {f : Fiber} {caller head' : Option Handle}
    {ready' wakes' : List Handle} (hs : Scheduled own head ready wakes m) (hr : m.running = none)
    (hid : id ∈ own) (hb : m.heap.fiberAt? id = some (some f))
    (hnew : Schedule own (Function.update m.status? id (some ⟨.running, caller⟩)) head'
      ready' wakes') : Scheduled own head' ready' wakes' (m.entered id f caller) := by
  have hat : ∀ r, (m.entered id f caller).heap.fiberAt? r =
      if r = id then some none else m.heap.fiberAt? r := by
    intro r
    refine (fiberAt?_withFiber ..).trans ?_
    rw [hb]
    rfl
  refine ⟨wellFormed_withFiber hs.wellFormed _ _, ?_, fun r h => ?_, fun r h hout => ?_,
    fun r h f hf => ?_, fun t h => ?_, fun r h => ?_⟩
  · rw [status?_entered hr]
    exact hnew
  · rw [hat]
    split
    · exact ⟨_, rfl⟩
    · exact hs.fibers r h
  · rw [hat] at hout
    split at hout
    · rename_i hri
      rw [hri]
      rfl
    · have hrt := hs.out r h hout
      simp [hr] at hrt
  · rw [hat] at hf
    split at hf
    · simp at hf
    · exact hs.parked r h f hf
  · have ht : t = ⟨id, { f with state := .running, caller }⟩ := (Option.some.inj h).symm
    subst ht
    refine ⟨hid, rfl, ?_⟩
    rw [hat, if_pos rfl]
  · obtain ⟨hmem, hdone⟩ := hs.root r h
    refine ⟨hmem, ?_⟩
    rw [stateOf?_eq, status?_entered hr]
    by_cases hri : r = id
    · simp [hri]
    · rwa [Function.update_of_ne hri, ← stateOf?_eq]

/-! ## Transitions -/

theorem changeFiber_eq {id : Handle} {f : Fiber} (hr : m.running = some ⟨id, f⟩)
    (g : Fiber → Fiber) : changeFiber g m = .ok () { m with running := some ⟨id, g f⟩ } := by
  simp only [changeFiber, hr]

theorem fiber_of_status {r : Handle} {s : Status} (h : m.status? r = some s)
    (hr : ∀ t, m.running = some t → t.id ≠ r) :
    ∃ f, m.heap.fiberAt? r = some (some f) ∧ statusOf f = s := by
  have hp : parkedStatus? m.heap r = some s := by
    simp only [status?] at h
    split at h
    · rename_i t ht
      rwa [if_neg (hr t ht)] at h
    · exact h
  obtain ⟨body, hbody, hmap⟩ := Option.bind_eq_some_iff.mp hp
  obtain ⟨f, rfl, hf⟩ := Option.map_eq_some_iff.mp hmap
  exact ⟨f, hbody, hf⟩

theorem Scheduled.ne_running (hs : Scheduled own head ready wakes m) {r : Handle} {s : Status}
    (h : m.status? r = some s) (hstate : s.state ≠ .running) :
    ∀ t, m.running = some t → t.id ≠ r := by
  rintro t ht rfl
  rw [status?_running ht, Option.some.injEq] at h
  exact hstate (h ▸ (hs.running t ht).2.1)

/-- A fiber changes its state that is not done yet. -/
theorem stays_done {m' : Machine} {t : Handle} {s s' : Status}
    (h : m'.status? = Function.update m.status? t (some s')) (ht : m.status? t = some s)
    (hs : s.state ≠ .done) {r : Handle} (hr : m.stateOf? r = some .done) :
    m'.stateOf? r = some .done := by
  rw [stateOf?_eq] at hr ⊢
  rw [h, Function.update_of_ne, hr]
  rintro rfl
  rw [ht] at hr
  exact hs (Option.some.inj hr)

/-- A fiber changes its state, and is done neither before nor after. -/
theorem done_iff {m' : Machine} {t : Handle} {s s' : Status}
    (h : m'.status? = Function.update m.status? t (some s')) (ht : m.status? t = some s)
    (hs : s.state ≠ .done) (hs' : s'.state ≠ .done) (r : Handle) :
    m'.stateOf? r = some .done ↔ m.stateOf? r = some .done := by
  refine ⟨fun hr => ?_, stays_done h ht hs⟩
  rw [stateOf?_eq] at hr ⊢
  rw [h] at hr
  by_cases hrt : r = t
  · rw [hrt, Function.update_self] at hr
    exact absurd (Option.some.inj hr) hs'
  · rwa [Function.update_of_ne hrt] at hr

/-! ## Resuming and returning -/

theorem resume_ignored {r : Handle} (hready : m.stateOf? r ≠ some .ready)
    (hsuspended : m.stateOf? r ≠ some .suspended) : resume r m = .ok () m := by
  simp only [resume, bind_apply, get_apply]
  cases hs : m.stateOf? r with
  | none => rfl
  | some state =>
    cases state with
    | ready => exact absurd hs hready
    | suspended => exact absurd hs hsuspended
    | _ => rfl

theorem resume_eq {r : Handle}
    (hof : m.stateOf? r = some .ready ∨ m.stateOf? r = some .suspended) :
    resume r m = (do
      leave .waiting
      enter r
      changeFiber fun fiber => { fiber with caller := m.running.map Running.id } : Act Unit) m := by
  simp only [resume, bind_apply, get_apply]
  rcases hof with h | h <;> simp only [h, bind_apply]

theorem resume_nobody {r : Handle} {f : Fiber} (hrun : m.running = none)
    (hof : m.stateOf? r = some .ready ∨ m.stateOf? r = some .suspended)
    (hf : m.heap.fiberAt? r = some (some f)) : resume r m = .ok () (m.entered r f none) := by
  rw [resume_eq hof]
  simp only [bind_apply, leave_nobody hrun, enter_eq hf, hrun, Option.map_none]
  rw [changeFiber_eq rfl]
  rfl

theorem fiberAt?_left {r : Handle} {b : Option Fiber} {t : Running} (state : FiberState)
    (hne : t.id ≠ r) (hf : m.heap.fiberAt? r = some b) :
    (m.left state t).heap.fiberAt? r = some b := by
  refine (fiberAt?_withFiber ..).trans ?_
  rw [if_neg hne.symm, hf]

theorem resume_running {r : Handle} {f : Fiber} {c : Running} (hrun : m.running = some c)
    (hbody : m.heap.fiberAt? c.id = some none) (hne : c.id ≠ r)
    (hof : m.stateOf? r = some .ready ∨ m.stateOf? r = some .suspended)
    (hf : m.heap.fiberAt? r = some (some f)) :
    resume r m = .ok () ((m.left .waiting c).entered r f (some c.id)) := by
  rw [resume_eq hof]
  have hleave := leave_eq hrun (Heap.isLive_of_fiberAt? hbody) .waiting
  simp only [bind_apply, hleave, enter_eq (fiberAt?_left .waiting hne hf), hrun, Option.map_some]
  rw [changeFiber_eq rfl]
  rfl

theorem returnToCaller_nobody {t : Running} (hrun : m.running = some t)
    (hbody : m.heap.fiberAt? t.id = some none) (hcaller : t.fiber.caller = none)
    (state : FiberState) : returnToCaller state m = .ok () (m.left state t) := by
  simp only [returnToCaller, bind_apply, get_apply, hrun, Option.bind_some, hcaller, pure_apply,
    leave_eq hrun (Heap.isLive_of_fiberAt? hbody) state]

theorem returnToCaller_waiting {t : Running} {state : FiberState} {c : Handle} {f : Fiber}
    (hrun : m.running = some t) (hbody : m.heap.fiberAt? t.id = some none)
    (hcaller : t.fiber.caller = some c) (hof : (m.left state t).stateOf? c = some .waiting)
    (hf : (m.left state t).heap.fiberAt? c = some (some f)) :
    returnToCaller state m = .ok () ((m.left state t).entered c f f.caller) := by
  simp only [returnToCaller, bind_apply, get_apply, hrun, Option.bind_some, hcaller, hof,
    ↓reduceIte, leave_eq hrun (Heap.isLive_of_fiberAt? hbody) state, enter_eq hf]

open Schedule (Called) in
/-- A fiber runs that has been called, and the one that ran before waits for it. -/
theorem Scheduled.resume {t : Handle} {s : Status} {ready' wakes' : List Handle}
    (hs : Scheduled own m.awaiting ready wakes m) (ht : t ∈ own) (hst : m.status? t = some s)
    (hc : Called t s.state ready wakes ready' wakes') :
    ∃ m', Machine.resume t m = .ok () m' ∧ m'.running.isSome ∧ SameQueues m m' ∧
      (∀ r, m'.stateOf? r = some .done ↔ m.stateOf? r = some .done) ∧
      Scheduled own m'.awaiting ready' wakes' m' := by
  have hstate : s.state = .ready ∨ s.state = .suspended := by
    generalize s.state = state at hc
    cases hc
    · exact Or.inl rfl
    · exact Or.inr rfl
  have hdone : s.state ≠ .done := by rcases hstate with h | h <;> simp [h]
  have hne : ∀ c, m.running = some c → c.id ≠ t := by
    refine hs.ne_running hst ?_
    rcases hstate with h | h <;> simp [h]
  obtain ⟨f, hf, hfs⟩ := fiber_of_status hst hne
  have hof : m.stateOf? t = some .ready ∨ m.stateOf? t = some .suspended := by
    rw [stateOf?_eq, hst]
    exact hstate.imp (congrArg some) (congrArg some)
  cases hrun : m.running with
  | none =>
    have hnew := hs.schedule.call hc hst none
    rw [awaiting, hrun] at hs hnew
    exact ⟨m.entered t f none, resume_nobody hrun hof hf, rfl, sameQueues_entered ..,
      done_iff (status?_entered hrun t f none) hst hdone (by simp), hs.entered hrun ht hf hnew⟩
  | some c =>
    obtain ⟨hown, hrunning, hbody⟩ := hs.running c hrun
    have hc' : m.status? c.id = some ⟨.running, m.awaiting⟩ := by
      rw [status?_running hrun, awaiting, hrun, ← hrunning]
      rfl
    have hwait := hs.schedule.wait hown hc'
    have hleft : Scheduled own (some c.id) ready wakes (m.left .waiting c) := by
      refine hs.left hrun (by simp) (by simp) ?_
      rwa [awaiting, hrun] at hwait
    have hf' := fiberAt?_left .waiting (hne c hrun) hf
    have hst' : (m.left .waiting c).status? t = some s := by
      rw [status?_left hrun hbody, Function.update_of_ne (Ne.symm (hne c hrun)), hst]
    refine ⟨(m.left .waiting c).entered t f (some c.id),
      resume_running hrun hbody (hne c hrun) hof hf, rfl,
      (sameQueues_left ..).trans (sameQueues_entered ..), fun r => ?_,
      hleft.entered rfl ht hf' (hleft.schedule.call hc hst' (some c.id))⟩
    refine (done_iff (status?_entered rfl t f _) hst' hdone (by simp) r).trans ?_
    exact done_iff (status?_left hrun hbody .waiting) hc' (by simp) (by simp) r

/-- The running fiber hands control back to the one that waits for it, if there is one. -/
theorem Scheduled.returnToCaller {t : Running} {state : FiberState} {ready' wakes' : List Handle}
    (hs : Scheduled own m.awaiting ready wakes m) (hr : m.running = some t)
    (hstate : state ≠ .running) (hroot : state = .done → m.root ≠ some t.id)
    (hnew : Schedule own (Function.update m.status? t.id (some ⟨state, t.fiber.caller⟩))
      t.fiber.caller ready' wakes') :
    ∃ m', Machine.returnToCaller state m = .ok () m' ∧ SameQueues m m' ∧
      (∀ r, m.stateOf? r = some .done → m'.stateOf? r = some .done) ∧
      Scheduled own m'.awaiting ready' wakes' m' := by
  obtain ⟨hown, hrunning, hbody⟩ := hs.running t hr
  have hdone : ∀ r, m.stateOf? r = some .done → (m.left state t).stateOf? r = some .done :=
    fun r => stays_done (status?_left hr hbody state) (status?_running hr) (by simp [statusOf,
      hrunning])
  have hleft := hs.left hr hstate hroot hnew
  cases hcaller : t.fiber.caller with
  | none =>
    rw [hcaller] at hleft
    exact ⟨m.left state t, returnToCaller_nobody hr hbody hcaller state, sameQueues_left .., hdone,
      hleft⟩
  | some c =>
    rw [hcaller] at hleft
    obtain ⟨caller, hwait, hc, hgo⟩ := hleft.schedule.goOn
    obtain ⟨f, hf, hfs⟩ := fiber_of_status hwait (by simp [Machine.left])
    have hfc : f.caller = caller := congrArg Status.caller hfs
    have hof : (m.left state t).stateOf? c = some .waiting := by
      rw [stateOf?_eq, hwait]
      rfl
    rw [← hfc] at hgo
    exact ⟨(m.left state t).entered c f f.caller, returnToCaller_waiting hr hbody hcaller hof hf,
      (sameQueues_left ..).trans (sameQueues_entered ..), fun r hr =>
        stays_done (status?_entered rfl c f _) hwait (by simp) (hdone r hr),
      hleft.entered rfl hc hf hgo⟩

end Machine
end FiberMachine
