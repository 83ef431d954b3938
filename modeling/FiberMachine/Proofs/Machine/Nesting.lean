import FiberMachine.Proofs.Machine.SafePoint
import FiberMachine.Proofs.Machine.Work

/-!
# Nested fibers

A fiber that another one interrupts waits for it, and goes on when that one parks or is
done. So the running fiber and those that wait for one another under it are a stack,
whatever events a host posts: a safe point only pushes fibers, and an instruction pushes
one, pops one or leaves the stack as it is. A fiber that is in the stack, or listed in a
queue for what it is in, is never lost.
-/

namespace FiberMachine

open Relation (ReflTransGen)

namespace Machine

variable {m m' : Machine} {row row' : List Handle} {r target : Handle} {t : Running}

/-- The fibers that wait for one another under the running one, the innermost first. -/
structure Nested (row : List Handle) (m : Machine) : Prop extends Housed m where
  waits : Waits m.status? m.awaiting row
  nodup : row.Nodup
  running : ∀ t, m.running = some t → t.fiber.state = .running

/-- The running fiber and those that wait under it. -/
def line (m : Machine) (row : List Handle) : List Handle := m.runningId?.toList ++ row

/-- A fiber that will go on: it runs, waits for another one or is listed in a queue. -/
inductive Tended (row : List Handle) (m : Machine) (r : Handle) : Prop
  | running : m.runningId? = some r → Tended row m r
  | waiting : r ∈ row → Tended row m r
  | suspended : m.stateOf? r = some .suspended → r ∈ m.wakeups → Tended row m r
  | ready : m.stateOf? r = some .ready → r ∈ m.ready → Tended row m r

theorem runningId?_some (ht : m.running = some t) : m.runningId? = some t.id := by
  rw [runningId?, ht, Option.map_some]

theorem line_running (ht : m.running = some t) : m.line row = t.id :: row := by
  rw [line, runningId?_some ht, Option.toList_some, List.singleton_append]

theorem line_nobody (hrun : m.running = none) : m.line row = row := by
  rw [line, runningId?, hrun, Option.map_none, Option.toList_none, List.nil_append]

theorem mem_line : r ∈ m.line row ↔ m.runningId? = some r ∨ r ∈ row := by
  rw [line, List.mem_append, Option.mem_toList]

theorem Tended.of_line (h : r ∈ m.line row) : Tended row m r :=
  (mem_line.mp h).elim .running .waiting

namespace Nested

theorem row_nil (hn : Nested row m) (hrun : m.running = none) : row = [] := by
  have hw := hn.waits
  rw [awaiting, hrun, Option.bind_none] at hw
  cases hw
  rfl

/-- There is only one such stack of fibers. -/
theorem unique (hn : Nested row m) (hn' : Nested row' m) : row' = row :=
  hn.waits.unique hn'.waits

theorem ne_of_mem (hn : Nested row m) (hr : r ∈ row) : m.runningId? ≠ some r := by
  intro hid
  obtain ⟨t, ht, rfl⟩ := Option.map_eq_some_iff.mp hid
  obtain ⟨c, hc⟩ := hn.waits.waiting _ hr
  rw [status?_running ht, Option.some.injEq] at hc
  have hstate := hn.running t ht
  rw [show t.fiber.state = (statusOf t.fiber).state from rfl, hc] at hstate
  cases hstate

theorem ne_running (hn : Nested row m) {s : Status} (h : m.status? r = some s)
    (hs : s.state ≠ .running) : ∀ t, m.running = some t → t.id ≠ r := by
  rintro t ht rfl
  rw [status?_running ht, Option.some.injEq] at h
  exact hs (h ▸ hn.running t ht)

theorem nodup_line (hn : Nested row m) : (m.line row).Nodup := by
  cases ht : m.running with
  | none => exact (line_nobody ht).symm ▸ hn.nodup
  | some t =>
    rw [line_running ht]
    exact List.nodup_cons.mpr ⟨fun h => hn.ne_of_mem h (runningId?_some ht), hn.nodup⟩

theorem line_eq_cons (hn : Nested row m) {rest : List Handle} (h : m.line row = r :: rest) :
    m.runningId? = some r ∧ row = rest := by
  cases ht : m.running with
  | none => simp [line_nobody ht, hn.row_nil ht] at h
  | some t =>
    rw [line_running ht] at h
    obtain ⟨rfl, rfl⟩ := List.cons.inj h
    exact ⟨runningId?_some ht, rfl⟩

theorem status_running (hn : Nested row m) (ht : m.running = some t) :
    m.status? t.id = some ⟨.running, t.fiber.caller⟩ := by
  rw [status?_running ht, ← hn.running t ht]
  rfl

theorem stateOf?_line (hn : Nested row m) (hr : r ∈ m.line row) :
    m.stateOf? r = some .running ∨ m.stateOf? r = some .waiting := by
  simp only [stateOf?_eq]
  rcases mem_line.mp hr with hid | hr
  · obtain ⟨t, ht, rfl⟩ := Option.map_eq_some_iff.mp hid
    exact .inl (by rw [hn.status_running ht, Option.map_some])
  · obtain ⟨c, hc⟩ := hn.waits.waiting r hr
    exact .inr (by rw [hc, Option.map_some])

/-- Only the running fiber and the states of those that wait matter. -/
theorem congr (hn : Nested row m) (hh : m'.Housed)
    (hrun : m'.running.map Running.outline = m.running.map Running.outline)
    (hs : ∀ r ∈ row, m'.status? r = m.status? r) : Nested row m' where
  toHoused := hh
  waits := by
    have hcaller := congrArg (Option.map fun o => o.2.1) hrun
    simp only [Option.map_map] at hcaller
    have hawaiting : m'.awaiting = m.awaiting := by
      simp only [awaiting]
      cases h : m.running <;> cases h' : m'.running <;>
        simp [h, h', Running.outline] at hcaller ⊢
      exact hcaller
    rw [hawaiting]
    exact hn.waits.congr hs
  nodup := hn.nodup
  running t' ht' := by
    rw [ht', Option.map_some] at hrun
    obtain ⟨t, ht, hout⟩ := Option.map_eq_some_iff.mp hrun.symm
    have hstate : t.fiber.state = t'.fiber.state := congrArg (fun o => o.2.2.2.1) hout
    exact hstate ▸ hn.running t ht

theorem of_eq (hn : Nested row m) (hh : m'.heap = m.heap) (hr : m'.running = m.running) :
    Nested row m' := by
  refine hn.congr ⟨hh ▸ hn.wellFormed, hh ▸ hr ▸ hn.out⟩ (by rw [hr]) fun q _ => ?_
  simp only [status?, hh, hr]

theorem alike (hn : Nested row m) (hw : m'.heap.WellFormed) (ha : Alike m m') : Nested row m' := by
  refine hn.congr ⟨hw, fun t' ht' => ?_⟩ ha.outline.running fun q _ => ha.status?_eq q
  have hid := congrArg (Option.map Prod.fst) ha.outline.running
  rw [ht', Option.map_some, Option.map_some, Option.map_map] at hid
  obtain ⟨t, ht, he⟩ := Option.map_eq_some_iff.mp hid.symm
  have he' : t.id = t'.id := he
  rw [ha.fibers.fiberAt, ← he', hn.out t ht]

end Nested

theorem Alike.runningId?_eq (ha : Alike m m') : m'.runningId? = m.runningId? := by
  have hid := congrArg (Option.map Prod.fst) ha.outline.running
  simp only [Option.map_map] at hid
  exact hid

theorem Alike.line_eq (ha : Alike m m') : m'.line row = m.line row := by
  rw [line, ha.runningId?_eq, line]

theorem Tended.alike (h : Tended row m r) (ha : Alike m m') : Tended row m' r := by
  cases h with
  | running hid => exact .running (ha.runningId?_eq.trans hid)
  | waiting hr => exact .waiting hr
  | suspended hs hr => exact .suspended ((ha.stateOf?_eq r).trans hs) (ha.wakeups_eq ▸ hr)
  | ready hs hr => exact .ready ((ha.stateOf?_eq r).trans hs) (ha.outline.ready ▸ hr)

/-! ## Switches -/

/-- What comes of resuming a fiber: nothing, or it is pushed on the stack. -/
inductive Resumed (target : Handle) (row : List Handle) (m : Machine) :
    List Handle → Machine → Prop
  | ignored : m.stateOf? target ≠ some .ready → m.stateOf? target ≠ some .suspended →
      Resumed target row m row m
  | called {m' : Machine} : m.stateOf? target = some .ready ∨ m.stateOf? target = some .suspended →
      Nested (m.line row) m' → SameQueues m m' → m'.runningId? = some target →
      (∀ r, r ≠ target → r ∉ m.line row → m'.stateOf? r = m.stateOf? r) →
      Resumed target row m (m.line row) m'

/-- A fiber leaves that runs, and the one at the head of the row could go on. -/
theorem Nested.waits_left (hn : Nested row m) (ht : m.running = some t) (state : FiberState) :
    Waits (m.left state t).status? t.fiber.caller row := by
  have hw := hn.waits
  rw [awaiting_eq ht] at hw
  refine hw.congr fun q hq => ?_
  rw [status?_left ht (hn.out t ht), Function.update_of_ne]
  rintro rfl
  exact hn.ne_of_mem hq (runningId?_some ht)

/-- A fiber that is parked enters for another one while none runs. -/
theorem nested_entered {f : Fiber} {caller : Option Handle} (hw : m.heap.WellFormed)
    (hrun : m.running = none) (hf : m.heap.fiberAt? target = some (some f))
    (hwaits : Waits m.status? caller row) (hd : row.Nodup) (ht : target ∉ row) :
    Nested row (m.entered target f caller) where
  wellFormed := wellFormed_withFiber hw target none
  out t h := by
    cases h
    simp [entered, fiberAt?_withFiber, hf]
  waits := by
    refine hwaits.congr fun q hq => ?_
    rw [status?_entered hrun, Function.update_of_ne]
    rintro rfl
    exact ht hq
  nodup := hd
  running t h := by
    cases h
    rfl

theorem status?_of_fiberAt? {f : Fiber} (hf : m.heap.fiberAt? r = some (some f))
    (hne : ∀ t, m.running = some t → t.id ≠ r) : m.status? r = some (statusOf f) := by
  have hparked : parkedStatus? m.heap r = some (statusOf f) := by simp [parkedStatus?, hf]
  rw [status?]
  split
  · rename_i t ht
    rw [if_neg (hne t ht), hparked]
  · exact hparked

theorem stateOf?_of_update {s : Status}
    (h : m'.status? = Function.update m.status? target (some s)) (hr : r ≠ target) :
    m'.stateOf? r = m.stateOf? r := by
  rw [stateOf?_eq, h, Function.update_of_ne hr, ← stateOf?_eq]

theorem Nested.resume (hn : Nested row m) (target : Handle) :
    ∃ m' row', Machine.resume target m = .ok () m' ∧ Resumed target row m row' m' := by
  by_cases hof : m.stateOf? target = some .ready ∨ m.stateOf? target = some .suspended
  case neg =>
    rw [not_or] at hof
    exact ⟨m, row, resume_ignored hof.1 hof.2, .ignored hof.1 hof.2⟩
  case pos =>
    obtain ⟨s, hst, hstate⟩ : ∃ s, m.status? target = some s ∧ s.state ≠ .running ∧
        s.state ≠ .waiting := by
      rw [stateOf?_eq] at hof
      cases hst : m.status? target with
      | none => simp [hst] at hof
      | some s =>
        rw [hst, Option.map_some, Option.some.injEq, Option.some.injEq] at hof
        exact ⟨s, rfl, by rcases hof with h | h <;> simp [h]⟩
    have hne := hn.ne_running hst hstate.1
    obtain ⟨f, hf, -⟩ := fiber_of_status hst hne
    have hrow : target ∉ row := by
      intro hr
      obtain ⟨c, hc⟩ := hn.waits.waiting _ hr
      cases hst.symm.trans hc
      exact hstate.2 rfl
    cases hrun : m.running with
    | none =>
      obtain rfl := hn.row_nil hrun
      have hentered : Nested [] (m.entered target f none) :=
        nested_entered hn.wellFormed hrun hf .nobody .nil (List.not_mem_nil)
      refine ⟨m.entered target f none, m.line [], resume_nobody hrun hof hf,
        .called hof ?_ (sameQueues_entered ..) rfl fun q hq _ => ?_⟩
      · rwa [line_nobody hrun]
      · exact stateOf?_of_update (status?_entered hrun target f none) hq
    | some c =>
      have hbody := hn.out c hrun
      have hf' := fiberAt?_left .waiting (hne c hrun) hf
      have hleft : (m.left .waiting c).status? =
          Function.update m.status? c.id (some ⟨.waiting, c.fiber.caller⟩) :=
        status?_left hrun hbody .waiting
      have hwaits : Waits (m.left .waiting c).status? (some c.id) (c.id :: row) := by
        refine .next ?_ (hn.waits_left hrun .waiting)
        rw [hleft, Function.update_self]
      have hfresh : target ∉ c.id :: row :=
        List.not_mem_cons_of_ne_of_not_mem (Ne.symm (hne c hrun)) hrow
      have hline : m.line row = c.id :: row := line_running hrun
      refine ⟨(m.left .waiting c).entered target f (some c.id), m.line row,
        resume_running hrun hbody (hne c hrun) hof hf,
        .called hof ?_ ((sameQueues_left ..).trans (sameQueues_entered ..)) rfl fun q hq hr => ?_⟩
      · rw [hline]
        exact nested_entered (wellFormed_withFiber hn.wellFormed _ _) rfl hf' hwaits
          (hline ▸ hn.nodup_line) hfresh
      · rw [hline] at hr
        rw [stateOf?_of_update (status?_entered rfl target f _) hq,
          stateOf?_of_update hleft (List.ne_of_not_mem_cons hr)]

theorem Nested.resumed {u : Unit} (hn : Nested row m) (h : Machine.resume r m = .ok u m') :
    ∃ row', Resumed r row m row' m' := by
  obtain ⟨_, row', hm', hresumed⟩ := hn.resume r
  cases h.symm.trans hm'
  exact ⟨row', hresumed⟩

/-- What comes of the running fiber giving up control: the head of the row is popped. -/
structure Returned (t : Handle) (state : FiberState) (row : List Handle) (m m' : Machine) :
    Prop where
  nested : Nested row.tail m'
  queues : SameQueues m m'
  runningId : m'.runningId? = row.head?
  state : m'.stateOf? t = some state
  others : ∀ r, r ≠ t → r ∉ row.head? → m'.stateOf? r = m.stateOf? r

theorem Nested.returnToCaller (hn : Nested row m) (ht : m.running = some t) (state : FiberState) :
    ∃ m', Machine.returnToCaller state m = .ok () m' ∧ Returned t.id state row m m' := by
  have hbody := hn.out t ht
  have hleft := status?_left ht hbody state
  have hgone : (m.left state t).stateOf? t.id = some state := by
    rw [stateOf?_eq, hleft, Function.update_self]
    rfl
  have hwf : (m.left state t).heap.WellFormed := wellFormed_withFiber hn.wellFormed _ _
  have hwaits := hn.waits_left ht state
  generalize hcaller : t.fiber.caller = caller at hwaits
  cases hwaits with
  | nobody =>
    exact ⟨m.left state t, returnToCaller_nobody ht hbody hcaller state,
      ⟨⟨hwf, by simp [left]⟩, .nobody, .nil, by simp [left]⟩,
      sameQueues_left .., rfl, hgone, fun q hq _ => stateOf?_of_update hleft hq⟩
  | @next c caller rest hwait hrest =>
    obtain ⟨f, hf, hfs⟩ := fiber_of_status hwait (by simp [Machine.left])
    obtain rfl : f.caller = caller := congrArg Status.caller hfs
    have hof : (m.left state t).stateOf? c = some .waiting := by
      rw [stateOf?_eq, hwait]
      rfl
    have hne : t.id ≠ c := by
      rintro rfl
      exact hn.ne_of_mem (List.mem_cons_self ..) (runningId?_some ht)
    have hentered := status?_entered (m := m.left state t) rfl c f f.caller
    obtain ⟨hfresh, hd⟩ := List.nodup_cons.mp hn.nodup
    refine ⟨(m.left state t).entered c f f.caller, returnToCaller_waiting ht hbody hcaller hof hf,
      nested_entered hwf rfl hf hrest hd hfresh,
      (sameQueues_left ..).trans (sameQueues_entered ..), rfl,
      (stateOf?_of_update hentered hne).trans hgone, fun q hq hqc => ?_⟩
    rw [stateOf?_of_update hentered (fun h => hqc (h ▸ rfl)), stateOf?_of_update hleft hq]

theorem Nested.returned {state : FiberState} {u : Unit} (hn : Nested row m)
    (ht : m.running = some t) (h : Machine.returnToCaller state m = .ok u m') :
    Returned t.id state row m m' := by
  obtain ⟨_, hm', hreturned⟩ := hn.returnToCaller ht state
  cases h.symm.trans hm'
  exact hreturned

/-! ## Collections -/

open Heap (Reached)

theorem isLive_of_stateOf? {state : FiberState} (hm : m.Housed) (h : m.stateOf? r = some state) :
    m.heap.isLive r := by
  by_cases hid : m.runningId? = some r
  · obtain ⟨t, ht, rfl⟩ := Option.map_eq_some_iff.mp hid
    exact Heap.isLive_of_fiberAt? (hm.out t ht)
  · rw [stateOf?_eq] at h
    obtain ⟨s, hs, -⟩ := Option.map_eq_some_iff.mp h
    obtain ⟨f, hf, -⟩ := fiber_of_status hs fun t ht he => hid (he ▸ runningId?_some ht)
    exact Heap.isLive_of_fiberAt? hf

namespace Nested

theorem isLive (hn : Nested row m) (hr : r ∈ row) : m.heap.isLive r := by
  obtain ⟨c, hc⟩ := hn.waits.waiting r hr
  exact isLive_of_stateOf? hn.toHoused (by rw [stateOf?_eq, hc, Option.map_some])

/-- The row hangs on its head. -/
theorem reached_of_head (hn : Nested row m) {head : Option Handle} {rest : List Handle}
    (hw : Waits m.status? head rest) (hrow : ∀ q ∈ rest, q ∈ row)
    (hhead : ∀ c, head = some c → Reached m.heap m.roots c) :
    ∀ q ∈ rest, Reached m.heap m.roots q := by
  induction hw with
  | nobody => simp
  | @next c caller rest hstatus hw ih =>
    have hc := hhead c rfl
    obtain ⟨f, hf, hfs⟩ := fiber_of_status hstatus (hn.ne_running hstatus (by simp))
    intro q hq
    rcases List.mem_cons.mp hq with rfl | hq
    · exact hc
    · refine ih (fun q hq => hrow q (List.mem_cons_of_mem _ hq)) (fun c' hcaller => ?_) q hq
      have hcf : f.caller = some c' := (congrArg Status.caller hfs).trans hcaller
      subst hcaller
      cases hw with
      | next _ _ =>
        exact reached_caller hc hf hcf
          (hn.isLive (hrow c' (List.mem_cons_of_mem _ (List.mem_cons_self ..))))

theorem reached (hn : Nested row m) (hr : r ∈ row) : Reached m.heap m.roots r := by
  refine hn.reached_of_head hn.waits (fun _ => id) (fun c hc => ?_) r hr
  obtain ⟨t, ht, hcaller⟩ := Option.bind_eq_some_iff.mp hc
  have hw := hn.waits
  rw [hc] at hw
  refine .root (roots_running ht c ?_) ?_
  · simp [Running.references, Fiber.references, hcaller]
  · cases hw with
    | next _ _ => exact hn.isLive (List.mem_cons_self ..)

end Nested

/-- A fiber that will go on is not garbage. -/
theorem Tended.reached (hn : Nested row m) (h : Tended row m r) : Reached m.heap m.roots r := by
  cases h with
  | running hid =>
    obtain ⟨t, ht, rfl⟩ := Option.map_eq_some_iff.mp hid
    exact .root (roots_running ht _ (List.mem_cons_self ..)) (Heap.isLive_of_fiberAt? (hn.out t ht))
  | waiting hr => exact hn.reached hr
  | suspended hs hr => exact .root (roots_wakeups r hr) (isLive_of_stateOf? hn.toHoused hs)
  | ready hs hr => exact .root (roots_ready r hr) (isLive_of_stateOf? hn.toHoused hs)

/-! ## Safe points -/

/-- What a part of a safe point makes of the stack: it pushes fibers, and loses none. -/
structure Pushes (row : List Handle) (m : Machine) (row' : List Handle) (m' : Machine) :
    Prop where
  nested : Nested row' m'
  line : ∃ pushed, m'.line row' = pushed ++ m.line row
  tended : ∀ r, Tended row m r → Tended row' m' r
  fibers : ∀ r, m'.IsFiber r → m.IsFiber r
  done : ∀ r, m.stateOf? r = some .done → m'.IsFiber r → m'.stateOf? r = some .done

theorem Nested.pushes (hn : Nested row m) : Pushes row m row m :=
  ⟨hn, ⟨[], rfl⟩, fun _ => id, fun _ => id, fun _ hd _ => hd⟩

theorem Pushes.trans {m'' : Machine} {row'' : List Handle} (h : Pushes row m row' m')
    (h' : Pushes row' m' row'' m'') : Pushes row m row'' m'' where
  nested := h'.nested
  line := by
    obtain ⟨pushed, hp⟩ := h.line
    obtain ⟨pushed', hp'⟩ := h'.line
    exact ⟨pushed' ++ pushed, by rw [hp', hp, List.append_assoc]⟩
  tended r hr := h'.tended r (h.tended r hr)
  fibers r hr := h.fibers r (h'.fibers r hr)
  done r hd hr := h'.done r (h.done r hd (h'.fibers r hr)) hr

theorem Nested.collected (hn : Nested row m) : Pushes row m row m.collected := by
  have hstate : ∀ r, Reached m.heap m.roots r → m.collected.stateOf? r = m.stateOf? r := fun r hr => by
    rw [stateOf?_eq, status?_collected hn.wellFormed hr, ← stateOf?_eq]
  have hfiber := isFiber_collected hn.wellFormed
  refine ⟨hn.congr hn.toHoused.collected rfl fun r hr => ?_, ⟨[], rfl⟩, fun r hr => ?_,
    fun r hr => ((hfiber r).mp hr).1, fun r hd hr => (hstate r ((hfiber r).mp hr).2).trans hd⟩
  · exact status?_collected hn.wellFormed (hn.reached hr)
  · have hs := hstate r (hr.reached hn)
    cases hr with
    | running hid => exact .running hid
    | waiting hr => exact .waiting hr
    | suspended hst hr => exact .suspended (hs.trans hst) hr
    | ready hst hr => exact .ready (hs.trans hst) hr

theorem Resumed.line (h : Resumed target row m row' m') :
    ∃ pushed, m'.line row' = pushed ++ m.line row := by
  cases h with
  | ignored _ _ => exact ⟨[], rfl⟩
  | called _ hn _ hid _ => exact ⟨[target], by rw [Machine.line, hid, Option.toList_some]⟩

theorem Resumed.nested (h : Resumed target row m row' m') (hn : Nested row m) : Nested row' m' := by
  cases h with
  | ignored _ _ => exact hn
  | called _ hn' _ _ _ => exact hn'

theorem Resumed.queues (h : Resumed target row m row' m') : SameQueues m m' := by
  cases h with
  | ignored _ _ => exact .refl m
  | called _ _ hq _ _ => exact hq

theorem Resumed.done (h : Resumed target row m row' m') (hn : Nested row m)
    (hd : m.stateOf? r = some .done) : m'.stateOf? r = some .done := by
  cases h with
  | ignored _ _ => exact hd
  | called hof _ _ _ hothers =>
    refine (hothers r ?_ fun hr => ?_).trans hd
    · rintro rfl
      simp [hd] at hof
    · have hline := hn.stateOf?_line hr
      simp [hd] at hline

/-- The fiber that is resumed need not be listed any more. -/
theorem Resumed.tended (h : Resumed target row m row' m') (hr : Tended row m r ∨
    r = target ∧ (m.stateOf? r = some .ready ∨ m.stateOf? r = some .suspended)) :
    Tended row' m' r := by
  cases h with
  | ignored hready hsuspended =>
    rcases hr with hr | ⟨rfl, hs | hs⟩
    · exact hr
    · exact absurd hs hready
    · exact absurd hs hsuspended
  | called _ hn hq hid hothers =>
    by_cases hrt : r = target
    · exact .running (hrt ▸ hid)
    · by_cases hline : r ∈ m.line row
      · exact .waiting hline
      · have hs := hothers r hrt hline
        cases hr.resolve_right fun h => hrt h.1 with
        | running hid' => exact absurd (mem_line.mpr (.inl hid')) hline
        | waiting hr => exact absurd (mem_line.mpr (.inr hr)) hline
        | suspended hst hr => exact .suspended (hs.trans hst) (hq.wakeups_eq ▸ hr)
        | ready hst hr => exact .ready (hs.trans hst) (hq.ready ▸ hr)

/-- The queues have changed, and at most one fiber is listed in them no more. -/
theorem Resumed.pushes {m₁ : Machine} (h : Resumed target row m₁ row' m') (hn : Nested row m)
    (hh : m₁.heap = m.heap) (hrun : m₁.running = m.running)
    (hwakes : ∀ r ∈ m.wakeups, r = target ∨ r ∈ m₁.wakeups)
    (hready : ∀ r ∈ m.ready, r = target ∨ r ∈ m₁.ready) : Pushes row m row' m' := by
  have hline : m₁.line row = m.line row := by rw [Machine.line, runningId?, hrun, Machine.line, runningId?]
  have hstate : ∀ r, m₁.stateOf? r = m.stateOf? r := fun r => by
    simp only [stateOf?, hh, hrun]
  have hn₁ := hn.of_eq hh hrun
  refine ⟨h.nested hn₁, hline ▸ h.line, fun r hr => h.tended ?_, fun r hr => ?_, fun r hd _ =>
    h.done hn₁ ((hstate r).trans hd)⟩
  case refine_2 =>
    have hr₁ := (h.queues.isFiber r).mp hr
    simpa only [IsFiber, hh] using hr₁
  cases hr with
  | running hid => exact .inl (.running (by rw [runningId?, hrun]; exact hid))
  | waiting hr => exact .inl (.waiting hr)
  | suspended hs hr =>
    rw [← hstate] at hs
    exact (hwakes r hr).symm.imp (.suspended hs) fun h => ⟨h, .inr hs⟩
  | ready hs hr =>
    rw [← hstate] at hs
    exact (hready r hr).symm.imp (.ready hs) fun h => ⟨h, .inl hs⟩

/-- Queues may change as long as they list what they listed before. -/
theorem Nested.requeue (hn : Nested row m) (hh : m'.heap = m.heap) (hrun : m'.running = m.running)
    (hwakes : ∀ r ∈ m.wakeups, r ∈ m'.wakeups) (hready : ∀ r ∈ m.ready, r ∈ m'.ready) :
    Pushes row m row m' := by
  have hid : m'.runningId? = m.runningId? := by rw [runningId?, hrun, runningId?]
  have hstate : ∀ r, m'.stateOf? r = m.stateOf? r := fun r => by simp only [stateOf?, hh, hrun]
  refine ⟨hn.of_eq hh hrun, ⟨[], by rw [Machine.line, hid, Machine.line, List.nil_append]⟩,
    fun r hr => ?_, fun r hr => by simpa only [IsFiber, hh] using hr, fun r hd _ => (hstate r).trans hd⟩
  cases hr with
  | running h => exact .running (hid.trans h)
  | waiting hr => exact .waiting hr
  | suspended hs hr => exact .suspended ((hstate r).trans hs) (hwakes r hr)
  | ready hs hr => exact .ready ((hstate r).trans hs) (hready r hr)

theorem Nested.handle {event : Event} {rest : List Event} (hn : Nested row m)
    (he : m.events = event :: rest) : ∃ m' row',
      Machine.handle event (m.withEvents rest) = .ok () m' ∧ Pushes row m row' m' ∧
        m'.events = rest ∧ m'.timers = m.timers ∧ m'.ready = m.ready := by
  cases event with
  | collect =>
    have hq : Pushes row m row (m.withEvents rest) := by
      refine hn.requeue rfl rfl (fun r hr => ?_) fun _ => id
      simpa only [wakeups, withEvents, he, List.filterMap_cons, Event.fiber?] using hr
    exact ⟨_, row, rfl, hq.trans hq.nested.collected, rfl, rfl, rfl⟩
  | resume r =>
    have hn₁ : Nested row (m.withEvents rest) := hn.of_eq rfl rfl
    obtain ⟨m', row', hm', hresumed⟩ := hn₁.resume r
    have hq := hresumed.queues
    refine ⟨m', row', hm', hresumed.pushes hn rfl rfl (fun q hq => ?_) (fun _ h => .inr h),
      hq.events, hq.timers, hq.ready⟩
    simp only [wakeups, he, withEvents, List.filterMap_cons, Event.fiber?, List.mem_append,
      List.mem_cons] at hq ⊢
    tauto

theorem Nested.handleAll (events : List Event) (hn : Nested row m) (he : m.events = events) :
    ∃ m' row', Machine.handleAll events m = .ok () m' ∧ Pushes row m row' m' ∧ m'.events = [] ∧
      m'.timers = m.timers ∧ m'.ready = m.ready := by
  induction events generalizing row m with
  | nil => exact ⟨m, row, rfl, hn.pushes, he, rfl, rfl⟩
  | cons event rest ih =>
    obtain ⟨m₁, row₁, hm₁, hp₁, he₁, htimers₁, hready₁⟩ := hn.handle he
    obtain ⟨m', row', hm', hp', he', htimers', hready'⟩ := ih hp₁.nested he₁
    refine ⟨m', row', ?_, hp₁.trans hp', he', htimers'.trans htimers₁, hready'.trans hready₁⟩
    have hevent : Machine.handle event { m with events := rest } = .ok () m₁ := hm₁
    simp only [Machine.handleAll, bind_apply, modify_apply, hevent, hm']

/-- What is left when no fiber could be started. -/
structure Unstarted (m m' : Machine) : Prop where
  heap : m'.heap = m.heap
  running : m'.running = m.running
  ready : m'.ready = []
  events : m'.events = m.events
  timers : m'.timers = m.timers
  root : m'.root = m.root

theorem Nested.startFirst (rs : List Handle) (hn : Nested row m) (hr : m.ready = rs) :
    ∃ started m' row', Machine.startFirst rs m = .ok started m' ∧ Pushes row m row' m' ∧
      (started = true → m'.running.isSome) ∧ (started = false → Unstarted m m') := by
  induction rs generalizing m with
  | nil => exact ⟨false, m, row, rfl, hn.pushes, nofun, fun _ => ⟨rfl, rfl, hr, rfl, rfl, rfl⟩⟩
  | cons r rest ih =>
    have hn₁ : Nested row { m with ready := rest } := hn.of_eq rfl rfl
    have hready : ∀ q ∈ m.ready, q = r ∨ q ∈ rest := fun q hq => List.mem_cons.mp (hr ▸ hq)
    by_cases hof : stateOf? { m with ready := rest } r = some .ready
    · obtain ⟨m', row', hm', hresumed⟩ := hn₁.resume r
      refine ⟨true, m', row', ?_, hresumed.pushes hn rfl rfl (fun _ h => .inr h) hready, fun _ => ?_,
        nofun⟩
      · simp only [Machine.startFirst, bind_apply, modify_apply, get_apply, hof, ↓reduceIte, hm',
          pure_apply]
      · cases hresumed with
        | ignored h _ => exact absurd hof h
        | called _ _ _ hid _ =>
          obtain ⟨t, ht, -⟩ := Option.map_eq_some_iff.mp hid
          rw [ht]
          rfl
    · obtain ⟨started, m', row', hm', hp, htrue, hfalse⟩ := ih hn₁ rfl
      have hq : Pushes row m row { m with ready := rest } := by
        refine ⟨hn₁, ⟨[], rfl⟩, fun q hq => ?_, fun _ => id, fun _ hd _ => hd⟩
        cases hq with
        | running hid => exact .running hid
        | waiting hq => exact .waiting hq
        | suspended hs hq => exact .suspended hs hq
        | ready hs hq =>
          refine .ready hs ((hready q hq).resolve_left ?_)
          rintro rfl
          exact hof hs
      refine ⟨started, m', row', ?_, hq.trans hp, htrue, fun h => ?_⟩
      · simp only [Machine.startFirst, bind_apply, modify_apply, get_apply, hof, ↓reduceIte, hm']
      · obtain ⟨hheap, hrun, hready', hevents, htimers, hroot⟩ := hfalse h
        exact ⟨hheap, hrun, hready', hevents, htimers, hroot⟩

/-- Nothing is left that could run. -/
structure Resting (m : Machine) : Prop where
  running : m.running = none
  root : m.root = none
  ready : m.ready = []
  events : m.events = []
  timers : m.timers.pending = []

theorem Nested.forgotten (hn : Nested row m) (hr : Resting m) (r : Handle) : ¬ Tended row m r := by
  intro h
  cases h with
  | running hid => simp [runningId?, hr.running] at hid
  | waiting hmem =>
    rw [hn.row_nil hr.running] at hmem
    cases hmem
  | suspended _ hmem => simp [wakeups, Timers.fibers, hr.timers, hr.events] at hmem
  | ready _ hmem => simp [hr.ready] at hmem

theorem Nested.pushes_fired (hn : Nested row m) {f : Timers × List Event}
    (hf : (f.1.fibers ++ f.2.filterMap Event.fiber?).Perm m.timers.fibers) :
    Pushes row m row (m.fired f) := by
  refine hn.requeue rfl rfl (fun r hr => ?_) fun _ => id
  have hmem := hf.mem_iff (a := r)
  simp only [wakeups, fired, List.filterMap_append, List.mem_append] at hr hmem ⊢
  tauto

theorem Nested.findFiber (again : Nat) (hn : Nested row m) {found : Bool}
    (h : Machine.findFiber again m = .ok found m') : ∃ row', Pushes row m row' m' ∧
      (found = true → m'.running.isSome) ∧ (found = false → Resting m') := by
  induction again generalizing row m with
  | zero => cases h
  | succ again ih =>
    have hp₀ := hn.pushes_fired (Timers.fibers_poll m.timers)
    obtain ⟨m₁, row₁, hm₁, hp₁, he₁, -, -⟩ := hp₀.nested.handleAll _ rfl
    have hp := hp₀.trans hp₁
    cases seeks_of_findFiber hm₁ h with
    | running hsome => exact ⟨row₁, hp, fun _ => hsome, (by simp)⟩
    | starts m₂ hrun hstart hfind =>
      obtain ⟨_, _, row₂, hm₂, hp₂, -, -⟩ := hp₁.nested.startFirst _ rfl
      cases hm₂.symm.trans hstart
      obtain ⟨row', hp', hresult⟩ := ih hp₂.nested hfind
      exact ⟨row', (hp.trans hp₂).trans hp', hresult⟩
    | waits m₂ hrun hstart hpos hfind =>
      obtain ⟨_, _, row₂, hm₂, hp₂, -, -⟩ := hp₁.nested.startFirst _ rfl
      cases hm₂.symm.trans hstart
      have hp₃ := hp₂.nested.pushes_fired (Timers.fibers_wait _)
      obtain ⟨row', hp', hresult⟩ := ih hp₃.nested hfind
      exact ⟨row', ((hp.trans hp₂).trans hp₃).trans hp', hresult⟩
    | rests m₂ hrun hstart hactive hroot =>
      obtain ⟨_, _, row₂, hm₂, hp₂, -, hfalse⟩ := hp₁.nested.startFirst _ rfl
      cases hm₂.symm.trans hstart
      obtain ⟨-, hrun₂, hready₂, hevents₂, -, -⟩ := hfalse rfl
      exact ⟨row₂, hp.trans hp₂, (by simp), fun _ => ⟨hrun₂.trans hrun, hroot, hready₂,
        hevents₂.trans he₁, List.length_eq_zero_iff.mp hactive⟩⟩

/-- A safe point pushes fibers on the stack, and if it finds none to run then nothing is
left that could. -/
theorem Nested.safePoint (hn : Nested row m) {found : Bool}
    (h : Machine.safePoint m = .ok found m') : ∃ row', Pushes row m row' m' ∧
      (found = true → m'.running.isSome) ∧ (found = false → Resting m') := by
  simp only [Machine.safePoint, bind_apply, get_apply] at h
  cases hfind : Machine.findFiber (m.timers.active + 2) m with
  | error e m₁ => simp [hfind] at h
  | ok found₁ m₁ =>
    obtain ⟨row₁, hp, htrue, hfalse⟩ := hn.findFiber _ hfind
    simp only [hfind] at h
    cases found₁ with
    | false =>
      cases h
      exact ⟨row₁, hp, (by simp), hfalse⟩
    | true =>
      simp only [↓reduceIte, collectIfDue, bind_apply, get_apply, pure_apply] at h
      by_cases hdue : m₁.collectionDue
      · simp only [hdue, ↓reduceIte] at h
        cases h
        exact ⟨row₁, hp.trans hp.nested.collected, fun _ => htrue rfl, (by simp)⟩
      · simp only [hdue, Bool.false_eq_true, ↓reduceIte, pure_apply] at h
        cases h
        exact ⟨row₁, hp, fun _ => htrue rfl, (by simp)⟩

end Machine

end FiberMachine
