import FiberMachine.Proofs.Machine.Preemption

/-!
# The order in which timers wake fibers

Timers fire by deadline, the older one first among equal ones. The fibers that fire at one
safe point are stacked before any of them executes an instruction, so the one with the last
deadline goes on first and the one with the first deadline last.
-/

namespace FiberMachine

open Relation (ReflTransGen)

namespace Timer

theorem before_iff {a b : Timer} : a.before b = true ↔
    a.deadline < b.deadline ∨ a.deadline = b.deadline ∧ a.sequence ≤ b.sequence := by
  simp only [before, Bool.or_eq_true, Bool.and_eq_true, decide_eq_true_eq, beq_iff_eq]

theorem before_of_lt {a b : Timer} (h : a.deadline < b.deadline) : a.before b = true :=
  before_iff.mpr (.inl h)

theorem before_total (a b : Timer) : (a.before b || b.before a) = true := by
  rw [Bool.or_eq_true]
  rcases Nat.lt_trichotomy a.deadline b.deadline with h | h | h
  · exact .inl (before_of_lt h)
  · exact (Nat.le_total a.sequence b.sequence).imp (fun hs => before_iff.mpr (.inr ⟨h, hs⟩))
      fun hs => before_iff.mpr (.inr ⟨h.symm, hs⟩)
  · exact .inr (before_of_lt h)

theorem before_trans (a b c : Timer) (hab : a.before b = true) (hbc : b.before c = true) :
    a.before c = true := by
  rcases before_iff.mp hab with h | ⟨h, hs⟩ <;> rcases before_iff.mp hbc with h' | ⟨h', hs'⟩
  · exact before_of_lt (Nat.lt_trans h h')
  · exact before_of_lt (h' ▸ h)
  · exact before_of_lt (h ▸ h')
  · exact before_iff.mpr (.inr ⟨h.trans h', Nat.le_trans hs hs'⟩)

end Timer

namespace Timers

/-- Some timers fire one after the other, and the others stay. What has fired is due before
all that is left. -/
structure Fires (t : Timers) (fired : List Timer) (t' : Timers) : Prop where
  perm : t.pending.Perm (fired ++ t'.pending)
  sorted : fired.Pairwise fun a b => a.before b = true
  later : ∀ a ∈ fired, ∀ b ∈ t'.pending, a.deadline < b.deadline

theorem fires_poll (t : Timers) : t.Fires t.due t.poll.1 := by
  have hpending : t.poll.1.pending = t.pending.filter fun timer => !isDue t.now timer := by
    simp only [poll]
    split
    · rename_i h
      simp [h]
    · rfl
  have hdue : t.due.Perm (t.pending.filter (isDue t.now)) := List.mergeSort_perm _ _
  refine ⟨?_, List.pairwise_mergeSort Timer.before_trans Timer.before_total _, fun a ha b hb => ?_⟩
  · rw [hpending]
    exact (List.filter_append_perm (isDue t.now) t.pending).symm.trans (hdue.symm.append_right _)
  · have ha := (List.mem_filter.mp (hdue.mem_iff.mp ha)).2
    have hb := (List.mem_filter.mp (hpending ▸ hb)).2
    simp only [isDue, decide_eq_true_eq, Bool.not_eq_true', decide_eq_false_iff_not, not_le] at ha hb
    exact ha.trans_lt hb

theorem filterMap_poll (t : Timers) :
    t.poll.2.filterMap Event.fiber? = t.due.map Timer.fiber := by
  simp only [poll]
  split
  · rename_i h
    simp [due, h]
  · rw [List.filterMap_map]
    exact List.filterMap_eq_map.symm ▸ rfl

/-- Two timers that are due at one time fire in the order in which they were started. -/
theorem wait_pair {now d : Duration} {i j n : Nat} {r s : Handle} (hd : now ≤ d) (hij : i ≤ j) :
    (⟨now, [⟨d, i, r⟩, ⟨d, j, s⟩], n⟩ : Timers).wait = (⟨d, [], n⟩, [.resume r, .resume s]) := by
  have hsorted : [(⟨d, i, r⟩ : Timer), ⟨d, j, s⟩].Pairwise fun a b => a.before b = true := by
    simp [Timer.before, hij]
  simp [wait, earliest?, poll, due, isDue, List.mergeSort_of_pairwise hsorted, hd]
theorem fires_wait (t : Timers) : t.Fires t.woken.due t.wait.1 := by
  have hpending : t.woken.pending = t.pending := by
    simp only [woken]
    cases t.earliest? <;> rfl
  obtain ⟨hperm, hsorted, hlater⟩ := t.woken.fires_poll
  rw [wait_eq]
  exact ⟨hpending ▸ hperm, hsorted, hlater⟩

theorem Fires.trans {t t₁ t' : Timers} {fired fired' : List Timer} (h : t.Fires fired t₁)
    (h' : t₁.Fires fired' t') : t.Fires (fired ++ fired') t' := by
  have hmem : ∀ a, a ∈ fired' ∨ a ∈ t'.pending → a ∈ t₁.pending := fun a ha =>
    h'.perm.mem_iff.mpr (List.mem_append.mpr ha)
  refine ⟨?_, List.pairwise_append.mpr ⟨h.sorted, h'.sorted, fun a ha b hb => ?_⟩,
    fun a ha b hb => ?_⟩
  · rw [List.append_assoc]
    exact h.perm.trans (h'.perm.append_left _)
  · exact Timer.before_of_lt (h.later a ha b (hmem b (.inl hb)))
  · rcases List.mem_append.mp ha with ha | ha
    · exact h.later a ha b (hmem b (.inr hb))
    · exact h'.later a ha b hb

end Timers

namespace Machine

variable {host : HostFunctions} {own : Set Handle} {m m₁ m' : Machine} {row : List Handle}
variable {r : Handle} {events : List Event}

/-! ## Events -/

/-- The suspended fibers that events will resume. -/
def sleepers (m : Machine) (events : List Event) : List Handle :=
  (events.filterMap Event.fiber?).filter fun r => m.stateOf? r = some .suspended

/-- No event concerns a fiber that has not started, and no two concern one that sleeps. -/
structure Sleeping (m : Machine) (events : List Event) : Prop where
  nodup : (m.sleepers events).Nodup
  unready : ∀ r ∈ events.filterMap Event.fiber?, m.stateOf? r ≠ some .ready

theorem sleepers_append (es es' : List Event) :
    m.sleepers (es ++ es') = m.sleepers es ++ m.sleepers es' := by
  simp only [sleepers, List.filterMap_append, List.filter_append]

/-- Only who of those that are listed sleeps matters. -/
theorem sleepers_congr (h : ∀ r ∈ events.filterMap Event.fiber?,
    (m'.stateOf? r = some .suspended ↔ m.stateOf? r = some .suspended)) :
    m'.sleepers events = m.sleepers events :=
  List.filter_congr fun r hr => by simp only [h r hr]

theorem Sleeping.congr (hs : Sleeping m events) (h : ∀ r ∈ events.filterMap Event.fiber?,
    (m'.stateOf? r = some .suspended ↔ m.stateOf? r = some .suspended))
    (hready : ∀ r ∈ events.filterMap Event.fiber?, m'.stateOf? r = some .ready →
      m.stateOf? r = some .ready) : Sleeping m' events :=
  ⟨sleepers_congr h ▸ hs.nodup, fun r hr hr' => hs.unready r hr (hready r hr hr')⟩

/-- A collection changes the state of no fiber, but takes some away. -/
theorem stateOf?_of_collected (hm : m.Housed) {state : FiberState}
    (h : m.collected.stateOf? r = some state) : m.stateOf? r = some state := by
  by_cases hr : Heap.Reached m.heap m.roots r
  · rwa [stateOf?_eq, status?_collected hm.wellFormed hr, ← stateOf?_eq] at h
  · have hnot : ¬ m.collected.IsFiber r := fun hf =>
      hr ((isFiber_collected hm.wellFormed r).mp hf).2
    rw [stateOf?_of_not_isFiber (fun t ht => ?_) hnot] at h
    · cases h
    · rw [IsFiber, hm.collected.out t ht]
      rfl

/-- What the first of some events does to the stack, and what it leaves to the others. -/
structure Handled (event : Event) (rest : List Event) (row : List Handle) (m : Machine)
    (row' : List Handle) (m' : Machine) : Prop where
  nested : Nested row' m'
  events : m'.events = rest
  line : m'.line row' = (m.sleepers [event]).reverse ++ m.line row
  sleepers : m'.sleepers rest = m.sleepers rest
  sleeping : Sleeping m' rest

theorem Sleeping.tail {event : Event} {rest : List Event} (hs : Sleeping m (event :: rest)) :
    Sleeping m rest := by
  obtain ⟨hd, hu⟩ := hs
  rw [← List.singleton_append, sleepers_append] at hd
  refine ⟨hd.of_append_right, fun r hr => hu r ?_⟩
  rw [← List.singleton_append, List.filterMap_append]
  exact List.mem_append_right _ hr

theorem Nested.handled_collect {rest : List Event} (hn : Nested row m) (he : m.events = rest)
    (hs : Sleeping m rest) : Handled .collect rest row m row m.collected := by
  have hiff : ∀ r ∈ rest.filterMap Event.fiber?,
      (m.collected.stateOf? r = some .suspended ↔ m.stateOf? r = some .suspended) := by
    refine fun r hr => ⟨stateOf?_of_collected hn.toHoused, fun hst => ?_⟩
    have ht : Tended row m r := .suspended hst (List.mem_append_right _ (he ▸ hr))
    rwa [stateOf?_eq, status?_collected hn.wellFormed (ht.reached hn), ← stateOf?_eq]
  exact ⟨hn.collected.nested, he, rfl, sleepers_congr hiff,
    hs.congr hiff fun r _ => stateOf?_of_collected hn.toHoused⟩

theorem Nested.handled_resume {rest : List Event} (hn : Nested row m) (he : m.events = rest)
    (hs : Sleeping m (.resume r :: rest)) (h : Machine.resume r m = .ok () m') :
    ∃ row', Handled (.resume r) rest row m row' m' := by
  obtain ⟨row', hresumed⟩ := hn.resumed h
  cases hresumed with
  | ignored hready hsuspended =>
    refine ⟨row, hn, he, ?_, rfl, hs.tail⟩
    simp [sleepers, Event.fiber?, hsuspended]
  | called hstate hnested hqueues hid hothers =>
    have hst : m.stateOf? r = some .suspended := hstate.resolve_left (hs.unready r (by simp [Event.fiber?]))
    have hfirst : m.sleepers [.resume r] = [r] := by simp [sleepers, Event.fiber?, hst]
    have hfresh : r ∉ rest.filterMap Event.fiber? := by
      intro hr
      have hd := hs.nodup
      rw [← List.singleton_append, sleepers_append, hfirst] at hd
      refine (List.nodup_cons.mp hd).1 (List.mem_filter.mpr ⟨hr, ?_⟩)
      simpa using hst
    -- those in the stack neither sleep nor are ready, before and afterwards
    have hsame : ∀ q ∈ rest.filterMap Event.fiber?, ∀ state,
        state = .suspended ∨ state = .ready →
          (m'.stateOf? q = some state ↔ m.stateOf? q = some state) := by
      intro q hq state hor
      by_cases hline : q ∈ m.line row
      · have hbefore := hn.stateOf?_line hline
        have hafter := hnested.stateOf?_line (mem_line.mpr (.inr hline))
        constructor
        · intro h
          rcases hafter with h' | h' <;> rcases hor with rfl | rfl <;> simp [h'] at h
        · intro h
          rcases hbefore with h' | h' <;> rcases hor with rfl | rfl <;> simp [h'] at h
      · rw [hothers q (fun hqr => hfresh (hqr ▸ hq)) hline]
    have hiff : ∀ q ∈ rest.filterMap Event.fiber?,
        (m'.stateOf? q = some .suspended ↔ m.stateOf? q = some .suspended) := fun q hq =>
      hsame q hq _ (.inl rfl)
    refine ⟨m.line row, hnested, hqueues.events.trans he, ?_, sleepers_congr hiff,
      hs.tail.congr hiff fun q hq => (hsame q hq _ (.inr rfl)).mp⟩
    rw [hfirst, line, hid]
    rfl

/-- Handling events puts the fibers that they wake on the stack, one after the other. -/
theorem Nested.handleAll_line (events : List Event) (hn : Nested row m) (he : m.events = events)
    (hs : Sleeping m events) (h : Machine.handleAll events m = .ok () m') : ∃ row', Nested row' m' ∧
      m'.line row' = (m.sleepers events).reverse ++ m.line row := by
  induction events generalizing row m with
  | nil =>
    cases h
    exact ⟨row, hn, rfl⟩
  | cons event rest ih =>
    have hn₀ : Nested row (m.withEvents rest) := hn.of_eq rfl rfl
    have hs₀ : Sleeping (m.withEvents rest) (event :: rest) := ⟨hs.nodup, hs.unready⟩
    obtain ⟨_, _, hmod, hevent⟩ := bind_eq_ok h
    cases hmod
    obtain ⟨_, m₁, hevent, hrest⟩ := bind_eq_ok hevent
    have hfirst : ∃ row₁, Handled event rest row (m.withEvents rest) row₁ m₁ := by
      cases event with
      | collect =>
        cases hevent
        exact ⟨row, hn₀.handled_collect rfl hs₀.tail⟩
      | resume r => exact hn₀.handled_resume rfl hs₀ hevent
    obtain ⟨row₁, hn₁, he₁, hline₁, hsleepers, hs₁⟩ := hfirst
    obtain ⟨row', hn', hline'⟩ := ih hn₁ he₁ hs₁ hrest
    refine ⟨row', hn', ?_⟩
    rw [hline', hsleepers, hline₁, ← List.append_assoc, ← List.reverse_append]
    exact congrArg (fun l => List.reverse l ++ m.line row) (sleepers_append [event] rest).symm

/-! ## Safe points -/

theorem Orderly.suspended_of_mem (ho : Orderly own m) (hr : r ∈ own) (hw : r ∈ m.wakeups) :
    m.stateOf? r = some .suspended ∧ m.wakeups.count r = 1 := by
  have hc := ho.scheduled.schedule.wakes r hr
  have hpos := List.count_pos_iff.mpr hw
  obtain ⟨s, hs, -⟩ := ho.scheduled.exists_status hr
  rw [times] at hc
  split at hc
  · rename_i hst
    exact ⟨(stateOf?_eq m r).trans hst, hc⟩
  · omega

/-- The fiber of a timer is suspended. -/
theorem Orderly.parked (ho : Orderly own m) {a : Timer} (ha : a ∈ m.timers.pending) :
    m.stateOf? a.fiber = some .suspended := by
  have hf : a.fiber ∈ m.timers.fibers := List.mem_map_of_mem ha
  exact (ho.suspended_of_mem (ho.timers _ hf) (List.mem_append_left _ hf)).1

theorem Orderly.sleeping (ho : Orderly own m) : Sleeping m m.events := by
  have htargets : ∀ r ∈ m.events.filterMap Event.fiber?, r ∈ m.wakeups := fun r hr =>
    List.mem_append_right _ hr
  have hor : ∀ r ∈ m.events.filterMap Event.fiber?,
      r ∈ own ∨ m.heap.fiberAt? r = none := by
    intro r hr
    obtain ⟨event, hevent, hfiber⟩ := List.mem_filterMap.mp hr
    cases event with
    | collect => cases hfiber
    | resume q =>
      cases hfiber
      exact (ho.events r hevent).imp id And.right
  have hnone : ∀ r, m.heap.fiberAt? r = none → m.stateOf? r = none := by
    refine fun r hr => stateOf?_of_not_isFiber (fun t ht => ?_) (by simp [IsFiber, hr])
    rw [IsFiber, (ho.scheduled.running t ht).2.2]
    rfl
  refine ⟨List.nodup_iff_count_le_one.mpr fun r => ?_, fun r hr hst => ?_⟩
  · by_cases hr : r ∈ m.sleepers m.events
    · obtain ⟨hmem, hst⟩ := List.mem_filter.mp hr
      rcases hor r hmem with hown | hfiber
      · have hcount := (ho.suspended_of_mem hown (htargets r hmem)).2
        rw [wakeups, List.count_append] at hcount
        have hle : (m.sleepers m.events).count r ≤ (m.events.filterMap Event.fiber?).count r :=
          List.Sublist.count_le r List.filter_sublist
        omega
      · simp [hnone r hfiber] at hst
    · rw [List.count_eq_zero_of_not_mem hr]
      exact Nat.zero_le 1
  · rcases hor r hr with hown | hfiber
    · simp [(ho.suspended_of_mem hown (htargets r hr)).1] at hst
    · simp [hnone r hfiber] at hst

/-- Of the fibers of timers that fire all sleep. -/
theorem Orderly.sleepers_fired (ho : Orderly own m) {f : Timers × List Event} {fired : List Timer}
    (hf : m.timers.Fires fired f.1) (he : f.2.filterMap Event.fiber? = fired.map Timer.fiber) :
    (m.fired f).sleepers (m.fired f).events = m.sleepers m.events ++ fired.map Timer.fiber := by
  have hsame : (m.fired f).sleepers (m.fired f).events = m.sleepers (m.events ++ f.2) := rfl
  rw [hsame, sleepers_append]
  refine congrArg _ ?_
  rw [sleepers, he, List.filter_eq_self]
  intro r hr
  obtain ⟨a, ha, rfl⟩ := List.mem_map.mp hr
  simpa using ho.parked (hf.perm.mem_iff.mpr (List.mem_append_left _ ha))

/-- What a safe point makes of the timers and of the stack. If it starts a fiber that was
ready then no event has woken one before. -/
structure Wakened (row : List Handle) (m : Machine) (fired : List Timer) (row' : List Handle)
    (m' : Machine) : Prop where
  nested : Nested row' m'
  fires : m.timers.Fires fired m'.timers
  line : ∃ started, (started = [] ∨ m.sleepers m.events = []) ∧ m'.line row' =
    (fired.map Timer.fiber).reverse ++ started ++ (m.sleepers m.events).reverse ++ m.line row

theorem Orderly.findFiber_wakened (again : Nat) (ho : Orderly own m) (hn : Nested row m)
    {found : Bool} (h : Machine.findFiber again m = .ok found m') :
    ∃ fired row', Wakened row m fired row' m' := by
  induction again generalizing own row m with
  | zero => cases h
  | succ again ih =>
    have hfires := m.timers.fires_poll
    have hs₀ := ho.settles_fired (Timers.fibers_poll m.timers)
    have hsleepers := ho.sleepers_fired hfires (Timers.filterMap_poll m.timers)
    have hn₀ := (hn.pushes_fired (Timers.fibers_poll m.timers)).nested
    obtain ⟨m₁, hm₁, hw, he₁⟩ := hs₀.orderly.handleAll _ rfl
    obtain ⟨row₁, hn₁, hline₁⟩ := hn₀.handleAll_line _ rfl hs₀.orderly.sleeping hm₁
    rw [hsleepers, List.reverse_append] at hline₁
    have hfires₁ : m.timers.Fires m.timers.due m₁.timers := hw.timers ▸ hfires
    -- where nobody runs yet nothing has woken anybody so far, and nobody was there before
    have hidle (hrun : m₁.running = none) : m₁.line row₁ = [] ∧ m.timers.due = [] ∧
        m.sleepers m.events = [] ∧ m.line row = [] := by
      have hempty : m₁.line row₁ = [] := by rw [line_nobody hrun, hn₁.row_nil hrun]
      rw [hempty, eq_comm, List.append_eq_nil_iff, List.append_eq_nil_iff, List.reverse_eq_nil_iff,
        List.reverse_eq_nil_iff, List.map_eq_nil_iff] at hline₁
      exact ⟨hempty, hline₁.1.1, hline₁.1.2, hline₁.2⟩
    cases seeks_of_findFiber hm₁ h with
    | running hsome =>
      refine ⟨m.timers.due, row₁, hn₁, hfires₁, [], .inl rfl, ?_⟩
      rw [List.append_nil]
      exact hline₁
    | starts m₂ hrun hstart hfind =>
      -- the fiber that starts is below all that the next round wakes
      obtain ⟨-, hdue, hasleep, hnobody⟩ := hidle hrun
      obtain ⟨-, -, -, -, -, hw₂⟩ := hw.orderly.of_startReady hstart
      obtain ⟨_, _, row₂, hm₂, hp₂, -, -⟩ := hn₁.startFirst _ rfl
      cases hm₂.symm.trans hstart
      obtain ⟨fired, row', hn', hfires', started, -, hline'⟩ := ih hw₂.orderly hp₂.nested hfind
      rw [hdue] at hfires₁
      refine ⟨_, row', hn', hfires₁.trans (hw₂.timers ▸ hfires'),
        started ++ (m₂.sleepers m₂.events).reverse ++ m₂.line row₂, .inr hasleep, ?_⟩
      rw [hline', List.nil_append, hasleep, hnobody]
      simp only [List.reverse_nil, List.append_nil, List.append_assoc]
    | waits m₂ hrun hstart hpos hfind =>
      -- the timers that the wait fires wake their fibers in the next round
      obtain ⟨hempty, hdue, hasleep, hnobody⟩ := hidle hrun
      obtain ⟨-, rfl⟩ := hw.orderly.of_startReady_false hstart
      have hwait := Timers.fibers_wait m₁.timers
      have hfires₂ := m₁.timers.fires_wait
      have hsleepers₂ := hw.orderly.sleepers_fired hfires₂
        (by rw [Timers.wait_eq]; exact Timers.filterMap_poll _)
      obtain ⟨fired, row', hn', hfires', started, hstarted, hline'⟩ :=
        ih (hw.orderly.fired hwait) (hn₁.pushes_fired hwait).nested hfind
      have hline₂ : (m₁.fired m₁.timers.wait).line row₁ = [] := hempty
      rw [he₁] at hsleepers₂
      rw [hsleepers₂, hline₂] at hline'
      rw [hdue] at hfires₁
      refine ⟨_, row', hn', (hfires₁.trans hfires₂).trans hfires', started, .inr hasleep, ?_⟩
      rw [hline', hasleep, hnobody]
      rcases hstarted with rfl | hnone
      · simp [sleepers]
      · have hdue₂ : m₁.timers.woken.due.map Timer.fiber = [] := by
          simpa [sleepers] using hsleepers₂.symm.trans hnone
        simp [sleepers, hdue₂]
    | rests m₂ hrun hstart =>
      obtain ⟨hempty, hdue, hasleep, hnobody⟩ := hidle hrun
      obtain ⟨-, rfl⟩ := hw.orderly.of_startReady_false hstart
      exact ⟨_, row₁, hn₁, hfires₁, [], .inl rfl, by simp [hempty, hdue, hasleep, hnobody]⟩

theorem Orderly.safePoint_wakened (ho : Orderly own m) (hn : Nested row m) {found : Bool}
    (h : Machine.safePoint m = .ok found m') : ∃ fired row', Wakened row m fired row' m' := by
  obtain ⟨_, _, hm, h⟩ := bind_eq_ok h
  cases hm
  obtain ⟨found₁, m₁, hfind, h⟩ := bind_eq_ok h
  obtain ⟨fired, row₁, hw⟩ := ho.findFiber_wakened _ hn hfind
  cases found₁ with
  | false =>
    cases h
    exact ⟨fired, row₁, hw⟩
  | true =>
    simp only [↓reduceIte, collectIfDue, bind_apply, get_apply, pure_apply] at h
    by_cases hdue : m₁.collectionDue
    · simp only [hdue, ↓reduceIte] at h
      cases h
      exact ⟨fired, row₁, hw.nested.collected.nested, hw.fires, hw.line⟩
    · simp only [hdue, Bool.false_eq_true, ↓reduceIte, pure_apply] at h
      cases h
      exact ⟨fired, row₁, hw⟩

/-! ## What is guaranteed -/

/-- A fiber below another one in the stack does not run before that one has executed an
instruction. -/
theorem Nested.not_running_under (hh : host.Intrudes) (hn : Nested row m)
    {above rest : List Handle} {under : Handle} (hline : m.line row = above ++ r :: rest)
    (hunder : under ∈ rest) (h : ReflTransGen (Apart host r) m m')
    (hfit : m'.room ≤ Heap.slotLimit) : m'.runningId? ≠ some under := by
  have ht : Tended row m r := .of_line (hline ▸ by simp)
  obtain ⟨row', haway⟩ := hn.away hh ht h hfit
  obtain ⟨above', hline'⟩ := haway.line above rest hline
  intro hid
  have hcons : m'.line row' = under :: row' := by
    rw [Machine.line, hid]
    rfl
  have hd := haway.nested.nodup_line
  rw [hline'] at hcons hd
  cases above' with
  | nil =>
    obtain ⟨rfl, -⟩ := List.cons.inj hcons
    exact (List.nodup_cons.mp hd).1 hunder
  | cons c above' =>
    obtain ⟨rfl, -⟩ := List.cons.inj hcons
    refine (List.nodup_cons.mp hd).1 ?_
    exact List.mem_append_right _ (List.mem_cons_of_mem _ hunder)

/-- What a safe point makes of the timers. Those that fire are due before all that stay, whose
fibers sleep on. The fiber of the last one that fires runs, and of two that fire the fiber of
the later one executes an instruction before the fiber of the earlier one runs. -/
structure Awakens (host : HostFunctions) (fired : List Timer) (m m' : Machine) : Prop where
  fires : m.timers.Fires fired m'.timers
  asleep : ∀ b ∈ m'.timers.pending, m'.stateOf? b.fiber = some .suspended
  last : ∀ a, fired.getLast? = some a → m'.runningId? = some a.fiber
  reversed : ∀ a ∈ fired, ∀ b ∈ fired, b.before a = false → ∀ m'',
    ReflTransGen (Apart host b.fiber) m' m'' → m''.room ≤ Heap.slotLimit →
      m''.runningId? ≠ some a.fiber

theorem Wakened.awakens {fired : List Timer} {row' : List Handle} (hh : host.Intrudes)
    (hw : Wakened row m fired row' m')
    (hasleep : ∀ b ∈ m'.timers.pending, m'.stateOf? b.fiber = some .suspended) :
    Awakens host fired m m' := by
  obtain ⟨started, -, hline⟩ := hw.line
  refine ⟨hw.fires, hasleep, fun a ha => ?_, fun a ha b hb hlater m'' h hfit => ?_⟩
  · obtain ⟨before, rfl⟩ := List.getLast?_eq_some_iff.mp ha
    rw [List.map_append, List.reverse_append] at hline
    exact (hw.nested.line_eq_cons hline).1
  · obtain ⟨before, behind, rfl⟩ := List.append_of_mem ha
    have hb : b ∈ behind := by
      rcases List.mem_append.mp hb with hb | hb
      · have hsorted := (List.pairwise_append.mp hw.fires.sorted).2.2 b hb a List.mem_cons_self
        simp [hlater] at hsorted
      · rcases List.mem_cons.mp hb with rfl | hb
        · have htotal := Timer.before_total b b
          simp [hlater] at htotal
        · exact hb
    obtain ⟨between, last, rfl⟩ := List.append_of_mem hb
    simp only [List.map_append, List.map_cons, List.reverse_append, List.reverse_cons,
      List.append_assoc, List.cons_append, List.nil_append] at hline
    refine hw.nested.not_running_under hh hline ?_ h hfit
    exact List.mem_append_right _ List.mem_cons_self

/-- What holds of every run in which a host posts no events that resume fibers, as long as the
slots of the heap can be told apart. -/
structure WakingGuarantees (host : HostFunctions) : Prop where
  parked : ∀ {begun own m}, Session host begun → Run host begun own m →
    m.room ≤ Heap.slotLimit → ∀ a ∈ m.timers.pending, m.stateOf? a.fiber = some .suspended
  wakes : ∀ {begun own m found m'}, Session host begun → Run host begun own m →
    safePoint m = .ok found m' → m'.room ≤ Heap.slotLimit → ∃ fired, Awakens host fired m m'

theorem wakingGuarantees (hl : host.LeavesFibers) (hh : host.Intrudes) :
    WakingGuarantees host where
  parked hbegun hr hfit a ha := by
    have ho := hr.orderly hl (hbegun.orderly hl ((hr.room_le hl).trans hfit)) hfit
    exact ho.parked ha
  wakes {begun own m found m'} hbegun hr h hfit := by
    have hroom : m.room ≤ Heap.slotLimit := (after_ok h ▸ room_le_after safePoint m).trans hfit
    have hrest := hbegun.orderly hl ((hr.room_le hl).trans hroom)
    have ho := hr.orderly hl hrest hroom
    have hnobody : begun.running = none := Option.eq_none_iff_forall_ne_some.mpr fun t ht =>
      (hrest.scheduled.running t ht).1
    obtain ⟨row, hn, -⟩ := hr.nested hh hrest.scheduled.wellFormed hnobody hroom
    obtain ⟨fired, row', hw⟩ := ho.safePoint_wakened hn h
    obtain ⟨_, m₁, hm₁, hs, -⟩ := ho.safePoint
    cases h.symm.trans hm₁
    exact ⟨fired, hw.awakens hh fun b hb => hs.orderly.parked hb⟩

/-- A program that starts two naps. -/
def twoNaps : Prototype where
  name := "script"
  arity := 0
  isAsync := false
  code := #[Opcode.constant.toByte, 0, Opcode.call.toByte, 0, Opcode.pop.toByte,
    Opcode.constant.toByte, 0, Opcode.call.toByte, 0, Opcode.ret.toByte]
  constants := [.function nap]
  lines := #[]

/-- The machine in which both of its fibers sleep. -/
def twoSleepers : Machine := ((new {}).interpret Probe.host 10 twoNaps).2

/-- The fibers that fell asleep first and last. -/
def earlyNap : Handle := twoSleepers.timers.fibers.headD ⟨0, .zero⟩

def lateNap : Handle := twoSleepers.timers.fibers.getLastD ⟨0, .zero⟩

/-- Both sleep until one time. -/
theorem timers_twoSleepers : twoSleepers.timers =
    ⟨0, [⟨1000000, 0, earlyNap⟩, ⟨1000000, 1, lateNap⟩], 2⟩ := by decide +kernel

theorem safePoint_twoSleepers : ∃ r s m',
    twoSleepers.timers = ⟨0, [⟨1000000, 0, r⟩, ⟨1000000, 1, s⟩], 2⟩ ∧
      safePoint twoSleepers = .ok true m' ∧ m'.runningId? = some s := by
  have hpoll : twoSleepers.timers.poll = (twoSleepers.timers, []) := by decide +kernel
  have hrun : twoSleepers.running = none := by
    rw [← Option.isNone_iff_eq_none]
    decide +kernel
  have hactive : twoSleepers.timers.active = 2 := by decide +kernel
  have hwait : findFiber 4 twoSleepers = findFiber 3 (twoSleepers.fired
      (⟨1000000, [], 2⟩, [.resume earlyNap, .resume lateNap])) := by
    rw [findFiber_wait hpoll hrun (by decide +kernel) (by decide +kernel)
      (by rw [hactive]; decide), timers_twoSleepers, Timers.wait_pair (Nat.zero_le _) (by decide)]
  have hlast : (match findFiber 3 (twoSleepers.fired
        (⟨1000000, [], 2⟩, [.resume earlyNap, .resume lateNap])) with
      | .ok found m' => found && !m'.collectionDue && m'.runningId? == some lateNap
      | .error _ _ => false) = true := by decide +kernel
  rw [← hwait] at hlast
  cases hfind : findFiber 4 twoSleepers with
  | error e m' => simp [hfind] at hlast
  | ok found m' =>
    simp only [hfind, Bool.and_eq_true, Bool.not_eq_true', beq_iff_eq] at hlast
    obtain ⟨⟨rfl, hcalm⟩, hid⟩ := hlast
    refine ⟨earlyNap, lateNap, m', timers_twoSleepers, ?_, hid⟩
    simp [safePoint, collectIfDue, bind_apply, get_apply, hactive, hfind, hcalm, pure_apply]

/-- Of two fibers whose timers are due at one time the later one runs first. -/
theorem wakingGuarantees_probe : WakingGuarantees Probe.host ∧ Session Probe.host (new {}) ∧
    ∃ own a b m', Run Probe.host (new {}) own twoSleepers ∧
      twoSleepers.timers.pending = [a, b] ∧ a.before b = true ∧ b.before a = false ∧
      safePoint twoSleepers = .ok true m' ∧ m'.runningId? = some b.fiber := by
  have hsleeps : ((new {}).interpret Probe.host 10 twoNaps).1 = .unfinished := by decide +kernel
  obtain ⟨own, hrun⟩ := interpret_unfinished (interpret_eq hsleeps)
  obtain ⟨r, s, m', htimers, hsafe, hid⟩ := safePoint_twoSleepers
  exact ⟨wakingGuarantees leavesFibers_probe intrudes_probe, .new {}, own, ⟨_, _, r⟩, ⟨_, _, s⟩, m',
    hrun, by rw [htimers], by simp [Timer.before], by simp [Timer.before], hsafe, hid⟩

end Machine

end FiberMachine
