import FiberMachine.Proofs.Machine.Beats

/-!
# What an await leads to

A timer names a fiber and no await. But a fiber that sleeps has one wake-up under way, as a timer
or as an event, and gets no other one before it runs. So every await leads to one resumption, and
that comes when the time is over.
-/

namespace FiberMachine

namespace Timers

variable {t : Timers} {a : Timer}

theorem poll_now (t : Timers) : t.poll.1.now = t.now := by
  simp only [poll]
  split <;> rfl

theorem woken_pending (t : Timers) : t.woken.pending = t.pending := by
  simp only [woken]
  cases t.earliest? <;> rfl

theorem mem_due : a ∈ t.due ↔ a ∈ t.pending ∧ a.deadline ≤ t.now := by
  rw [due, (List.mergeSort_perm _ _).mem_iff, List.mem_filter, isDue, decide_eq_true_eq]

theorem poll_events (t : Timers) : t.poll.2 = t.due.map fun a => .resume a.fiber := by
  simp only [poll]
  split
  · rename_i hnil
    simp [due, hnil]
  · rfl

/-- A timer fires when it is due, and stays until then. -/
theorem poll_of_mem (ha : a ∈ t.pending) :
    a ∈ t.poll.1.pending ∨ .resume a.fiber ∈ t.poll.2 ∧ a.deadline ≤ t.now := by
  rcases List.mem_append.mp (t.fires_poll.perm.mem_iff.mp ha) with hdue | hstays
  · rw [poll_events]
    exact .inr ⟨List.mem_map.mpr ⟨a, hdue, rfl⟩, (mem_due.mp hdue).2⟩
  · exact .inl hstays

end Timers

namespace Machine

variable {host : HostFunctions} {own own' : Set Handle} {row : List Handle}
  {m m₁ m' : Machine} {r : Handle} {b : Beat} {bs : List Beat} {due : Duration}

/-! ## Wake-ups -/

/-- A timer will wake a fiber at some time, or it has fired since then. -/
inductive Alarm (r : Handle) (due : Duration) (m : Machine) : Prop
  | pending {a : Timer} : a ∈ m.timers.pending → a.fiber = r → a.deadline = due → Alarm r due m
  | fired : .resume r ∈ m.events → due ≤ m.timers.now → Alarm r due m

theorem Alarm.mem_wakeups (h : Alarm r due m) : r ∈ m.wakeups := by
  cases h with
  | pending ha hr _ => exact List.mem_append_left _ (List.mem_map.mpr ⟨_, ha, hr⟩)
  | fired he _ => exact List.mem_append_right _ (List.mem_filterMap.mpr ⟨_, he, rfl⟩)

theorem Alarm.poll (h : Alarm r due m) : Alarm r due (m.fired m.timers.poll) := by
  cases h with
  | @pending a ha hr hd =>
    rcases m.timers.poll_of_mem ha with hstays | ⟨hfires, hnow⟩
    · exact .pending hstays hr hd
    · refine .fired (List.mem_append_right _ (hr ▸ hfires)) ?_
      simp only [Machine.fired, Timers.poll_now]
      exact hd ▸ hnow
  | fired he hnow =>
    refine .fired (List.mem_append_left _ he) ?_
    simp only [Machine.fired, Timers.poll_now]
    exact hnow

theorem Alarm.wait (h : Alarm r due m) (he : m.events = []) :
    Alarm r due (m.fired m.timers.wait) := by
  have hwoken : Alarm r due { m with timers := m.timers.woken } := by
    cases h with
    | pending ha hr hd => exact .pending (m.timers.woken_pending ▸ ha) hr hd
    | fired hmem _ =>
      rw [he] at hmem
      cases hmem
  rw [Timers.wait_eq]
  exact hwoken.poll

/-- What is done besides does not stop a wake-up. -/
theorem Alarm.mono (h : Alarm r due m) (hpending : m.timers.pending ⊆ m'.timers.pending)
    (hevents : .resume r ∈ m.events → .resume r ∈ m'.events ∧ m.timers.now ≤ m'.timers.now) :
    Alarm r due m' := by
  cases h with
  | pending ha hr hd => exact .pending (hpending ha) hr hd
  | fired he hnow =>
    obtain ⟨he', hlater⟩ := hevents he
    exact .fired he' (hnow.trans hlater)

/-- What goes on outside does not stop a wake-up. Time passes, and a timer keeps its deadline. -/
theorem Alarm.outside (h : Alarm r due m) (ho : Outside m m') : Alarm r due m' := by
  cases ho with
  | clock d => exact h.mono (List.Subset.refl _) fun he => ⟨he, Nat.le_add_right _ _⟩
  | host => exact h.mono (List.Subset.refl _) fun he => ⟨he, Nat.le_refl _⟩

/-- An event that is taken, of another fiber or of none, does not stop a wake-up. -/
theorem Alarm.take {event : Event} {rest : List Event} (h : Alarm r due m)
    (he : m.events = event :: rest) (hne : event ≠ .resume r) (ht : m'.timers = m.timers)
    (he' : m'.events = rest) : Alarm r due m' := by
  refine h.mono (ht ▸ List.Subset.refl _) fun hmem => ⟨?_, ht ▸ Nat.le_refl _⟩
  rw [he, List.mem_cons] at hmem
  exact he' ▸ hmem.resolve_left hne.symm

/-- A fiber of a run sleeps until some time. -/
structure Asleep (own : Set Handle) (r : Handle) (due : Duration) (m : Machine) : Prop where
  mem : r ∈ own
  alarm : Alarm r due m

theorem Asleep.suspended (ha : Asleep own r due m) (ho : Orderly own m) :
    m.stateOf? r = some .suspended :=
  (ho.suspended_of_mem ha.mem ha.alarm.mem_wakeups).1

theorem Asleep.not_running (ha : Asleep own r due m) (ho : Orderly own m) :
    m.runningId? ≠ some r := by
  intro hid
  obtain ⟨t, ht, rfl⟩ := Option.map_eq_some_iff.mp hid
  have hstate := ha.suspended ho
  rw [stateOf?_eq, ho.scheduled.status?_running ht] at hstate
  cases hstate

/-- If the event is there that wakes a fiber then the timer has fired, and the time is over. -/
theorem Asleep.due_le (ha : Asleep own r due m) (ho : Orderly own m)
    (he : .resume r ∈ m.events) : due ≤ m.timers.now := by
  obtain ⟨hmem, halarm⟩ := ha
  cases halarm with
  | fired _ hnow => exact hnow
  | pending hpending hr _ =>
    -- there would be two wake-ups, a timer and an event
    have hcount := (ho.suspended_of_mem hmem (Alarm.mem_wakeups (.pending hpending hr rfl))).2
    have htimers : 0 < m.timers.fibers.count r :=
      List.count_pos_iff.mpr (List.mem_map.mpr ⟨_, hpending, hr⟩)
    have hevents : 0 < (m.events.filterMap Event.fiber?).count r :=
      List.count_pos_iff.mpr (List.mem_filterMap.mpr ⟨_, he, rfl⟩)
    rw [wakeups, List.count_append] at hcount
    omega

/-! ## One beat -/

/-- A beat leaves a fiber asleep, and its wake-up under way. -/
structure SleepsOn (own : Set Handle) (r : Handle) (due : Duration) (b : Beat) (m m' : Machine) :
    Prop where
  asleep : Asleep (carried own m m') r due m'
  silent : ∀ op, b ≠ .execute r op
  unwoken : b ≠ .wake r

theorem Asleep.of_alarm (ha : Asleep own r due m) (ho : Orderly own m) (hp : Progress own m m')
    (halarm : Alarm r due m') : Asleep (carried own m m') r due m' := by
  refine ⟨⟨?_, .inl ha.mem⟩, halarm⟩
  by_contra hlost
  have hdone := hp.lost r ha.mem hlost
  rw [ha.suspended ho] at hdone
  cases hdone

theorem Asleep.alarm_execute {q : Handle} {op : Opcode} (ha : Asleep own r due m)
    (hh : host.Intrudes) (hn : Nested row m) (hb : Beats host (.execute q op) m m')
    (he : m.events = []) (hfit : m'.room ≤ Heap.slotLimit) : Alarm r due m' := by
  refine ha.alarm.mono ?_ fun hmem => absurd hmem (he ▸ List.not_mem_nil)
  obtain ⟨t, ht, -, h⟩ := hb.executes
  by_cases hop : op = .await
  · subst hop
    obtain ⟨delay, -, hasleep⟩ := hn.fallsAsleep ht h hfit
    rw [hasleep.timers]
    exact List.subset_append_left _ _
  · rw [(hn.stirs_execute hh hop h hfit).pending]
    exact List.Subset.refl _

/-- A fiber sleeps on, or it is woken when the time is over. -/
theorem Asleep.beat (hl : host.LeavesFibers) (hh : host.Intrudes) (ha : Asleep own r due m)
    (ho : Orderly own m) (hb : Beats host b m m') (hfit : m'.room ≤ Heap.slotLimit) :
    SleepsOn own r due b m m' ∨
      b = .wake r ∧ due ≤ m.timers.now ∧ m'.runningId? = some r := by
  obtain ⟨row, hn⟩ := ho.nested
  have hp := ho.beat hl hb hfit
  have hon : Alarm r due m' → (∀ op, b ≠ .execute r op) → b ≠ .wake r →
      SleepsOn own r due b m m' := fun halarm hsilent hunwoken =>
    ⟨ha.of_alarm ho hp halarm, hsilent, hunwoken⟩
  cases hb with
  | outside h => exact .inl (hon (ha.alarm.outside h) (by simp) (by simp))
  | poll => exact .inl (hon ha.alarm.poll (by simp) (by simp))
  | wait _ he _ => exact .inl (hon (ha.alarm.wait he) (by simp) (by simp))
  | @wake _ _ q rest he hq h =>
    by_cases hqr : q = r
    · subst hqr
      have hn₁ : Nested row (m.withEvents rest) := hn.of_eq rfl rfl
      obtain ⟨row', hresumed⟩ := hn₁.resumed h
      exact .inr ⟨rfl, ha.due_le ho (he ▸ List.mem_cons_self), hresumed.runs hq⟩
    · obtain ⟨_, hm', hw, hevents⟩ := ho.handle he
      cases hm'.symm.trans h
      exact .inl (hon (ha.alarm.take he (by simp [hqr]) hw.timers hevents) (by simp) (by simp [hqr]))
  | @pass _ q rest he hq =>
    -- the event of a fiber that sleeps does not pass
    have hqr : q ≠ r := by
      rintro rfl
      exact hq ⟨_, .inl rfl, ha.suspended ho⟩
    exact .inl (hon (ha.alarm.take he (by simp [hqr]) rfl rfl) (by simp) (by simp))
  | start hrun he hready hst h =>
    obtain ⟨-, _, hm', hw, -, hevents⟩ := ho.resume_first hready
    cases hm'.symm.trans h
    have halarm := ha.alarm.mono (hw.timers ▸ List.Subset.refl _) fun hmem =>
      ⟨hevents ▸ hmem, hw.timers ▸ Nat.le_refl _⟩
    exact .inl (hon halarm (by simp) (by simp))
  | asked he => exact .inl (hon (ha.alarm.take he (by simp) rfl rfl) (by simp) (by simp))
  | due =>
    exact .inl (hon (ha.alarm.mono (List.Subset.refl _) fun hmem => ⟨hmem, Nat.le_refl _⟩)
      (by simp) (by simp))
  | @execute _ _ q f op he hid hf hop h =>
    have hqr : q ≠ r := fun hqr => ha.not_running ho (hqr ▸ hid)
    have halarm := ha.alarm_execute hh hn (.execute he hid hf hop h) he hfit
    exact .inl (hon halarm (by simp [hqr]) (by simp))

theorem Orderly.suspended_of_wake (ho : Orderly own m) (hb : Beats host (.wake r) m m') :
    m.stateOf? r = some .suspended := by
  cases hb with
  | wake he hr _ =>
    have hmem : .resume r ∈ m.events := he ▸ List.mem_cons_self
    rcases ho.events r hmem with hown | ⟨-, hnone⟩
    · exact (ho.suspended_of_mem hown (Alarm.fired hmem (Nat.zero_le _)).mem_wakeups).1
    · obtain ⟨s, -, hstate⟩ := hr
      have hfiber : ¬ m.IsFiber r := by simp [IsFiber, hnone]
      rw [stateOf?_of_not_isFiber (fun t ht => ho.isFiber (ho.scheduled.running t ht).1) hfiber]
        at hstate
      cases hstate

/-! ## Traces -/

/-- A fiber that does not sleep does not fall asleep, and is not woken, before it awaits. -/
theorem Trace.unwoken (hl : host.LeavesFibers) (hh : host.Intrudes)
    (ht : Trace host own m bs own' m') (ho : Orderly own m) (hr : m.stateOf? r ≠ some .suspended)
    (hfit : m'.room ≤ Heap.slotLimit) (hbs : .execute r .await ∉ bs) : .wake r ∉ bs := by
  induction ht with
  | nil => exact List.not_mem_nil
  | @cons own own' m m₁ m' b bs hb ht ih =>
    rw [List.mem_cons, not_or] at hbs ⊢
    have hfit₁ := (ht.room_le hl).trans hfit
    obtain ⟨row, hn⟩ := ho.nested
    refine ⟨?_, ih (ho.beat hl hb hfit₁).orderly ?_ hfit hbs.2⟩
    · rintro rfl
      exact hr (ho.suspended_of_wake hb)
    · intro hsuspended
      rcases hb.queued hh hn hfit₁ (.inl rfl) hsuspended with hold | ⟨hready, -⟩ | ⟨-, rfl⟩
      · exact hr hold
      · cases hready
      · exact hbs.1 rfl

/-- What becomes of a fiber that sleeps until some time: it sleeps on, or it is woken once, and
executes nothing before that. -/
inductive Naps (host : HostFunctions) (own : Set Handle) (r : Handle) (due : Duration)
    (m : Machine) (bs : List Beat) (own' : Set Handle) (m' : Machine) : Prop
  | asleep : m'.stateOf? r = some .suspended → Alarm r due m' → (∀ op, .execute r op ∉ bs) →
      .wake r ∉ bs → Naps host own r due m bs own' m'
  | woken {before behind : List Beat} {own₁ : Set Handle} {m₁ m₂ : Machine} :
      bs = before ++ .wake r :: behind → Trace host own m before own₁ m₁ →
      Beats host (.wake r) m₁ m₂ → Trace host (carried own₁ m₁ m₂) m₂ behind own' m' →
      due ≤ m₁.timers.now → m₂.runningId? = some r → (∀ op, .execute r op ∉ before) →
      .wake r ∉ before → .wake r ∉ behind → Naps host own r due m bs own' m'

theorem Naps.cons (h : Naps host (carried own m m₁) r due m₁ bs own' m') (hb : Beats host b m m₁)
    (hsilent : ∀ op, b ≠ .execute r op) (hunwoken : b ≠ .wake r) :
    Naps host own r due m (b :: bs) own' m' := by
  cases h with
  | asleep hstate halarm hquiet hasleep =>
    refine .asleep hstate halarm (fun op => ?_) ?_
    · exact List.not_mem_cons_of_ne_of_not_mem (hsilent op).symm (hquiet op)
    · exact List.not_mem_cons_of_ne_of_not_mem hunwoken.symm hasleep
  | woken hbs hbefore hwake hbehind hdue hruns hquiet hasleep honce =>
    refine .woken (hbs ▸ rfl) (.cons hb hbefore) hwake hbehind hdue hruns (fun op => ?_) ?_ honce
    · exact List.not_mem_cons_of_ne_of_not_mem (hsilent op).symm (hquiet op)
    · exact List.not_mem_cons_of_ne_of_not_mem hunwoken.symm hasleep

theorem Naps.count_le (h : Naps host own r due m bs own' m') : bs.count (.wake r) ≤ 1 := by
  cases h with
  | asleep _ _ _ hasleep =>
    rw [List.count_eq_zero_of_not_mem hasleep]
    exact Nat.zero_le 1
  | woken hbs _ _ _ _ _ _ hbefore hbehind =>
    rw [hbs, List.count_append, List.count_cons_self, List.count_eq_zero_of_not_mem hbefore,
      List.count_eq_zero_of_not_mem hbehind]

theorem Naps.count_eq (h : Naps host own r due m bs own' m')
    (hr : m'.stateOf? r = some .suspended → r ∉ m'.wakeups) : bs.count (.wake r) = 1 := by
  cases h with
  | asleep hstate halarm _ _ => exact absurd halarm.mem_wakeups (hr hstate)
  | woken hbs _ _ _ _ _ _ hbefore hbehind =>
    rw [hbs, List.count_append, List.count_cons_self, List.count_eq_zero_of_not_mem hbefore,
      List.count_eq_zero_of_not_mem hbehind]

theorem Asleep.naps (hl : host.LeavesFibers) (hh : host.Intrudes)
    (ht : Trace host own m bs own' m') (ha : Asleep own r due m) (ho : Orderly own m)
    (hfit : m'.room ≤ Heap.slotLimit) (hbs : .execute r .await ∉ bs) :
    Naps host own r due m bs own' m' := by
  induction ht with
  | nil => exact .asleep (ha.suspended ho) ha.alarm (fun _ => List.not_mem_nil) List.not_mem_nil
  | @cons own own' m m₁ m' b bs hb ht ih =>
    rw [List.mem_cons, not_or] at hbs
    have hfit₁ := (ht.room_le hl).trans hfit
    have ho₁ := (ho.beat hl hb hfit₁).orderly
    rcases ha.beat hl hh ho hb hfit₁ with hon | ⟨rfl, hdue, hruns⟩
    · exact (ih hon.asleep ho₁ hfit hbs.2).cons hb hon.silent hon.unwoken
    · refine .woken rfl .nil hb ht hdue hruns (fun _ => List.not_mem_nil) List.not_mem_nil ?_
      exact ht.unwoken hl hh ho₁ (by simp [ho₁.stateOf?_runningId hruns]) hfit hbs.2

/-! ## What is guaranteed -/

/-- An await of a program, and what follows until the fiber awaits again. -/
structure AwaitOf (host : HostFunctions) (own : Set Handle) (m : Machine) (r : Handle)
    (delay : Duration) (m₁ : Machine) (bs : List Beat) (own' : Set Handle) (m' : Machine) :
    Prop where
  course : Course host own m
  await : Beats host (.execute r .await) m m₁
  delay : m.delay? = some delay
  trace : Trace host (carried own m m₁) m₁ bs own' m'
  last : .execute r .await ∉ bs
  room_le : m'.room ≤ Heap.slotLimit

theorem AwaitOf.naps {delay : Duration} (hl : host.LeavesFibers) (hh : host.Intrudes)
    (ha : AwaitOf host own m r delay m₁ bs own' m') :
    Naps host (carried own m m₁) r (m.timers.now.addSaturating delay) m₁ bs own' m' := by
  obtain ⟨hc, hb, hdelay, ht, hbs, hfit⟩ := ha
  have hfit₁ := (ht.room_le hl).trans hfit
  have ho := hc.orderly hl ((hb.room_le hl).trans hfit₁)
  have hp := ho.beat hl hb hfit₁
  obtain ⟨row, hn⟩ := ho.nested
  obtain ⟨t, hrun, rfl, h⟩ := hb.executes
  obtain ⟨d, hd, hasleep⟩ := hn.fallsAsleep hrun h hfit₁
  cases hdelay.symm.trans hd
  have hown : t.id ∈ own := (ho.scheduled.running t hrun).1
  have halarm : Alarm t.id (m.timers.now.addSaturating delay) m₁ := by
    refine @Alarm.pending _ _ _ ⟨_, m.timers.nextSequence, t.id⟩ ?_ rfl rfl
    rw [hasleep.timers]
    exact List.mem_append_right _ (List.mem_singleton_self _)
  have hmem : t.id ∈ carried own m m₁ := by
    refine ⟨?_, .inl hown⟩
    by_contra hlost
    have hdone := hp.lost _ hown hlost
    rw [ho.stateOf?_runningId (runningId?_some hrun)] at hdone
    cases hdone
  exact Asleep.naps hl hh ht ⟨hmem, halarm⟩ hp.orderly hfit hbs

/-- The beats up to the next await of a fiber, or all of them. -/
theorem exists_until_await (r : Handle) (behind : List Beat) : ∃ bs rest, behind = bs ++ rest ∧
    .execute r .await ∉ bs ∧ (rest = [] ∨ ∃ rest', rest = .execute r .await :: rest') := by
  induction behind with
  | nil => exact ⟨[], [], rfl, List.not_mem_nil, .inl rfl⟩
  | cons b behind ih =>
    by_cases hb : b = .execute r .await
    · exact ⟨[], b :: behind, rfl, List.not_mem_nil, .inr ⟨behind, hb ▸ rfl⟩⟩
    · obtain ⟨bs, rest, rfl, hbs, hrest⟩ := ih
      exact ⟨b :: bs, rest, rfl, List.not_mem_cons_of_ne_of_not_mem (Ne.symm hb) hbs, hrest⟩

/-- What holds of every await of every program in which a host posts no events that resume
fibers, as long as the slots of the heap can be told apart. To run a program is one way in which
it concludes, and programs are traces of beats, between which time passes. An await has a time.
Until the fiber awaits again it is woken at most once; that is not before the time is over, and
the fiber executes nothing before it is woken. In a program that comes to its end every await
has woken its fiber exactly once before the next one, or before the end. -/
structure AwaitGuarantees (host : HostFunctions) : Prop where
  interpret : ∀ {begun p steps outcome m'}, begun.interpret host steps p = (outcome, m') →
    Concludes host p begun outcome m'
  traced : ∀ {begun p outcome m'}, Session host begun → Concludes host p begun outcome m' →
    m'.room ≤ Heap.slotLimit → Traced host p begun outcome m'
  delay : ∀ {own m r m₁}, Course host own m → Beats host (.execute r .await) m m₁ →
    m₁.room ≤ Heap.slotLimit → ∃ delay, m.delay? = some delay
  naps : ∀ {own m r delay m₁ bs own' m'}, AwaitOf host own m r delay m₁ bs own' m' →
    Naps host (carried own m m₁) r (m.timers.now.addSaturating delay) m₁ bs own' m'
  atMostOnce : ∀ {own m r delay m₁ bs own' m'}, AwaitOf host own m r delay m₁ bs own' m' →
    bs.count (.wake r) ≤ 1
  once : ∀ {own m before r behind own' m'}, Course host own m →
    Trace host own m (before ++ .execute r .await :: behind) own' m' → Resting m' →
    m'.room ≤ Heap.slotLimit → ∃ bs rest, behind = bs ++ rest ∧ .execute r .await ∉ bs ∧
      (rest = [] ∨ ∃ rest', rest = .execute r .await :: rest') ∧ bs.count (.wake r) = 1

theorem awaitGuarantees (hl : host.LeavesFibers) (hh : host.Intrudes) : AwaitGuarantees host := by
  have hdelay : ∀ {own m r m₁}, Course host own m → Beats host (.execute r .await) m m₁ →
      m₁.room ≤ Heap.slotLimit → ∃ delay, m.delay? = some delay := by
    intro own m r m₁ hc hb hfit
    have ho := hc.orderly hl ((hb.room_le hl).trans hfit)
    obtain ⟨row, hn⟩ := ho.nested
    obtain ⟨t, hrun, -, h⟩ := hb.executes
    obtain ⟨delay, hdelay, -⟩ := hn.fallsAsleep hrun h hfit
    exact ⟨delay, hdelay⟩
  refine ⟨concludes_of_interpret, fun hbegun h hfit => hbegun.traced hl h hfit, hdelay, fun ha => ha.naps hl hh,
    fun ha => (ha.naps hl hh).count_le, ?_⟩
  intro own m before r behind own' m' hc ht hrest hfit
  obtain ⟨bs, rest, rfl, hbs, hnext⟩ := exists_until_await r behind
  obtain ⟨own₁, m₁, hbefore, ht⟩ := ht.split
  cases ht with
  | @cons _ _ _ m₂ _ _ _ hb hbehind =>
    obtain ⟨own₃, m₃, hslept, hafter⟩ := hbehind.split
    have hfit₃ := (hafter.room_le hl).trans hfit
    have hc₁ := hc.append hbefore
    obtain ⟨delay, hd⟩ := hdelay hc₁ hb ((hslept.room_le hl).trans hfit₃)
    have ha : AwaitOf host own₁ m₁ r delay m₂ bs own₃ m₃ := ⟨hc₁, hb, hd, hslept, hbs, hfit₃⟩
    refine ⟨bs, rest, rfl, hbs, hnext, (ha.naps hl hh).count_eq fun hstate => ?_⟩
    rcases hnext with rfl | ⟨rest', rfl⟩
    · cases hafter
      simp [wakeups, Timers.fibers, hrest.timers, hrest.events]
    · cases hafter with
      | cons hagain _ =>
        obtain ⟨t, hrun, rfl, -⟩ := hagain.executes
        have ho₃ := (hc₁.append (.cons hb hslept)).orderly hl hfit₃
        simp [ho₃.stateOf?_runningId (runningId?_some hrun)] at hstate

/-- The machine in which the nap of a program begins. -/
def napping₀ : Machine := ((new {}).interpret Probe.host 4 napper).2

def napping₁ : Machine := after (instruction Probe.host) napping₀

def napping₂ : Machine := napping₁.fired napping₁.timers.wait

def napping₃ : Machine := after (resume (runner napping₀)) (napping₂.withEvents [])

/-- The machine waits for the end of the nap, and the fiber is woken. -/
theorem awaitGuarantees_probe : AwaitGuarantees Probe.host ∧ ∃ own r own',
    AwaitOf Probe.host own napping₀ r 1000000 napping₁ [.wait, .wake r] own' napping₃ := by
  refine ⟨awaitGuarantees leavesFibers_probe intrudes_probe, ?_⟩
  obtain ⟨own, hcourse⟩ := Session.course leavesFibers_probe (.new {}) 4 napper
    (by decide +kernel) (by decide +kernel)
  have hawait : Beats Probe.host (.execute (runner napping₀) .await) napping₀ napping₁ :=
    beats_execute (by decide +kernel) (by decide +kernel) (by decide +kernel)
      (eq_ok_of_yields (by decide +kernel))
  have hresume : resume (runner napping₀) (napping₂.withEvents []) = .ok () napping₃ :=
    eq_ok_of_yields (by decide +kernel)
  have hrun : napping₁.running = none := Option.isNone_iff_eq_none.mp (by decide +kernel)
  have hsuspended : napping₂.stateOf? (runner napping₀) = some .suspended := by decide +kernel
  have hwait : Beats Probe.host .wait napping₁ napping₂ :=
    .wait hrun (by decide +kernel) (by decide +kernel)
  have hwake : Beats Probe.host (.wake (runner napping₀)) napping₂ napping₃ :=
    .wake (by decide +kernel) ⟨.suspended, .inl rfl, hsuspended⟩ hresume
  exact ⟨own, _, _, hcourse, hawait, by decide +kernel,
    .cons hwait (.cons hwake .nil), by decide, by decide +kernel⟩

end Machine

end FiberMachine
