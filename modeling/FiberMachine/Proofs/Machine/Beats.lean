import FiberMachine.Proofs.Machine.Queues

/-!
# Runs, beat by beat

A safe point is a row of beats: timers fire, an event wakes a fiber or passes, a fiber starts,
garbage is collected. An instruction is one beat. A program is a trace of beats, and what one
beat keeps is kept by the trace.
-/

namespace FiberMachine

open Relation (ReflTransGen)

/-- What a machine does at once. An event wakes its fiber, or it passes. Something may go on
outside. -/
inductive Beat where
  | outside
  | poll
  | wait
  | wake (r : Handle)
  | pass
  | start (r : Handle)
  | collect
  | execute (r : Handle) (op : Opcode)
deriving DecidableEq

theorem Beat.quiet_or (b : Beat) :
    (∀ r op, b ≠ .execute r op) ∨ ∃ r op, b = .execute r op := by
  cases b <;> simp

namespace Machine

variable {host : HostFunctions} {own own₁ own' : Set Handle} {row : List Handle}
  {m m₁ m' : Machine} {r : Handle} {b : Beat} {bs bs' : List Beat}

/-- Whether a fiber runs when it is resumed. -/
def Resumable (m : Machine) (r : Handle) : Prop := ∃ s : FiberState, s.Queued ∧ m.stateOf? r = some s

theorem resume_of_not_resumable (h : ¬ m.Resumable r) : resume r m = .ok () m :=
  resume_ignored (fun hs => h ⟨_, .inr rfl, hs⟩) fun hs => h ⟨_, .inl rfl, hs⟩

theorem Resumed.runs {row' : List Handle} (h : Resumed r row m row' m') (hr : m.Resumable r) :
    m'.runningId? = some r := by
  cases h with
  | called _ _ _ hid _ => exact hid
  | ignored hready hsuspended =>
    obtain ⟨s, rfl | rfl, hstate⟩ := hr
    · exact absurd hstate hsuspended
    · exact absurd hstate hready

/-- One beat of a machine. It waits and starts fibers only while none runs, and events come
before instructions. -/
inductive Beats (host : HostFunctions) : Beat → Machine → Machine → Prop
  | outside {m m' : Machine} : Outside m m' → Beats host .outside m m'
  | poll {m : Machine} : Beats host .poll m (m.fired m.timers.poll)
  | wait {m : Machine} : m.running = none → m.events = [] → m.ready = [] →
      Beats host .wait m (m.fired m.timers.wait)
  | wake {m m' : Machine} {r : Handle} {rest : List Event} : m.events = .resume r :: rest →
      m.Resumable r → resume r (m.withEvents rest) = .ok () m' → Beats host (.wake r) m m'
  | pass {m : Machine} {r : Handle} {rest : List Event} : m.events = .resume r :: rest →
      ¬ m.Resumable r → Beats host .pass m (m.withEvents rest)
  | start {m m' : Machine} {r : Handle} {rest : List Handle} : m.running = none → m.events = [] →
      m.ready = r :: rest → m.stateOf? r = some .ready →
      resume r { m with ready := rest } = .ok () m' → Beats host (.start r) m m'
  | asked {m : Machine} {rest : List Event} : m.events = .collect :: rest →
      Beats host .collect m (m.withEvents rest).collected
  | due {m : Machine} : m.events = [] → m.running.isSome → m.collectionDue →
      Beats host .collect m m.collected
  | execute {m m' : Machine} {r : Handle} {f : Frame} {op : Opcode} : m.events = [] →
      m.runningId? = some r → m.frame? = some f → f.opcode? = some op →
      instruction host m = .ok () m' → Beats host (.execute r op) m m'

/-- A row of beats, with the fibers of the run before and after it. -/
inductive Trace (host : HostFunctions) :
    Set Handle → Machine → List Beat → Set Handle → Machine → Prop
  | nil {own : Set Handle} {m : Machine} : Trace host own m [] own m
  | cons {own own' : Set Handle} {m m₁ m' : Machine} {b : Beat} {bs : List Beat} :
      Beats host b m m₁ → Trace host (carried own m m₁) m₁ bs own' m' →
      Trace host own m (b :: bs) own' m'

theorem Trace.append (h : Trace host own m bs own₁ m₁) (h' : Trace host own₁ m₁ bs' own' m') :
    Trace host own m (bs ++ bs') own' m' := by
  induction h with
  | nil => exact h'
  | cons hb _ ih => exact .cons hb (ih h')

theorem Trace.concat (h : Trace host own m bs own₁ m₁) (hb : Beats host b m₁ m') :
    Trace host own m (bs ++ [b]) (carried own₁ m₁ m') m' :=
  h.append (.cons hb .nil)

theorem Trace.split (h : Trace host own m (bs ++ bs') own' m') :
    ∃ own₁ m₁, Trace host own m bs own₁ m₁ ∧ Trace host own₁ m₁ bs' own' m' := by
  induction bs generalizing own m with
  | nil => exact ⟨own, m, .nil, h⟩
  | cons b bs ih =>
    cases h with
    | cons hb ht =>
      obtain ⟨own₁, m₁, h₁, h'⟩ := ih ht
      exact ⟨own₁, m₁, .cons hb h₁, h'⟩

/-! ## What a beat keeps -/

variable (host) in
theorem exists_beats_of_handle {event : Event} {rest : List Event} (he : m.events = event :: rest)
    (h : handle event (m.withEvents rest) = .ok () m') : ∃ b, Beats host b m m' := by
  cases event with
  | collect =>
    cases h
    exact ⟨.collect, .asked he⟩
  | resume r =>
    by_cases hr : m.Resumable r
    · exact ⟨.wake r, .wake he hr h⟩
    · have hr' : ¬ (m.withEvents rest).Resumable r := hr
      cases (resume_of_not_resumable hr').symm.trans h
      exact ⟨.pass, .pass he hr⟩

theorem Beats.room_le (hl : host.LeavesFibers) (hb : Beats host b m m') : m.room ≤ m'.room := by
  cases hb with
  | outside h => exact h.aside.tends.room_le
  | poll | wait | pass => exact Nat.le_refl _
  | @wake _ _ r rest _ _ h =>
    have hroom : (m.withEvents rest).room ≤ m'.room := after_ok h ▸ room_le_after (resume r) _
    exact hroom
  | @start _ _ r rest _ _ _ _ h =>
    have hroom : room { m with ready := rest } ≤ m'.room := after_ok h ▸ room_le_after (resume r) _
    exact hroom
  | @asked _ rest _ =>
    have hroom : (m.withEvents rest).room ≤ (m.withEvents rest).collected.room :=
      (tends_collected _).room_le
    exact hroom
  | due => exact (tends_collected m).room_le
  | execute _ _ _ _ h =>
    have := tends_of_leavesFibers hl
    exact after_ok h ▸ room_le_after (instruction host) m

theorem Trace.room_le (hl : host.LeavesFibers) (h : Trace host own m bs own' m') :
    m.room ≤ m'.room := by
  induction h with
  | nil => exact Nat.le_refl _
  | cons hb _ ih => exact (hb.room_le hl).trans ih

/-- A beat keeps the fibers of a run in order, and loses none that is not done. -/
theorem Orderly.beat (hl : host.LeavesFibers) (ho : Orderly own m) (hb : Beats host b m m')
    (hfit : m'.room ≤ Heap.slotLimit) : Progress own m m' := by
  cases hb with
  | outside h => exact (h.aside.settles ho hfit).progress
  | poll => exact (ho.settles_fired m.timers.fibers_poll).progress
  | wait => exact (ho.settles_fired m.timers.fibers_wait).progress
  | wake he _ h =>
    obtain ⟨_, hm', hw, -⟩ := ho.handle he
    cases hm'.symm.trans h
    exact hw.progress
  | pass he hr =>
    obtain ⟨_, hm', hw, -⟩ := ho.handle he
    cases hm'.symm.trans (resume_of_not_resumable hr)
    exact hw.progress
  | start _ _ hready _ h =>
    obtain ⟨-, _, hm', hw, -⟩ := ho.resume_first hready
    cases hm'.symm.trans h
    exact hw.progress
  | asked he =>
    obtain ⟨_, hm', hw, -⟩ := ho.handle he
    cases hm'
    exact hw.progress
  | due => exact ho.settles_collected.progress
  | execute _ _ _ _ h => exact ((turns_instruction hl).leads _ _ _ h).progress own ho hfit

theorem Trace.orderly (hl : host.LeavesFibers) (h : Trace host own m bs own' m')
    (ho : Orderly own m) (hfit : m'.room ≤ Heap.slotLimit) : Orderly own' m' := by
  induction h with
  | nil => exact ho
  | cons hb ht ih => exact ih (ho.beat hl hb ((ht.room_le hl).trans hfit)).orderly hfit

theorem Outside.stateOf?_eq (h : Outside m m') (r : Handle) : m'.stateOf? r = m.stateOf? r := by
  cases h <;> rfl

/-- What goes on outside pushes no fiber. -/
theorem Nested.pushes_outside (hn : Nested row m) (h : Outside m m') : Pushes row m row m' := by
  cases h <;> exact hn.requeue rfl rfl (fun _ => id) fun _ => id

theorem Nested.pushes_beat (hn : Nested row m) (hb : Beats host b m m')
    (hquiet : ∀ r op, b ≠ .execute r op) : ∃ row', Pushes row m row' m' := by
  cases hb with
  | outside h => exact ⟨row, hn.pushes_outside h⟩
  | poll => exact ⟨row, hn.pushes_fired m.timers.fibers_poll⟩
  | wait => exact ⟨row, hn.pushes_fired m.timers.fibers_wait⟩
  | wake he _ h =>
    obtain ⟨_, row', hm', hp, -⟩ := hn.handle he
    cases hm'.symm.trans h
    exact ⟨row', hp⟩
  | pass he hr =>
    obtain ⟨_, row', hm', hp, -⟩ := hn.handle he
    cases hm'.symm.trans (resume_of_not_resumable hr)
    exact ⟨row', hp⟩
  | @start _ _ r rest _ _ hready hst h =>
    have hn₁ : Nested row { m with ready := rest } := hn.of_eq rfl rfl
    obtain ⟨row', hresumed⟩ := hn₁.resumed h
    exact ⟨row', hresumed.pushes hn rfl rfl (fun _ h => .inr h) fun q hq => List.mem_cons.mp (hready ▸ hq)⟩
  | asked he =>
    obtain ⟨_, row', hm', hp, -⟩ := hn.handle he
    cases hm'
    exact ⟨row', hp⟩
  | due => exact ⟨row, hn.collected⟩
  | execute => exact absurd rfl (hquiet _ _)

theorem Nested.beat (hh : host.Intrudes) (hn : Nested row m) (hb : Beats host b m m')
    (hfit : m'.room ≤ Heap.slotLimit) : ∃ row', Shifts row m row' m' := by
  rcases b.quiet_or with hquiet | ⟨r, op, rfl⟩
  · obtain ⟨row', hp⟩ := hn.pushes_beat hb hquiet
    exact ⟨row', hp.shifts⟩
  · cases hb with
    | execute _ _ _ _ h => exact ((shifting_instruction hh).leads _ _ _ h).shifts row hn hfit

/-- What runs and what waits in a run is a stack of fibers. -/
theorem Orderly.nested (ho : Orderly own m) : ∃ row, Nested row m := by
  have hs := ho.scheduled
  obtain ⟨row, hw, hd, -, -⟩ := hs.schedule.chain
  exact ⟨row, ⟨⟨hs.wellFormed, fun t ht => (hs.running t ht).2.2⟩, hw, hd,
    fun t ht => (hs.running t ht).2.1⟩⟩

theorem Orderly.stateOf?_runningId (ho : Orderly own m) (hr : m.runningId? = some r) :
    m.stateOf? r = some .running := by
  obtain ⟨t, ht, rfl⟩ := Option.map_eq_some_iff.mp hr
  rw [stateOf?_eq, ho.scheduled.status?_running ht]
  rfl

theorem beats_execute {op : Opcode} (he : m.events = []) (hid : m.runningId? = some r)
    (hop : m.frame?.bind Frame.opcode? = some op) (h : instruction host m = .ok () m') :
    Beats host (.execute r op) m m' := by
  obtain ⟨f, hf, hop⟩ := Option.bind_eq_some_iff.mp hop
  exact .execute he hid hf hop h

theorem Beats.executes {op : Opcode} (hb : Beats host (.execute r op) m m') :
    ∃ t, m.running = some t ∧ t.id = r ∧ Machine.execute host op (m.skip 1) = .ok () m' := by
  cases hb with
  | execute _ hid hf hop h =>
    obtain ⟨t, ht, hr⟩ := Option.map_eq_some_iff.mp hid
    exact ⟨t, ht, hr, execute_of_instruction hf hop h⟩

/-- A fiber comes into a queue only when it is new, or when it awaits. -/
theorem Beats.queued (hh : host.Intrudes) (hb : Beats host b m m') (hn : Nested row m)
    (hfit : m'.room ≤ Heap.slotLimit) {s : FiberState} (hs : s.Queued)
    (hr : m'.stateOf? r = some s) : m.stateOf? r = some s ∨ s = .ready ∧ ¬ m.IsFiber r ∨
      s = .suspended ∧ b = .execute r .await := by
  cases b with
  | outside =>
    cases hb with
    | outside h => exact .inl ((h.stateOf?_eq r).symm.trans hr)
  | poll | wait | pass =>
    cases hb
    exact .inl hr
  | wake q =>
    cases hb with
    | @wake _ _ _ rest _ _ h =>
      have hn₁ : Nested row (m.withEvents rest) := hn.of_eq rfl rfl
      obtain ⟨row', hresumed⟩ := hn₁.resumed h
      exact .inl (hresumed.queued hs hr)
  | start q =>
    cases hb with
    | @start _ _ _ rest _ _ _ _ h =>
      have hn₁ : Nested row { m with ready := rest } := hn.of_eq rfl rfl
      obtain ⟨row', hresumed⟩ := hn₁.resumed h
      exact .inl (hresumed.queued hs hr)
  | collect =>
    cases hb with
    | @asked _ rest _ =>
      have hn₁ : Nested row (m.withEvents rest) := hn.of_eq rfl rfl
      exact .inl (stateOf?_of_collected hn₁.toHoused hr)
    | due => exact .inl (stateOf?_of_collected hn.toHoused hr)
  | execute q op =>
    obtain ⟨t, ht, rfl, h⟩ := hb.executes
    by_cases hop : op = .await
    · subst hop
      obtain ⟨delay, -, hasleep⟩ := hn.fallsAsleep ht h hfit
      refine (hasleep.queued r s hs hr).imp id fun hslept => .inr ⟨hslept.2, ?_⟩
      rw [hslept.1]
    · exact ((hn.stirs_execute hh hop h hfit).queued r s hs hr).imp id .inl

/-! ## Safe points -/

variable (host) in
theorem Orderly.trace_handleAll (events : List Event) (ho : Orderly own m) (he : m.events = events) :
    ∃ bs own' m', Machine.handleAll events m = .ok () m' ∧ Trace host own m bs own' m' ∧ Orderly own' m' ∧
      m'.events = [] := by
  induction events generalizing own m with
  | nil => exact ⟨[], own, m, rfl, .nil, ho, he⟩
  | cons event rest ih =>
    obtain ⟨m₁, hm₁, hw, he₁⟩ := ho.handle he
    obtain ⟨b, hb⟩ := exists_beats_of_handle host he hm₁
    obtain ⟨bs, own', m', hm', ht, ho', he'⟩ := ih hw.orderly he₁
    refine ⟨b :: bs, own', m', ?_, .cons hb ht, ho', he'⟩
    have hevent : Machine.handle event { m with events := rest } = .ok () m₁ := hm₁
    simp only [Machine.handleAll, bind_apply, modify_apply, hevent, hm']

variable (host) in
/-- The search for a fiber is a row of beats. -/
theorem Orderly.trace_findFiber (again : Nat) (ho : Orderly own m) {found : Bool}
    (h : Machine.findFiber again m = .ok found m') :
    ∃ bs own', Trace host own m bs own' m' ∧ Orderly own' m' ∧ m'.events = [] := by
  induction again generalizing own m with
  | zero => cases h
  | succ again ih =>
    have hs₀ := ho.settles_fired m.timers.fibers_poll
    obtain ⟨bs₁, own₁, m₁, hm₁, ht, ho₁, he₁⟩ :=
      hs₀.orderly.trace_handleAll host _ rfl
    have ht₁ : Trace host own m (.poll :: bs₁) own₁ m₁ := .cons .poll ht
    -- the first fiber in line starts, or the machine waits for a timer, and the search goes on
    cases seeks_of_findFiber hm₁ h with
    | running hsome => exact ⟨_, own₁, ht₁, ho₁, he₁⟩
    | starts m₂ hrun hstart hfind =>
      obtain ⟨r, rest, hready, hst, hm₂, hw⟩ := ho₁.of_startReady hstart
      obtain ⟨bs', own', ht', hends⟩ := ih hw.orderly hfind
      exact ⟨_, own', ht₁.append (.cons (.start hrun he₁ hready hst hm₂) ht'), hends⟩
    | waits m₂ hrun hstart hpos hfind =>
      obtain ⟨hready, rfl⟩ := ho₁.of_startReady_false hstart
      obtain ⟨bs', own', ht', hends⟩ := ih (ho₁.settles_fired (Timers.fibers_wait _)).orderly hfind
      exact ⟨_, own', ht₁.append (.cons (.wait hrun he₁ hready) ht'), hends⟩
    | rests m₂ hrun hstart =>
      obtain ⟨-, rfl⟩ := ho₁.of_startReady_false hstart
      exact ⟨_, own₁, ht₁, ho₁, he₁⟩

variable (host) in
/-- A safe point is a row of beats. It ends with a fiber that runs, or nothing is left to do. -/
theorem Orderly.trace_safePoint (ho : Orderly own m) {found : Bool}
    (h : Machine.safePoint m = .ok found m') : ∃ bs own', Trace host own m bs own' m' ∧
      Orderly own' m' ∧ m'.events = [] ∧ (found = true → m'.running.isSome) ∧
      (found = false → Resting m') := by
  obtain ⟨row, hn⟩ := ho.nested
  obtain ⟨-, -, hsome, hrest⟩ := hn.safePoint h
  obtain ⟨_, _, hm, h⟩ := bind_eq_ok h
  cases hm
  obtain ⟨found₁, m₁, hfind, h⟩ := bind_eq_ok h
  obtain ⟨bs, own₁, ht, ho₁, he₁⟩ := ho.trace_findFiber host _ hfind
  cases found₁ with
  | false =>
    cases h
    exact ⟨bs, own₁, ht, ho₁, he₁, hsome, hrest⟩
  | true =>
    simp only [↓reduceIte, collectIfDue, bind_apply, get_apply, pure_apply] at h
    by_cases hdue : m₁.collectionDue
    · simp only [hdue, ↓reduceIte] at h
      cases h
      have hb : Beats host .collect m₁ m₁.collected := .due he₁ (hsome rfl) hdue
      exact ⟨_, _, ht.concat hb, ho₁.settles_collected.orderly, he₁, hsome, hrest⟩
    · simp only [hdue, Bool.false_eq_true, ↓reduceIte, pure_apply] at h
      cases h
      exact ⟨bs, own₁, ht, ho₁, he₁, hsome, hrest⟩

/-! ## Programs -/

/-- What goes on outside is a row of beats, and leaves the fibers and the events alone. -/
theorem Orderly.trace_outside (hl : host.LeavesFibers) (ho : Orderly own m)
    (h : ReflTransGen Outside m m') (hfit : m'.room ≤ Heap.slotLimit) :
    ∃ bs own', Trace host own m bs own' m' ∧ Orderly own' m' ∧ m'.events = m.events ∧
      m'.running = m.running := by
  induction h with
  | refl => exact ⟨[], own, .nil, ho, rfl, rfl⟩
  | @tail m₁ m' _ h ih =>
    have hb : Beats host .outside m₁ m' := .outside h
    obtain ⟨bs, own₁, ht, ho₁, he, hr⟩ := ih ((hb.room_le hl).trans hfit)
    refine ⟨_, _, ht.concat hb, (ho₁.beat hl hb hfit).orderly, ?_, ?_⟩
    · exact Eq.trans (by cases h <;> rfl) he
    · exact Eq.trans (by cases h <;> rfl) hr

/-- The part of a step that comes before its instruction is a row of beats. -/
theorem Orderly.trace_before (hl : host.LeavesFibers) (ho : Orderly own m)
    (hsafe : Machine.safePoint m = .ok true m₁) (hrow : ReflTransGen Outside m₁ m')
    (hfit : m'.room ≤ Heap.slotLimit) : ∃ bs own', Trace host own m bs own' m' ∧
      Orderly own' m' ∧ m'.events = [] ∧ m'.running.isSome := by
  obtain ⟨bs, own₁, ht, ho₁, he, hsome, -⟩ := ho.trace_safePoint host hsafe
  obtain ⟨bs', own', ht', ho', he', hr⟩ := ho₁.trace_outside hl hrow hfit
  exact ⟨_, own', ht.append ht', ho', he'.trans he, hr ▸ hsome rfl⟩

/-- A program goes on with a row of beats. -/
theorem Orderly.trace_proceeds (hl : host.LeavesFibers) (ho : Orderly own m)
    (h : Proceeds host m m') (hfit : m'.room ≤ Heap.slotLimit) :
    ∃ bs own', Trace host own m bs own' m' ∧ Orderly own' m' := by
  cases h with
  | outside h =>
    have hb : Beats host .outside m m' := .outside h
    exact ⟨[.outside], _, .cons hb .nil, (ho.beat hl hb hfit).orderly⟩
  | safePoint h =>
    obtain ⟨bs, own', ht, ho', -⟩ := ho.trace_safePoint host h
    exact ⟨bs, own', ht, ho'⟩
  | @step m₁ m₂ hsafe hrow hi =>
    have := tends_of_leavesFibers hl
    have hroom : m₂.room ≤ m'.room := after_ok hi ▸ room_le_after (instruction host) m₂
    obtain ⟨bs, own₂, ht, ho₂, he, hsome⟩ := ho.trace_before hl hsafe hrow (hroom.trans hfit)
    obtain ⟨f, op, hf, hop, -⟩ := instruction_eq_ok hi
    obtain ⟨t, hrunning⟩ := Option.isSome_iff_exists.mp hsome
    have hb : Beats host (.execute t.id op) m₂ m' :=
      .execute he (runningId?_some hrunning) hf hop hi
    exact ⟨_, _, ht.concat hb, (ho₂.beat hl hb hfit).orderly⟩

theorem Orderly.trace_row (hl : host.LeavesFibers) (ho : Orderly own m)
    (h : ReflTransGen (Proceeds host) m m') (hfit : m'.room ≤ Heap.slotLimit) :
    ∃ bs own', Trace host own m bs own' m' ∧ Orderly own' m' := by
  have htends := tends_of_leavesFibers hl
  induction h with
  | refl => exact ⟨[], own, .nil, ho⟩
  | @tail m₁ m₂ _ hp ih =>
    obtain ⟨bs, own₁, ht, ho₁⟩ := ih ((room_le_of_proceeds htends (.single hp)).trans hfit)
    obtain ⟨bs', own', ht', ho'⟩ := ho₁.trace_proceeds hl hp hfit
    exact ⟨bs ++ bs', own', ht.append ht', ho'⟩

/-- What becomes of a program: it is a trace, which is over, goes on, or was stopped by an
instruction. -/
inductive Traced (host : HostFunctions) (p : Prototype) (begun : Machine) :
    Outcome → Machine → Prop
  | finished {bs : List Beat} {own : Set Handle} {m m' : Machine} : start p begun = .ok () m →
      Trace host (carried ∅ begun m) m bs own m' → Resting m' → Traced host p begun .finished m'
  | unfinished {bs : List Beat} {own : Set Handle} {m m' : Machine} : start p begun = .ok () m →
      Trace host (carried ∅ begun m) m bs own m' → Traced host p begun .unfinished m'
  | unstarted {e : Fault} {m : Machine} : start p begun = .error e m →
      Traced host p begun (.halted (.faulted e m.backtrace)) m.reset
  | stopped {bs : List Beat} {own : Set Handle} {m m₁ m' : Machine} {e : Fault} :
      start p begun = .ok () m → Trace host (carried ∅ begun m) m bs own m₁ → m₁.events = [] →
      instruction host m₁ = .error e m' →
      Traced host p begun (.halted (.faulted e m'.backtrace)) m'.reset

theorem Session.traced {begun : Machine} (hl : host.LeavesFibers) (hs : Session host begun)
    {p : Prototype} {outcome : Outcome} (h : Concludes host p begun outcome m')
    (hfit : m'.room ≤ Heap.slotLimit) : Traced host p begun outcome m' := by
  have htends := tends_of_leavesFibers hl
  have hbegins : ∀ {m₁ m₂}, Machine.start p begun = .ok () m₁ →
      ReflTransGen (Proceeds host) m₁ m₂ → m₂.room ≤ Heap.slotLimit →
      ∃ bs own, Trace host (carried ∅ begun m₁) m₁ bs own m₂ ∧ Orderly own m₂ := by
    intro m₁ m₂ hstart hrow hfit₂
    have hfit₁ := (room_le_of_proceeds htends hrow).trans hfit₂
    have hroom := after_ok hstart ▸ room_le_after (Machine.start p) begun
    have ho := ((hs.orderly hl (hroom.trans hfit₁)).start hstart hfit₁).orderly
    exact ho.trace_row hl hrow hfit₂
  cases h with
  | unstarted hstart => exact .unstarted hstart
  | unfinished hstart hrow =>
    obtain ⟨bs, own, ht, -⟩ := hbegins hstart hrow hfit
    exact .unfinished hstart ht
  | @finished m₁ m₂ _ hstart hrow hsafe =>
    have hroom : m₂.room ≤ m'.room := after_ok hsafe ▸ room_le_after Machine.safePoint m₂
    obtain ⟨bs, own, ht, ho⟩ := hbegins hstart hrow (hroom.trans hfit)
    obtain ⟨bs', own', ht', -, -, -, hrest⟩ := ho.trace_safePoint host hsafe
    exact .finished hstart (ht.append ht') (hrest rfl)
  | @stopped e m₁ m₂ m₃ hstart hrow hstops =>
    obtain ⟨bs, own, ht, ho⟩ := hbegins hstart hrow ((hstops.room_le htends).trans hfit)
    cases hstops with
    | safePoint hfails =>
      -- a safe point of a run ends without a fault
      obtain ⟨found, m₄, hsafe, -⟩ := ho.safePoint
      cases hsafe.symm.trans hfails
    | @instruction m₄ m₅ hsafe hafter hi =>
      have hroom : m₅.room ≤ m₃.room := after_error hi ▸ room_le_after (instruction host) m₅
      obtain ⟨bs', own', ht', -, he, -⟩ := ho.trace_before hl hsafe hafter (hroom.trans hfit)
      exact .stopped hstart (ht.append ht') he hi

/-- A machine in a program of a session, and the fibers of the program so far. -/
inductive Course (host : HostFunctions) (own : Set Handle) (m : Machine) : Prop
  | mk {begun m₀ : Machine} {p : Prototype} {bs : List Beat} : Session host begun →
      start p begun = .ok () m₀ → Trace host (carried ∅ begun m₀) m₀ bs own m → Course host own m

theorem Session.course {begun : Machine} (hl : host.LeavesFibers) (hs : Session host begun)
    (steps : Nat) (p : Prototype) (h : (begun.interpret host steps p).1 = .unfinished)
    (hfit : (begun.interpret host steps p).2.room ≤ Heap.slotLimit) :
    ∃ own, Course host own (begun.interpret host steps p).2 := by
  cases hs.traced hl (concludes_of_interpret (interpret_eq h)) hfit with
  | unfinished hstart htrace => exact ⟨_, .mk hs hstart htrace⟩

theorem Course.orderly (hl : host.LeavesFibers) (hc : Course host own m)
    (hfit : m.room ≤ Heap.slotLimit) : Orderly own m := by
  obtain ⟨hsession, hs, ht⟩ := hc
  have hfit₀ := (ht.room_le hl).trans hfit
  have hroom := after_ok hs ▸ room_le_after (start _) _
  exact ht.orderly hl ((hsession.orderly hl (hroom.trans hfit₀)).start hs hfit₀).orderly hfit

theorem Course.append (hc : Course host own m) (ht : Trace host own m bs own' m') :
    Course host own' m' := by
  obtain ⟨hsession, hs, hbefore⟩ := hc
  exact ⟨hsession, hs, hbefore.append ht⟩

end Machine

end FiberMachine
