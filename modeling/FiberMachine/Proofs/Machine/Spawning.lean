import FiberMachine.Proofs.Machine.Beats
import FiberMachine.Proofs.Machine.Entries

/-!
# In which order async functions start

A call of an async function puts a new fiber at the end of the line. A fiber starts at the head
of the line, when no fiber runs and none waits, so it lies at the bottom of the stack until it
executes. Before that no fiber behind it can start, whichever fibers run on top of it.
-/

namespace FiberMachine

namespace Machine

variable {host : HostFunctions} {own own₁ own' : Set Handle} {row : List Handle}
  {m m₁ m₂ m' : Machine} {r q : Handle} {later : List Handle} {b b' : Beat} {bs bs' : List Beat}
  {n : Nat}

/-! ## Fibers that execute nothing -/

theorem Beats.rests (hb : Beats host b m m') (hquiet : ∀ r op, b ≠ .execute r op) :
    Rests m m' := by
  cases hb with
  | outside h => cases h <;> exact .of_eq rfl rfl
  | poll | wait | pass => exact .of_eq rfl rfl
  | @wake _ _ r rest _ _ h =>
    have hdrop : Rests m (m.withEvents rest) := .of_eq rfl rfl
    exact hdrop.trans (after_ok h ▸ rests_after (resume r) _)
  | @start _ _ r rest _ _ _ _ h =>
    have hdrop : Rests m { m with ready := rest } := .of_eq rfl rfl
    exact hdrop.trans (after_ok h ▸ rests_after (resume r) _)
  | @asked _ rest _ =>
    have hdrop : Rests m (m.withEvents rest) := .of_eq rfl rfl
    exact hdrop.trans (rests_collected _)
  | due => exact rests_collected m
  | execute => exact absurd rfl (hquiet _ _)

/-- A fiber keeps its work and its place in the stack in a beat in which it does not execute. -/
theorem Beats.away (hh : host.Intrudes) (hb : Beats host b m m') (hn : Nested row m)
    (ht : Tended row m r) (hsilent : ∀ op, b ≠ .execute r op) (hfit : m'.room ≤ Heap.slotLimit) :
    ∃ row', Away r row m row' m' := by
  rcases b.quiet_or with hquiet | ⟨q, op, rfl⟩
  · obtain ⟨row', hp⟩ := hn.pushes_beat hb hquiet
    exact ⟨row', hp.away hn ht (hb.rests hquiet) hfit⟩
  · cases hb with
    | execute _ hid _ _ h =>
      have hstep : Steps host m m' := .instruction h
      obtain ⟨row', hs⟩ := hn.step hh hstep hfit
      refine ⟨row', hs.away hn ht (fun hr => ?_) (hstep.idle hh) hfit⟩
      rw [Option.some.inj (hr.symm.trans hid)] at hsilent
      exact hsilent op rfl

theorem Trace.away (hl : host.LeavesFibers) (hh : host.Intrudes)
    (h : Trace host own m bs own' m') (hn : Nested row m) (ht : Tended row m r)
    (hsilent : ∀ op, .execute r op ∉ bs) (hfit : m'.room ≤ Heap.slotLimit) :
    ∃ row', Away r row m row' m' := by
  induction h generalizing row with
  | nil => exact ⟨row, hn, ht, rfl, fun above _ hline => ⟨above, hline⟩⟩
  | cons hb htrace ih =>
    simp only [List.mem_cons, not_or] at hsilent
    obtain ⟨row₁, h₁⟩ := hb.away hh hn ht (fun op => Ne.symm (hsilent op).1)
      ((htrace.room_le hl).trans hfit)
    obtain ⟨row', h'⟩ := ih h₁.nested h₁.tended (fun op => (hsilent op).2) hfit
    exact ⟨row', h₁.trans h'⟩

/-! ## The line -/

theorem Orderly.mem_ready_iff (ho : Orderly own m) :
    r ∈ m.ready ↔ r ∈ own ∧ m.stateOf? r = some .ready := by
  constructor
  · intro hr
    have hcount := ho.inOrder.ready r (ho.ready r hr)
    have hpos := List.count_pos_iff.mpr hr
    refine ⟨ho.ready r hr, ?_⟩
    by_contra hs
    rw [if_neg hs] at hcount
    omega
  · rintro ⟨hr, hs⟩
    have hcount := ho.inOrder.ready r hr
    rw [if_pos hs] at hcount
    exact List.count_pos_iff.mp (hcount ▸ Nat.one_pos)

/-- When a fiber runs and none waits the others are suspended, done or in line. -/
theorem Orderly.others (ho : Orderly own m) (hn : Nested [] m) (hid : m.runningId? = some r)
    (hq : q ∈ own) (hne : q ≠ r) : m.stateOf? q = some .suspended ∨
      m.stateOf? q = some .done ∨ m.stateOf? q = some .ready := by
  obtain ⟨⟨state, caller⟩, hs, hrunning⟩ := ho.scheduled.exists_status hq
  have hstate : m.stateOf? q = some state := by rw [stateOf?_eq, hs, Option.map_some]
  cases state with
  | suspended => exact .inl hstate
  | done => exact .inr (.inl hstate)
  | ready => exact .inr (.inr hstate)
  | running =>
    obtain ⟨t, ht, rfl⟩ := hrunning rfl
    exact absurd (Option.some.inj ((runningId?_some ht).symm.trans hid)) hne
  | waiting =>
    obtain ⟨row, hw, -, hmem⟩ := ho.inOrder.waiting
    have hrow : row = [] := hn.waits.unique hw
    have hin := (hmem q).mpr ⟨hq, hstate⟩
    rw [hrow] at hin
    cases hin

/-- At most one fiber joins the line in a beat, at its end, unless the first one starts. -/
theorem Beats.joins (hh : host.Intrudes) (hb : Beats host b m m') (hn : Nested row m)
    (hfit : m'.room ≤ Heap.slotLimit) (hwait : ∀ q, b ≠ .start q) :
    ∃ joined : Option Handle, m'.ready = m.ready ++ joined.toList := by
  cases b with
  | outside =>
    cases hb with
    | outside h => exact none_joined (by cases h <;> rfl)
  | poll | wait | pass | collect =>
    cases hb <;> exact none_joined rfl
  | start q => exact absurd rfl (hwait q)
  | wake q =>
    cases hb with
    | @wake _ _ _ rest _ _ h =>
      have hn₁ : Nested row (m.withEvents rest) := hn.of_eq rfl rfl
      obtain ⟨row', hresumed⟩ := hn₁.resumed h
      exact none_joined hresumed.queues.ready
  | execute q op =>
    obtain ⟨t, ht, -, h⟩ := hb.executes
    by_cases hop : op = .await
    · subst hop
      obtain ⟨delay, -, hasleep⟩ := hn.fallsAsleep ht h hfit
      exact none_joined hasleep.ready
    · exact (hn.stirs_execute hh hop h hfit).ready

/-- The first fiber in line starts alone. -/
theorem Beats.starts (hb : Beats host (.start r) m m') (hn : Nested row m) :
    m.running = none ∧ m.ready = r :: m'.ready ∧ Nested [] m' ∧ m'.runningId? = some r := by
  cases hb with
  | @start _ _ _ rest hrun _ hready hst h =>
    have hn₁ : Nested row { m with ready := rest } := hn.of_eq rfl rfl
    obtain ⟨row', hresumed⟩ := hn₁.resumed h
    cases hresumed with
    | ignored hnot _ => exact absurd hst hnot
    | called _ hn' hq hid _ =>
      have hline : line { m with ready := rest } row = [] := (line_nobody hrun).trans (hn.row_nil hrun)
      refine ⟨hrun, ?_, hline ▸ hn', hid⟩
      rw [hready, hq.ready]

/-- A beat puts a new fiber in line. -/
structure Spawns (host : HostFunctions) (r : Handle) (b : Beat) (m m' : Machine) : Prop where
  beat : Beats host b m m'
  fresh : ¬ m.IsFiber r
  ready : m'.stateOf? r = some .ready

theorem isFiber_of_stateOf? (hm : m.Housed) {s : FiberState} (h : m.stateOf? r = some s) :
    m.IsFiber r := by
  by_contra hr
  rw [stateOf?_of_not_isFiber (fun t ht => by simp [IsFiber, hm.out t ht]) hr] at h
  cases h

theorem Spawns.ready_eq (hl : host.LeavesFibers) (hh : host.Intrudes) (hs : Spawns host r b m m')
    (ho : Orderly own m) (hfit : m'.room ≤ Heap.slotLimit) : m'.ready = m.ready ++ [r] := by
  obtain ⟨row, hn⟩ := ho.nested
  have ho' := (ho.beat hl hs.beat hfit).orderly
  obtain ⟨row', hn'⟩ := ho'.nested
  have hold : r ∉ m.ready := fun hr => hs.fresh (ho.isFiber (ho.ready r hr))
  have hnew : r ∈ m'.ready := ho'.mem_ready_iff.mpr
    ⟨⟨isFiber_of_stateOf? hn'.toHoused hs.ready, .inr hs.fresh⟩, hs.ready⟩
  obtain ⟨joined, hjoined⟩ := hs.beat.joins hh hn hfit (by
    rintro q rfl
    refine hold ?_
    rw [(hs.beat.starts hn).2.1]
    exact List.mem_cons_of_mem _ hnew)
  rw [hjoined, List.mem_append, Option.mem_toList] at hnew
  rw [hjoined, hnew.resolve_left hold, Option.toList_some]

/-! ## First come, first served -/

/-- A fiber will execute before some others: they are in line behind it, and it is in line, too,
or at the bottom of the stack. The number says how often it has started. -/
inductive Ahead (r : Handle) (later : List Handle) (m : Machine) : Nat → Prop
  | lined : (r :: later).Sublist m.ready → Ahead r later m 0
  | started {row above : List Handle} : Nested row m → m.line row = above ++ [r] →
      later.Sublist m.ready → Ahead r later m 1

namespace Ahead

theorem later_sublist (ha : Ahead r later m n) : later.Sublist m.ready := by
  cases ha with
  | lined hline => exact (List.sublist_cons_self r later).trans hline
  | started _ _ hlater => exact hlater

theorem not_running (ha : Ahead r later m n) (ho : Orderly own m) (hq : q ∈ later) :
    m.runningId? ≠ some q := by
  intro hid
  have hready := (ho.mem_ready_iff.mp (ha.later_sublist.subset hq)).2
  rw [ho.stateOf?_runningId hid] at hready
  cases hready

theorem joined (hh : host.Intrudes) (ha : Ahead r later m n) (hb : Beats host b m m')
    (hsilent : ∀ op, b ≠ .execute r op) (hfit : m'.room ≤ Heap.slotLimit) {fibers : List Handle}
    (hready : m'.ready = m.ready ++ fibers) : Ahead r (later ++ fibers) m' n := by
  cases ha with
  | lined hline => exact .lined (hready ▸ hline.append_right fibers)
  | started hn hline hlater =>
    have htended : Tended _ m r :=
      .of_line (hline ▸ List.mem_append_right _ (List.mem_singleton_self r))
    obtain ⟨row', haway⟩ := hb.away hh hn htended hsilent hfit
    obtain ⟨above', hline'⟩ := haway.line _ [] hline
    exact .started haway.nested hline' (hready ▸ hlater.append_right fibers)

theorem mono {later' : List Handle} (ha : Ahead r later' m n) (h : later.Sublist later') :
    Ahead r later m n := by
  cases ha with
  | lined hline => exact .lined ((h.cons_cons r).trans hline)
  | started hn hline hlater => exact .started hn hline (h.trans hlater)

/-- The fiber starts, or one that was ahead of it. -/
theorem start (ha : Ahead r later m n) (hn : Nested row m) (hb : Beats host (.start q) m m') :
    Ahead r later m' (n + if q = r then 1 else 0) := by
  obtain ⟨hrun, hready, hn', hid⟩ := hb.starts hn
  cases ha with
  | started hn hline _ =>
    -- a start needs an empty stack, and the fiber is at its bottom
    rw [line_nobody hrun, hn.row_nil hrun] at hline
    simp at hline
  | lined hline =>
    rw [hready] at hline
    by_cases hqr : q = r
    · subst hqr
      rw [if_pos rfl]
      have hbottom : m'.line [] = [] ++ [q] := by rw [line, hid, Option.toList_some]; rfl
      exact .started hn' hbottom (List.cons_sublist_cons.mp hline)
    · rw [if_neg hqr]
      cases hline with
      | cons _ hline => exact .lined hline
      | cons_cons => exact absurd rfl hqr

theorem beat (hh : host.Intrudes) (ha : Ahead r later m n) (ho : Orderly own m)
    (hb : Beats host b m m') (hsilent : ∀ op, b ≠ .execute r op) (hfit : m'.room ≤ Heap.slotLimit) :
    Ahead r later m' (n + [b].count (.start r)) := by
  obtain ⟨row, hn⟩ := ho.nested
  by_cases hstart : ∃ q, b = .start q
  · obtain ⟨q, rfl⟩ := hstart
    simpa [List.count_singleton] using ha.start hn hb
  · simp only [not_exists] at hstart
    obtain ⟨fiber, hready⟩ := hb.joins hh hn hfit hstart
    rw [List.count_eq_zero_of_not_mem (by simpa using Ne.symm (hstart r)), Nat.add_zero]
    exact (ha.joined hh hb hsilent hfit hready).mono (List.sublist_append_left ..)

theorem trace (hl : host.LeavesFibers) (hh : host.Intrudes) (ha : Ahead r later m n)
    (h : Trace host own m bs own' m') (ho : Orderly own m) (hsilent : ∀ op, .execute r op ∉ bs)
    (hfit : m'.room ≤ Heap.slotLimit) : Ahead r later m' (n + bs.count (.start r)) := by
  induction h generalizing n with
  | nil => exact ha
  | @cons own own' m m₁ m' b bs hb ht ih =>
    simp only [List.mem_cons, not_or] at hsilent
    have hfit₁ := (ht.room_le hl).trans hfit
    have ha₁ := ha.beat hh ho hb (fun op => Ne.symm (hsilent op).1) hfit₁
    have ha' := ih ha₁ (ho.beat hl hb hfit₁).orderly (fun op => (hsilent op).2) hfit
    rwa [Nat.add_assoc, ← List.count_append] at ha'

/-- As long as the fiber executes nothing those behind it execute nothing either. -/
theorem silent (hl : host.LeavesFibers) (hh : host.Intrudes) (ha : Ahead r later m n)
    (h : Trace host own m bs own' m') (ho : Orderly own m) (hsilent : ∀ op, .execute r op ∉ bs)
    (hfit : m'.room ≤ Heap.slotLimit) (hq : q ∈ later) : ∀ op, .execute q op ∉ bs := by
  induction h generalizing n with
  | nil => exact fun _ => List.not_mem_nil
  | @cons own own' m m₁ m' b bs hb ht ih =>
    simp only [List.mem_cons, not_or] at hsilent
    have hfit₁ := (ht.room_le hl).trans hfit
    have ha₁ := ha.beat hh ho hb (fun op => Ne.symm (hsilent op).1) hfit₁
    have hrest := ih ha₁ (ho.beat hl hb hfit₁).orderly (fun op => (hsilent op).2) hfit
    intro op
    refine List.not_mem_cons_of_ne_of_not_mem ?_ (hrest op)
    rintro rfl
    obtain ⟨t, hrun, rfl, -⟩ := hb.executes
    exact ha.not_running ho hq (runningId?_some hrun)

end Ahead

theorem Spawns.ahead (hl : host.LeavesFibers) (hh : host.Intrudes) (hs : Spawns host r b m m')
    (ho : Orderly own m) (hfit : m'.room ≤ Heap.slotLimit) : Ahead r [] m' 0 :=
  .lined (hs.ready_eq hl hh ho hfit ▸ List.sublist_append_right ..)

/-- What becomes ready in a trace has been put in line there. -/
theorem Trace.spawned (hl : host.LeavesFibers) (hh : host.Intrudes)
    (h : Trace host own m bs own' m') (ho : Orderly own m) (hr : m.stateOf? r ≠ some .ready)
    (hready : m'.stateOf? r = some .ready) (hfit : m'.room ≤ Heap.slotLimit) :
    ∃ before b behind own₁ m₁ m₂, bs = before ++ b :: behind ∧ Trace host own m before own₁ m₁ ∧
      Spawns host r b m₁ m₂ ∧ Trace host (carried own₁ m₁ m₂) m₂ behind own' m' := by
  induction h with
  | nil => exact absurd hready hr
  | @cons own own' m m₁ m' b bs hb ht ih =>
    have hfit₁ := (ht.room_le hl).trans hfit
    obtain ⟨row, hn⟩ := ho.nested
    by_cases hr₁ : m₁.stateOf? r = some .ready
    · rcases hb.queued hh hn hfit₁ (.inr rfl) hr₁ with hold | ⟨-, hfresh⟩ | ⟨hslept, -⟩
      · exact absurd hold hr
      · exact ⟨[], b, bs, own, m, m₁, rfl, .nil, ⟨hb, hfresh, hr₁⟩, ht⟩
      · cases hslept
    · obtain ⟨before, b', behind, own₂, m₂, m₃, rfl, hbefore, hs, hbehind⟩ :=
        ih (ho.beat hl hb hfit₁).orderly hr₁ hready hfit
      exact ⟨b :: before, b', behind, own₂, m₂, m₃, rfl, .cons hb hbefore, hs, hbehind⟩

/-! ## What is guaranteed -/

/-- A call of an async function in a program. -/
structure AsyncCall (host : HostFunctions) (own : Set Handle) (route : Route) (r : Handle)
    (f : Function) (argc : Nat) (t : Running) (m m' : Machine) : Prop where
  course : Course host own m
  running : m.running = some t
  calling : Calling m t argc route r
  function : m.heap.function r = .ok f
  isAsync : f.isAsync = true
  beat : ∃ op, Beats host (.execute t.id op) m m'
  room_le : m'.room ≤ Heap.slotLimit

theorem AsyncCall.setApart {route : Route} {f : Function} {argc : Nat} {t : Running}
    (hl : host.LeavesFibers) (hh : host.Intrudes) (hc : AsyncCall host own route r f argc t m m') :
    ∃ k id args, SetApart argc r f m.heap (t.skip k) m' id args ∧ m'.ready = m.ready ++ [id] ∧
      ∃ b, Spawns host id b m m' := by
  obtain ⟨hcourse, ht, hcalling, hf, hasync, ⟨op, hb⟩, hfit⟩ := hc
  have ho := hcourse.orderly hl ((hb.room_le hl).trans hfit)
  obtain ⟨row, hn⟩ := ho.nested
  obtain ⟨row', hs⟩ := hn.beat hh hb hfit
  have := tends_of_leavesFibers hl
  cases hb with
  | execute he hid hframe hop h =>
    obtain ⟨k, hentered, hremains⟩ := hcalling.entered hn.wellFormed hfit ht h
    obtain ⟨id, args, hapart⟩ := hentered.setApart hn.wellFormed hfit hs.nested
      (fun e he => he.function) (hremains.function_eq hf) hasync
    have hspawns : Spawns host id (.execute t.id op) m m' := by
      refine ⟨.execute he hid hframe hop h, fun hfiber => ?_, hapart.ready⟩
      obtain ⟨o', ho''⟩ := Heap.isLive_iff.mp (isLive_of_isFiber hfiber)
      rw [hapart.fresh] at ho''
      cases ho''
    exact ⟨k, id, args, hapart, hspawns.ready_eq hl hh ho hfit, _, hspawns⟩

/-- A fiber of a program that has executed nothing since it was put in line. -/
inductive Untouched (host : HostFunctions) (r : Handle) (m₁ : Machine) (bs : List Beat)
    (own' : Set Handle) (m' : Machine) : Prop
  | mk {own : Set Handle} {m : Machine} {b : Beat} : Course host own m → Spawns host r b m m₁ →
      Trace host (carried own m m₁) m₁ bs own' m' → (∀ op, .execute r op ∉ bs) →
      Untouched host r m₁ bs own' m'

theorem Untouched.ahead (hl : host.LeavesFibers) (hh : host.Intrudes)
    (hu : Untouched host r m₁ bs own' m') (hfit : m'.room ≤ Heap.slotLimit) :
    Orderly own' m' ∧ Ahead r [] m' (bs.count (.start r)) ∧ m'.work? r = m₁.work? r := by
  obtain ⟨hcourse, hs, ht, hsilent⟩ := hu
  have hfit₁ := (ht.room_le hl).trans hfit
  have ho := hcourse.orderly hl ((hs.beat.room_le hl).trans hfit₁)
  have ho₁ := (ho.beat hl hs.beat hfit₁).orderly
  obtain ⟨row, hn⟩ := ho₁.nested
  have ha := hs.ahead hl hh ho hfit₁
  have hready : r ∈ m₁.ready := by
    rw [hs.ready_eq hl hh ho hfit₁]
    exact List.mem_append_right _ (List.mem_singleton_self r)
  obtain ⟨row', haway⟩ := ht.away hl hh hn (.ready hs.ready hready) hsilent hfit
  exact ⟨ht.orderly hl ho₁ hfit, Nat.zero_add (bs.count _) ▸ ha.trace hl hh ht ho₁ hsilent hfit,
    haway.work⟩

/-- Once it runs it has started, and there is nothing under it. -/
theorem Ahead.alone (ha : Ahead r later m n) (ho : Orderly own m) (hid : m.runningId? = some r) :
    n = 1 ∧ Nested [] m := by
  cases ha with
  | lined hline =>
    have hready := (ho.mem_ready_iff.mp (hline.subset (List.mem_cons_self ..))).2
    rw [ho.stateOf?_runningId hid] at hready
    cases hready
  | @started row above hn hline _ =>
    have haway : Away r row m row m :=
      ⟨hn, .running hid, rfl, fun above _ hline => ⟨above, hline⟩⟩
    exact ⟨rfl, haway.under hline hid ▸ hn⟩

/-- What holds of every program in which a host posts no events that resume fibers, as long as
the slots of the heap can be told apart. To run a program is one way in which it concludes, and
programs are traces of beats, between which time passes. A call of an async function puts nil in
place of the callee and the arguments, the fiber that calls goes on, and a new fiber that is at
the start of the function is the last one in line. Fibers that were put in line execute in that
order, whichever fibers put them there. When such a fiber comes to execute it has started once,
it is where it was, and all other fibers are suspended, done or in line. It does not start
again: before another start the handle belongs to another fiber. -/
structure SpawnGuarantees (host : HostFunctions) : Prop where
  interpret : ∀ {begun p steps outcome m'}, begun.interpret host steps p = (outcome, m') →
    Concludes host p begun outcome m'
  traced : ∀ {begun p outcome m'}, Session host begun → Concludes host p begun outcome m' →
    m'.room ≤ Heap.slotLimit → Traced host p begun outcome m'
  calls : ∀ {own route r f argc t m m'}, AsyncCall host own route r f argc t m m' →
    ∃ k id args, SetApart argc r f m.heap (t.skip k) m' id args ∧ m'.ready = m.ready ++ [id] ∧
      ∃ b, Spawns host id b m m'
  order : ∀ {r m₁ bs own₂ m₂ q b m₃ bs' own' m'}, Untouched host r m₁ bs own₂ m₂ →
    Spawns host q b m₂ m₃ → (∀ op, b ≠ .execute r op) →
    Trace host (carried own₂ m₂ m₃) m₃ bs' own' m' → (∀ op, .execute r op ∉ bs') →
    m'.room ≤ Heap.slotLimit → ∀ op, .execute q op ∉ bs'
  alone : ∀ {r m₁ bs own' m'}, Untouched host r m₁ bs own' m' → m'.runningId? = some r →
    m'.room ≤ Heap.slotLimit → bs.count (.start r) = 1 ∧ m'.work? r = m₁.work? r ∧
      ∀ q ∈ own', q ≠ r → m'.stateOf? q = some .suspended ∨ m'.stateOf? q = some .done ∨
        m'.stateOf? q = some .ready
  once : ∀ {own m r m₁ bs own₂ m₂ m₃}, Course host own m → Beats host (.start r) m m₁ →
    Trace host (carried own m m₁) m₁ bs own₂ m₂ → Beats host (.start r) m₂ m₃ →
    m₃.room ≤ Heap.slotLimit → ∃ before b behind own₄ m₄ m₅, bs = before ++ b :: behind ∧
      Trace host (carried own m m₁) m₁ before own₄ m₄ ∧ Spawns host r b m₄ m₅ ∧
      Trace host (carried own₄ m₄ m₅) m₅ behind own₂ m₂

theorem spawnGuarantees (hl : host.LeavesFibers) (hh : host.Intrudes) : SpawnGuarantees host := by
  refine ⟨concludes_of_interpret, fun hbegun h hfit => hbegun.traced hl h hfit,
    fun hc => hc.setApart hl hh, ?_, ?_, ?_⟩
  · intro r m₁ bs own₂ m₂ q b m₃ bs' own' m' hu hs hb ht hsilent hfit
    have hfit₃ := (ht.room_le hl).trans hfit
    have hfit₂ := (hs.beat.room_le hl).trans hfit₃
    obtain ⟨ho₂, ha, -⟩ := hu.ahead hl hh hfit₂
    have ha₃ := ha.joined hh hs.beat hb hfit₃ (hs.ready_eq hl hh ho₂ hfit₃)
    have ho₃ := (ho₂.beat hl hs.beat hfit₃).orderly
    exact ha₃.silent hl hh ht ho₃ hsilent hfit (List.mem_singleton_self q)
  · intro r m₁ bs own' m' hu hid hfit
    obtain ⟨ho, ha, hwork⟩ := hu.ahead hl hh hfit
    obtain ⟨hstarted, hn⟩ := ha.alone ho hid
    exact ⟨hstarted, hwork, fun q hq hne => ho.others hn hid hq hne⟩
  · intro own m r m₁ bs own₂ m₂ m₃ hc hb ht hagain hfit
    have hfit₂ := (hagain.room_le hl).trans hfit
    have hfit₁ := (ht.room_le hl).trans hfit₂
    have ho := hc.orderly hl ((hb.room_le hl).trans hfit₁)
    obtain ⟨row, hn⟩ := ho.nested
    have ho₁ := (ho.beat hl hb hfit₁).orderly
    have hrunning := ho₁.stateOf?_runningId (hb.starts hn).2.2.2
    cases hagain with
    | start _ _ _ hready _ =>
      exact ht.spawned hl hh ho₁ (by simp [hrunning]) hready hfit₂

/-- The machine in which a program comes to the call of an async function. -/
def starting₀ : Machine := ((new {}).interpret Probe.host 1 napper).2

def starting₁ : Machine := after (instruction Probe.host) starting₀

def starting₂ : Machine := after (instruction Probe.host) starting₁

/-- The fiber that the call puts in line. -/
def starter : Handle := starting₁.ready.headD ⟨0, .zero⟩

def starting₃ : Machine := after (resume starter) { starting₂ with ready := [] }

/-- Whether the next instruction calls an async function without arguments. -/
def comesToAsync (m : Machine) : Bool :=
  m.running.any fun t => match t.fiber.frames, t.fiber.stack.peek 0 with
    | frame :: _, .ok callee => frame.opcode? = some .call && frame.byteAt 1 = 0 &&
      callee.toHandle?.any fun r => (m.heap.function r).toOption.any Function.isAsync
    | _, _ => false

theorem calling_of_comesToAsync (h : m.comesToAsync = true) : ∃ t r f, m.running = some t ∧
    Calling m t 0 .plain r ∧ m.heap.function r = .ok f ∧ f.isAsync = true := by
  simp only [comesToAsync, Option.any_eq_true] at h
  obtain ⟨t, ht, h⟩ := h
  split at h
  next frame rest callee hframes hpeek =>
    simp only [Bool.and_eq_true, decide_eq_true_eq, Option.any_eq_true] at h
    obtain ⟨⟨hop, hargc⟩, r, hr, f, hf, hasync⟩ := h
    have hf : m.heap.function r = .ok f := by
      cases hfunction : m.heap.function r with
      | ok g => simpa [hfunction, Except.toOption] using hf
      | error e => simp [hfunction, Except.toOption] at hf
    exact ⟨t, r, f, ht, .call hframes hop hargc hpeek (.plain hr hf), hf, hasync⟩
  next => cases h

/-- The program ends before the fiber that it put in line starts. -/
theorem spawnGuarantees_probe : SpawnGuarantees Probe.host ∧ ∃ own t r f q id own',
    AsyncCall Probe.host own .plain r f 0 t starting₀ starting₁ ∧
      Untouched Probe.host id starting₁ [.execute q .ret, .start id] own' starting₃ ∧
      starting₃.runningId? = some id ∧ starting₃.room ≤ Heap.slotLimit := by
  refine ⟨spawnGuarantees leavesFibers_probe intrudes_probe, ?_⟩
  obtain ⟨own, hcourse⟩ := Session.course leavesFibers_probe (.new {}) 1 napper
    (by decide +kernel) (by decide +kernel)
  have hcomes : starting₀.comesToAsync = true := by decide +kernel
  obtain ⟨t, r, f, ht, hcalling, hf, hasync⟩ := calling_of_comesToAsync hcomes
  have hid : starting₀.runningId? = some (runner starting₀) := by decide +kernel
  have hcall : Beats Probe.host (.execute (runner starting₀) .call) starting₀ starting₁ :=
    beats_execute (by decide +kernel) hid (by decide +kernel) (eq_ok_of_yields (by decide +kernel))
  have hret : Beats Probe.host (.execute (runner starting₀) .ret) starting₁ starting₂ :=
    beats_execute (by decide +kernel) (by decide +kernel) (by decide +kernel)
      (eq_ok_of_yields (by decide +kernel))
  have hrun : starting₂.running = none := Option.isNone_iff_eq_none.mp (by decide +kernel)
  have hstart : Beats Probe.host (.start starter) starting₂ starting₃ :=
    .start hrun (by decide +kernel) (by decide +kernel) (by decide +kernel)
      (eq_ok_of_yields (by decide +kernel))
  have hspawns : Spawns Probe.host starter (.execute (runner starting₀) .call)
      starting₀ starting₁ := ⟨hcall, by simp only [IsFiber]; decide +kernel, by decide +kernel⟩
  have hother : runner starting₀ ≠ starter := by decide +kernel
  have huntouched := Untouched.mk hcourse hspawns (.cons hret (.cons hstart .nil))
    (by simp [hother.symm])
  have hcalls : AsyncCall Probe.host own .plain r f 0 t starting₀ starting₁ := by
    rw [runningId?_some ht, Option.some.injEq] at hid
    exact ⟨hcourse, ht, hcalling, hf, hasync, ⟨.call, hid ▸ hcall⟩, by decide +kernel⟩
  exact ⟨own, t, r, f, _, _, _, hcalls, huntouched, by decide +kernel, by decide +kernel⟩

end Machine

end FiberMachine
