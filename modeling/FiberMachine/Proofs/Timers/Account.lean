import Mathlib.Data.List.Range
import Mathlib.Data.Prod.Lex
import Mathlib.Order.Bounds.Defs
import FiberMachine.Proofs.Machine.Awaits

/-!
# An account of timers

Whatever is done with a registry of timers, in whatever order: every timer that was started is
pending or has fired, and it fires once. It fires with the first look at the clock that finds its
deadline reached. Timers fire by deadline and age, within one look at the clock and from one to
the next.
-/

namespace FiberMachine

namespace Timer

/-- The time at which a timer is due and, among equal ones, its age. -/
def rank (a : Timer) : Duration ×ₗ Nat := toLex (a.deadline, a.sequence)

theorem rank_lt_iff {a b : Timer} : a.rank < b.rank ↔
    a.deadline < b.deadline ∨ a.deadline = b.deadline ∧ a.sequence < b.sequence :=
  Prod.Lex.toLex_lt_toLex

/-- Of two timers with numbers of their own, the one that is due first ranks first. -/
theorem rank_lt_of_before {a b : Timer} (h : a.before b = true) (hne : a.sequence ≠ b.sequence) :
    a.rank < b.rank := by
  rw [rank_lt_iff]
  obtain h | ⟨h, hs⟩ := before_iff.mp h
  · exact .inl h
  · exact .inr ⟨h, lt_of_le_of_ne hs hne⟩

end Timer

namespace Timers

/-- What is done with a registry and its clock. -/
inductive Operation where
  | add (delay : Duration) (fiber : Handle)
  | poll
  | wait
  | advance (d : Duration)

/-- Whether an operation looks for timers that are due. -/
def Operation.Looks : Operation → Prop
  | poll | wait => True
  | _ => False

/-- An operation, with the events that it posts. -/
def perform (t : Timers) : Operation → Timers × List Event
  | .add delay fiber => (t.add delay fiber, [])
  | .poll => t.poll
  | .wait => t.wait
  | .advance d => (t.advance d, [])

def performAll (t : Timers) (ops : List Operation) : Timers :=
  ops.foldl (fun t op => (t.perform op).1) t

/-- The timer that an operation starts. -/
def started (t : Timers) : Operation → List Timer
  | .add delay fiber => [⟨min (t.now + delay) Duration.longest, t.nextSequence, fiber⟩]
  | _ => []

/-- The timers that fire with an operation, one after the other. -/
def fired (t : Timers) : Operation → List Timer
  | .poll => t.due
  | .wait => t.woken.due
  | _ => []

def startedAll (t : Timers) : List Operation → List Timer
  | [] => []
  | op :: ops => t.started op ++ startedAll (t.perform op).1 ops

def firedAll (t : Timers) : List Operation → List Timer
  | [] => []
  | op :: ops => t.fired op ++ firedAll (t.perform op).1 ops

variable {t : Timers} {op : Operation} {ops : List Operation} {a b : Timer}

theorem performAll_append (ops' : List Operation) :
    t.performAll (ops ++ ops') = (t.performAll ops).performAll ops' := List.foldl_append

theorem startedAll_append (ops' : List Operation) :
    t.startedAll (ops ++ ops') = t.startedAll ops ++ (t.performAll ops).startedAll ops' := by
  induction ops generalizing t with
  | nil => rfl
  | cons op ops ih => simp [startedAll, ih, performAll]

theorem firedAll_append (ops' : List Operation) :
    t.firedAll (ops ++ ops') = t.firedAll ops ++ (t.performAll ops).firedAll ops' := by
  induction ops generalizing t with
  | nil => rfl
  | cons op ops ih => simp [firedAll, ih, performAll]

theorem startedAll_snoc (op : Operation) :
    t.startedAll (ops ++ [op]) = t.startedAll ops ++ (t.performAll ops).started op := by
  simp [startedAll_append, startedAll]

theorem firedAll_snoc (op : Operation) :
    t.firedAll (ops ++ [op]) = t.firedAll ops ++ (t.performAll ops).fired op := by
  simp [firedAll_append, firedAll]

/-! ## One operation -/

theorem perform_events (t : Timers) (op : Operation) :
    (t.perform op).2 = (t.fired op).map fun a => .resume a.fiber := by
  cases op with
  | add | advance => rfl
  | poll => exact poll_events t
  | wait => exact (congrArg Prod.snd (wait_eq t)).trans (poll_events t.woken)

/-- The timers that fire leave the registry, and a new one comes into it. -/
theorem perform_pending (t : Timers) (op : Operation) :
    (t.fired op ++ (t.perform op).1.pending).Perm (t.pending ++ t.started op) := by
  cases op with
  | add delay fiber => exact .refl _
  | poll => simpa [fired, perform, started] using t.fires_poll.perm.symm
  | wait => simpa [fired, perform, started] using t.fires_wait.perm.symm
  | advance d => simp [fired, perform, advance, started]

theorem pairwise_fired (t : Timers) (op : Operation) :
    (t.fired op).Pairwise fun a b => a.before b = true := by
  cases op with
  | add | advance => exact .nil
  | poll => exact t.fires_poll.sorted
  | wait => exact t.fires_wait.sorted

theorem fired_lt_pending (ha : a ∈ t.fired op) (hb : b ∈ (t.perform op).1.pending) :
    a.deadline < b.deadline := by
  cases op with
  | add | advance => cases ha
  | poll => exact t.fires_poll.later a ha b hb
  | wait => exact t.fires_wait.later a ha b hb

theorem woken_poll_now (t : Timers) : t.wait.1.now = t.woken.now := by
  rw [wait_eq, poll_now]

/-- A timer does not fire before the clock has reached its deadline. -/
theorem deadline_le_of_fired (ha : a ∈ t.fired op) : a.deadline ≤ (t.perform op).1.now := by
  cases op with
  | add | advance => cases ha
  | poll => exact (poll_now t).symm ▸ (mem_due.mp ha).2
  | wait => exact (woken_poll_now t).symm ▸ (mem_due.mp ha).2

/-- A look at the clock leaves no timer that is due. -/
theorem now_lt_of_pending (hop : op.Looks) (ha : a ∈ (t.perform op).1.pending) :
    (t.perform op).1.now < a.deadline := by
  have hpoll : ∀ t : Timers, a ∈ t.poll.1.pending → t.poll.1.now < a.deadline := fun t ha => by
    rw [poll_now]
    simp only [poll] at ha
    split at ha
    · rename_i hnil
      simp [hnil] at ha
    · simpa [isDue] using (List.mem_filter.mp ha).2
  cases op with
  | add | advance => cases hop
  | poll => exact hpoll t ha
  | wait =>
    simp only [perform, wait_eq] at ha ⊢
    exact hpoll t.woken ha

theorem nextSequence_poll (t : Timers) : t.poll.1.nextSequence = t.nextSequence := by
  simp only [poll]
  split <;> rfl

theorem perform_nextSequence (t : Timers) (op : Operation) :
    (t.perform op).1.nextSequence = t.nextSequence + (t.started op).length := by
  cases op with
  | add | advance => rfl
  | poll => exact nextSequence_poll t
  | wait =>
    simp only [perform, wait_eq, nextSequence_poll, started, List.length_nil, Nat.add_zero, woken]
    cases t.earliest? <;> rfl

/-- A wait goes on to the earliest deadline, and what is due then fires. -/
theorem wait_fires {d : Duration} (hd : IsLeast {d | ∃ a ∈ t.pending, a.deadline = d} d) :
    t.fired .wait ≠ [] ∧ t.wait.1.now = max t.now d := by
  obtain ⟨⟨a, ha, had⟩, hleast⟩ := hd
  have hearliest : t.earliest? = some d := by
    refine List.min?_eq_some_iff.mpr ⟨List.mem_map.mpr ⟨a, ha, had⟩, fun e he => ?_⟩
    obtain ⟨b, hb, rfl⟩ := List.mem_map.mp he
    exact hleast ⟨b, hb, rfl⟩
  have hwoken : t.woken = { t with now := max t.now d } := by simp only [woken, hearliest]
  refine ⟨List.ne_nil_of_mem (a := a) (mem_due.mpr ⟨?_, ?_⟩), ?_⟩
  · exact hwoken ▸ ha
  · exact hwoken ▸ had ▸ Nat.le_max_right ..
  · rw [woken_poll_now, hwoken]

/-! ## A row of operations -/

/-- Every timer that was started has fired or is pending, and there is one of it. -/
theorem account_perm (ops : List Operation) :
    (start.firedAll ops ++ (start.performAll ops).pending).Perm (start.startedAll ops) := by
  induction ops using List.reverseRecOn with
  | nil => exact .refl _
  | append_singleton ops op ih =>
    rw [firedAll_snoc, startedAll_snoc, performAll_append, List.append_assoc]
    refine ((perform_pending _ op).append_left _).trans ?_
    rw [← List.append_assoc]
    exact ih.append_right _

theorem nextSequence_performAll (ops : List Operation) :
    (start.performAll ops).nextSequence = (start.startedAll ops).length := by
  induction ops using List.reverseRecOn with
  | nil => rfl
  | append_singleton ops op ih =>
    rw [performAll_append, startedAll_snoc, List.length_append, ← ih]
    exact perform_nextSequence _ op

/-- Timers are numbered as they are started. -/
theorem sequences_startedAll (ops : List Operation) :
    (start.startedAll ops).map Timer.sequence = List.range (start.startedAll ops).length := by
  induction ops using List.reverseRecOn with
  | nil => rfl
  | append_singleton ops op ih =>
    rw [startedAll_snoc, List.map_append, ih, ← nextSequence_performAll]
    cases op with
    | add delay fiber =>
      rw [List.length_append, ← nextSequence_performAll]
      exact List.range_succ.symm
    | poll | wait | advance => simp [started, nextSequence_performAll]

theorem nodup_startedAll (ops : List Operation) : (start.startedAll ops).Nodup :=
  .of_map Timer.sequence (sequences_startedAll ops ▸ List.nodup_range)

theorem nodup_account (ops : List Operation) :
    (start.firedAll ops ++ (start.performAll ops).pending).Nodup :=
  (account_perm ops).nodup_iff.mpr (nodup_startedAll ops)

theorem eq_of_sequence_eq (ha : a ∈ start.startedAll ops) (hb : b ∈ start.startedAll ops)
    (h : a.sequence = b.sequence) : a = b :=
  List.inj_on_of_nodup_map (sequences_startedAll ops ▸ List.nodup_range) ha hb h

theorem mem_startedAll_of_fired (ha : a ∈ (start.performAll ops).fired op) :
    a ∈ start.startedAll (ops ++ [op]) := by
  refine (account_perm (ops ++ [op])).mem_iff.mp (List.mem_append_left _ ?_)
  exact firedAll_snoc (t := start) op ▸ List.mem_append_right _ ha

/-- The timers of one look at the clock fire by deadline and age. -/
theorem fired_sorted (ops : List Operation) (op : Operation) :
    ((start.performAll ops).fired op).Pairwise fun a b => a.rank < b.rank := by
  have hnodup : ((start.performAll ops).fired op).Nodup := by
    have h := (List.nodup_append.mp (nodup_account (ops ++ [op]))).1
    rw [firedAll_snoc] at h
    exact (List.nodup_append.mp h).2.1
  refine ((pairwise_fired _ op).and hnodup).imp_of_mem fun ha hb h => ?_
  refine Timer.rank_lt_of_before h.1 fun hseq => h.2 ?_
  exact eq_of_sequence_eq (mem_startedAll_of_fired ha) (mem_startedAll_of_fired hb) hseq

/-- What fires later and was there before ranks behind. -/
theorem fired_later {earlier rest : List Operation} {first : Operation}
    (ha : a ∈ (start.performAll earlier).fired first)
    (hb : b ∈ (start.performAll (earlier ++ first :: rest)).fired op)
    (hstarted : b ∈ start.startedAll earlier) : a.deadline < b.deadline := by
  refine fired_lt_pending ha (b := b) ?_
  -- it is in the account of the first look, and what fires afterwards has not fired there
  have hsplit : earlier ++ first :: rest ++ [op] = (earlier ++ [first]) ++ (rest ++ [op]) := by simp
  have hnodup := (List.nodup_append.mp (nodup_account (earlier ++ first :: rest ++ [op]))).1
  rw [hsplit, firedAll_append] at hnodup
  have hlater : b ∈ (start.performAll (earlier ++ [first])).firedAll (rest ++ [op]) := by
    rw [firedAll_snoc, ← performAll_append, List.append_assoc]
    exact List.mem_append_right _ hb
  have hmem : b ∈ start.startedAll (earlier ++ [first]) := by
    rw [startedAll_snoc]
    exact List.mem_append_left _ hstarted
  rcases List.mem_append.mp ((account_perm _).mem_iff.mpr hmem) with hfired | hpending
  · exact absurd rfl ((List.nodup_append.mp hnodup).2.2 b hfired b hlater)
  · rwa [performAll_append] at hpending

/-! ## What is guaranteed -/

/-- What is guaranteed of an operation that comes after others. The timers that it fires, and no
others, are posted as events. Over all operations each timer that was started is pending or has
fired, and it fires once. It fires when the clock has reached its deadline and with the first
look at the clock that finds it so. Of two timers the one with the earlier deadline, and of equal
deadlines the older one, fires first if it was started in time. -/
structure TimerGuarantees (before : List Operation) (op : Operation) (t t' : Timers)
    (events : List Event) : Prop where
  posted : events = (t.fired op).map fun a => .resume a.fiber
  numbered : (start.startedAll (before ++ [op])).map Timer.sequence =
    List.range (start.startedAll (before ++ [op])).length
  accounted : (start.firedAll (before ++ [op]) ++ t'.pending).Perm
    (start.startedAll (before ++ [op]))
  once : (start.firedAll (before ++ [op])).Nodup
  punctual : ∀ a ∈ t.fired op, a.deadline ≤ t'.now
  prompt : op.Looks → ∀ a ∈ start.startedAll (before ++ [op]), a.deadline ≤ t'.now →
    a ∈ start.firedAll (before ++ [op])
  sorted : (t.fired op).Pairwise fun a b => a.rank < b.rank
  across : ∀ earlier first rest, before = earlier ++ first :: rest →
    ∀ a ∈ (start.performAll earlier).fired first, ∀ b ∈ t.fired op, b ∈ start.startedAll earlier →
      a.rank < b.rank
  active : t'.active + (start.firedAll (before ++ [op])).length =
    (start.startedAll (before ++ [op])).length
  polls : op = .poll → t'.now = t.now
  waits : op = .wait → ∀ d, IsLeast {d | ∃ a ∈ t.pending, a.deadline = d} d →
    t.fired op ≠ [] ∧ t'.now = max t.now d

theorem timerGuarantees (before : List Operation) (op : Operation) :
    TimerGuarantees before op (start.performAll before) ((start.performAll before).perform op).1
      ((start.performAll before).perform op).2 := by
  have hafter : start.performAll (before ++ [op]) = ((start.performAll before).perform op).1 := by
    rw [performAll_append]
    rfl
  have haccount := hafter ▸ account_perm (before ++ [op])
  refine ⟨perform_events _ op, sequences_startedAll _, haccount,
    (List.nodup_append.mp (nodup_account _)).1, fun a => deadline_le_of_fired,
    fun hop a ha hd => ?_, fired_sorted before op, ?_, ?_, ?_, ?_⟩
  · rcases List.mem_append.mp (haccount.mem_iff.mpr ha) with hfired | hpending
    · exact hfired
    · exact absurd hd (Nat.not_le.mpr (now_lt_of_pending hop hpending))
  · rintro earlier first rest rfl a ha b hb hstarted
    exact Timer.rank_lt_iff.mpr (.inl (fired_later ha hb hstarted))
  · rw [← haccount.length_eq, List.length_append, Nat.add_comm, active]
  · rintro rfl
    exact poll_now _
  · rintro rfl d hd
    exact wait_fires hd

end Timers

end FiberMachine
