import Mathlib.Data.Set.Insert
import FiberMachine.Proofs.Machine.Moves

/-!
# Schedules

A schedule says in which state each fiber is and where it is remembered: a ready
fiber in the queue, a suspended one in a wake-up, and the waiting ones in a chain of
callers. A switch changes the state of one fiber at a time, so it is enough to see
what each change of one state does to a schedule.
-/

namespace FiberMachine

/-- The part of a fiber that its schedule depends on. -/
structure Status where
  state : FiberState
  caller : Option Handle
deriving DecidableEq

/-- The fibers in a row that wait for one another, the first one of them at the head. -/
inductive Waits (status : Handle → Option Status) : Option Handle → List Handle → Prop
  | nobody : Waits status none []
  | next {r : Handle} {caller : Option Handle} {rest : List Handle} :
      status r = some ⟨.waiting, caller⟩ → Waits status caller rest →
      Waits status (some r) (r :: rest)

/-- How often a fiber is listed when it is listed once in one state and never in others. -/
def times (status : Option Status) (state : FiberState) : Nat :=
  if status.map Status.state = some state then 1 else 0

/-- Fibers, the head of the chain of callers, the queue and the wake-ups. -/
structure Schedule (own : Set Handle) (status : Handle → Option Status) (head : Option Handle)
    (ready wakes : List Handle) : Prop where
  chain : ∃ row : List Handle, Waits status head row ∧ row.Nodup ∧ (∀ r ∈ row, r ∈ own) ∧
    ∀ r ∈ own, ∀ caller, status r = some ⟨.waiting, caller⟩ → r ∈ row
  ready : ∀ r ∈ own, ready.count r = times (status r) .ready
  wakes : ∀ r ∈ own, wakes.count r = times (status r) .suspended

namespace Waits

variable {status status' : Handle → Option Status} {head : Option Handle} {row : List Handle}

theorem waiting (hw : Waits status head row) : ∀ r ∈ row, ∃ c, status r = some ⟨.waiting, c⟩ := by
  induction hw with
  | nobody => simp
  | @next r caller rest hs _ ih =>
    rintro q hq
    rcases List.mem_cons.mp hq with rfl | hq
    · exact ⟨caller, hs⟩
    · exact ih q hq

theorem congr (hw : Waits status head row) (h : ∀ r ∈ row, status' r = status r) :
    Waits status' head row := by
  induction hw with
  | nobody => exact .nobody
  | @next r caller rest hs _ ih =>
    exact .next (by rw [h r (List.mem_cons_self ..), hs])
      (ih fun q hq => h q (List.mem_cons_of_mem _ hq))

/-- The head leads to one row only. -/
theorem unique {row' : List Handle} (hw : Waits status head row) (hw' : Waits status head row') :
    row' = row := by
  induction hw generalizing row' with
  | nobody =>
    cases hw'
    rfl
  | next hs _ ih =>
    cases hw' with
    | next hs' hrest =>
      obtain rfl := (Status.mk.inj (Option.some.inj (hs.symm.trans hs'))).2
      exact congrArg _ (ih hrest)

end Waits

namespace Schedule

variable {own : Set Handle} {status : Handle → Option Status} {head : Option Handle}
  {ready wakes : List Handle} {t : Handle} {caller : Option Handle}

theorem perm {ready' wakes' : List Handle} (hs : Schedule own status head ready wakes)
    (hr : ready'.Perm ready) (hw : wakes'.Perm wakes) : Schedule own status head ready' wakes' where
  chain := hs.chain
  ready r h := by rw [hr.count_eq, hs.ready r h]
  wakes r h := by rw [hw.count_eq, hs.wakes r h]

/-- Only what the fibers are in matters. -/
theorem congr {status' : Handle → Option Status} (hs : Schedule own status head ready wakes)
    (h : ∀ r ∈ own, status' r = status r) : Schedule own status' head ready wakes where
  chain := by
    obtain ⟨row, hw, hn, hrow, hall⟩ := hs.chain
    exact ⟨row, hw.congr fun r hr => h r (hrow r hr), hn, hrow, fun r hr c hc =>
      hall r hr c (by rw [← h r hr, hc])⟩
  ready r hr := by rw [h r hr, hs.ready r hr]
  wakes r hr := by rw [h r hr, hs.wakes r hr]

theorem times_update (t r : Handle) (s : Status) (state : FiberState) :
    times (Function.update status t (some s) r) state =
      if r = t then (if s.state = state then 1 else 0) else times (status r) state := by
  by_cases h : r = t
  · subst h
    simp [times]
  · simp [h]

/-- A fiber that is not in the chain changes its state to one that is not waiting. -/
theorem chain_update (hs : Schedule own status head ready wakes) {s : Status}
    (hold : ∀ c, status t ≠ some ⟨.waiting, c⟩) (hnew : s.state ≠ .waiting) :
    ∃ row : List Handle, Waits (Function.update status t (some s)) head row ∧ row.Nodup ∧
      (∀ r ∈ row, r ∈ own) ∧
      ∀ r ∈ own, ∀ c, Function.update status t (some s) r = some ⟨.waiting, c⟩ → r ∈ row := by
  obtain ⟨row, hw, hn, hrow, hall⟩ := hs.chain
  refine ⟨row, hw.congr fun r hr => ?_, hn, hrow, fun r hr c hc => ?_⟩
  · rw [Function.update_of_ne]
    rintro rfl
    obtain ⟨c, hc⟩ := hw.waiting r hr
    exact hold c hc
  · by_cases hrt : r = t
    · subst hrt
      rw [Function.update_self] at hc
      cases hc
      exact absurd rfl hnew
    · rw [Function.update_of_ne hrt] at hc
      exact hall r hr c hc

/-- The running fiber waits for another one. -/
theorem wait (hs : Schedule own status head ready wakes) (ht : t ∈ own)
    (hrun : status t = some ⟨.running, head⟩) :
    Schedule own (Function.update status t (some ⟨.waiting, head⟩)) (some t) ready wakes where
  chain := by
    obtain ⟨row, hw, hn, hrow, hall⟩ := hs.chain
    have hnot : t ∉ row := by
      intro hmem
      obtain ⟨c, hc⟩ := hw.waiting t hmem
      simp [hrun] at hc
    refine ⟨t :: row, .next (Function.update_self ..) (hw.congr fun r hr => ?_),
      List.nodup_cons.mpr ⟨hnot, hn⟩, ?_, fun r hr c hc => ?_⟩
    · rw [Function.update_of_ne]
      rintro rfl
      exact hnot hr
    · rintro r hr
      rcases List.mem_cons.mp hr with rfl | hr
      · exact ht
      · exact hrow r hr
    · by_cases hrt : r = t
      · exact hrt ▸ List.mem_cons_self ..
      · rw [Function.update_of_ne hrt] at hc
        exact List.mem_cons_of_mem _ (hall r hr c hc)
  ready r hr := by
    rw [times_update, hs.ready r hr]
    by_cases hrt : r = t
    · simp [hrt, hrun, times]
    · simp [hrt]
  wakes r hr := by
    rw [times_update, hs.wakes r hr]
    by_cases hrt : r = t
    · simp [hrt, hrun, times]
    · simp [hrt]

/-- The running fiber suspends itself, with one wake-up. -/
theorem suspend (hs : Schedule own status head ready wakes)
    (hrun : status t = some ⟨.running, caller⟩) :
    Schedule own (Function.update status t (some ⟨.suspended, caller⟩)) head ready
      (t :: wakes) where
  chain := hs.chain_update (by simp [hrun]) (by simp)
  ready r hr := by
    rw [times_update, hs.ready r hr]
    by_cases hrt : r = t
    · simp [hrt, hrun, times]
    · simp [hrt]
  wakes r hr := by
    rw [times_update, List.count_cons, hs.wakes r hr]
    by_cases hrt : r = t
    · simp [hrt, hrun, times]
    · simp [hrt, Ne.symm hrt]

/-- The running fiber is done. -/
theorem finish (hs : Schedule own status head ready wakes)
    (hrun : status t = some ⟨.running, caller⟩) :
    Schedule own (Function.update status t (some ⟨.done, caller⟩)) head ready wakes where
  chain := hs.chain_update (by simp [hrun]) (by simp)
  ready r hr := by
    rw [times_update, hs.ready r hr]
    by_cases hrt : r = t
    · simp [hrt, hrun, times]
    · simp [hrt]
  wakes r hr := by
    rw [times_update, hs.wakes r hr]
    by_cases hrt : r = t
    · simp [hrt, hrun, times]
    · simp [hrt]

/-- A fiber that was listed as ready runs, for whoever has it called. -/
theorem start (hs : Schedule own status head (t :: ready) wakes)
    (hrun : status t = some ⟨.ready, caller⟩) (caller' : Option Handle) :
    Schedule own (Function.update status t (some ⟨.running, caller'⟩)) head ready wakes where
  chain := hs.chain_update (by simp [hrun]) (by simp)
  ready r hr := by
    have h := hs.ready r hr
    rw [times_update]
    rw [List.count_cons] at h
    by_cases hrt : r = t
    · simp [hrt, hrun, times] at h ⊢
      simpa using h
    · simpa [hrt, Ne.symm hrt] using h
  wakes r hr := by
    rw [times_update, hs.wakes r hr]
    by_cases hrt : r = t
    · simp [hrt, hrun, times]
    · simp [hrt]

/-- A fiber runs whose wake-up came. -/
theorem wake (hs : Schedule own status head ready (t :: wakes))
    (hrun : status t = some ⟨.suspended, caller⟩) (caller' : Option Handle) :
    Schedule own (Function.update status t (some ⟨.running, caller'⟩)) head ready wakes where
  chain := hs.chain_update (by simp [hrun]) (by simp)
  ready r hr := by
    rw [times_update, hs.ready r hr]
    by_cases hrt : r = t
    · simp [hrt, hrun, times]
    · simp [hrt]
  wakes r hr := by
    have h := hs.wakes r hr
    rw [times_update]
    rw [List.count_cons] at h
    by_cases hrt : r = t
    · simp [hrt, hrun, times] at h ⊢
      simpa using h
    · simpa [hrt, Ne.symm hrt] using h

/-- A fiber is called from the queue or by a wake-up, and no longer listed there. -/
inductive Called (t : Handle) : FiberState → List Handle → List Handle → List Handle →
    List Handle → Prop
  | ready {ready wakes : List Handle} : Called t .ready (t :: ready) wakes ready wakes
  | wake {ready wakes : List Handle} : Called t .suspended ready (t :: wakes) ready wakes

theorem call {state : FiberState} {ready' wakes' : List Handle}
    (hs : Schedule own status head ready wakes) (hc : Called t state ready wakes ready' wakes')
    (hstatus : status t = some ⟨state, caller⟩) (caller' : Option Handle) :
    Schedule own (Function.update status t (some ⟨.running, caller'⟩)) head ready' wakes' := by
  cases hc with
  | ready => exact hs.start hstatus caller'
  | wake => exact hs.wake hstatus caller'

/-- The fiber at the head of the chain goes on. -/
theorem goOn (hs : Schedule own status (some t) ready wakes) :
    ∃ caller, status t = some ⟨.waiting, caller⟩ ∧ t ∈ own ∧
      Schedule own (Function.update status t (some ⟨.running, caller⟩)) caller ready wakes := by
  obtain ⟨row, hw, hn, hrow, hall⟩ := hs.chain
  obtain _ | @⟨_, caller, rest, hwait, hrest⟩ := hw
  rw [List.nodup_cons] at hn
  refine ⟨caller, hwait, hrow t (List.mem_cons_self ..), ⟨rest, hrest.congr fun r hr => ?_, hn.2,
    fun r hr => hrow r (List.mem_cons_of_mem _ hr), fun r hr c hc => ?_⟩, fun r hr => ?_,
    fun r hr => ?_⟩
  · rw [Function.update_of_ne]
    rintro rfl
    exact hn.1 hr
  · by_cases hrt : r = t
    · subst hrt
      simp at hc
    · rw [Function.update_of_ne hrt] at hc
      exact (List.mem_cons.mp (hall r hr c hc)).resolve_left hrt
  · rw [times_update, hs.ready r hr]
    by_cases hrt : r = t
    · simp [hrt, hwait, times]
    · simp [hrt]
  · rw [times_update, hs.wakes r hr]
    by_cases hrt : r = t
    · simp [hrt, hwait, times]
    · simp [hrt]

/-- A new fiber is ready and listed as such. -/
theorem add (hs : Schedule own status head ready wakes) (ht : t ∉ own) (hr : t ∉ ready)
    (hw : t ∉ wakes) (caller : Option Handle) :
    Schedule (insert t own) (Function.update status t (some ⟨.ready, caller⟩)) head (t :: ready)
      wakes where
  chain := by
    obtain ⟨row, hwait, hn, hrow, hall⟩ := hs.chain
    refine ⟨row, hwait.congr fun r hmem => ?_, hn,
      fun r hmem => Set.mem_insert_of_mem _ (hrow r hmem), fun r hmem c hc => ?_⟩
    · rw [Function.update_of_ne]
      rintro rfl
      exact ht (hrow _ hmem)
    · by_cases hrt : r = t
      · subst hrt
        simp at hc
      · rw [Function.update_of_ne hrt] at hc
        exact hall r ((Set.mem_insert_iff.mp hmem).resolve_left hrt) c hc
  ready r hmem := by
    rw [times_update, List.count_cons]
    by_cases hrt : r = t
    · simp [hrt, List.count_eq_zero.mpr hr]
    · simpa [hrt, Ne.symm hrt] using hs.ready r ((Set.mem_insert_iff.mp hmem).resolve_left hrt)
  wakes r hmem := by
    rw [times_update]
    by_cases hrt : r = t
    · simp [hrt, List.count_eq_zero.mpr hw]
    · simpa [hrt] using hs.wakes r ((Set.mem_insert_iff.mp hmem).resolve_left hrt)

/-- Fibers that are not waiting may be given up. -/
theorem restrict {own' : Set Handle} (hs : Schedule own status head ready wakes)
    (hsub : ∀ r ∈ own', r ∈ own)
    (hkeep : ∀ r ∈ own, ∀ c, status r = some ⟨.waiting, c⟩ → r ∈ own') :
    Schedule own' status head ready wakes where
  chain := by
    obtain ⟨row, hw, hn, hrow, hall⟩ := hs.chain
    refine ⟨row, hw, hn, fun r hr => ?_, fun r hr => hall r (hsub r hr)⟩
    obtain ⟨c, hc⟩ := hw.waiting r hr
    exact hkeep r (hrow r hr) c hc
  ready r hr := hs.ready r (hsub r hr)
  wakes r hr := hs.wakes r (hsub r hr)

end Schedule
end FiberMachine
