import FiberMachine.Proofs.Machine.Turnover

/-!
# The fibers that load modules

In a run every module that loads has a fiber that will go on and runs its code, and every
fiber that runs the code of a module and has not ended has its module among those that load.
So a machine at rest loads nothing, and a module stays in the table if and only if its fiber
ends.
-/

namespace FiberMachine

open Relation (ReflTransGen)

namespace Machine

variable {host : HostFunctions} {own : Set Handle} {row row' : List Handle}
  {m m' begun : Machine} {r M : Handle}

theorem Sound.isLive_module (hm : m.Sound) {kind : FiberKind}
    (hr : m.role? r = some (kind, some M)) : m.heap.isLive M := by
  by_cases hid : m.runningId? = some r
  · obtain ⟨t, ht, rfl⟩ := Option.map_eq_some_iff.mp hid
    rw [role?_running ht, Option.some.injEq, Fiber.role, Prod.mk.injEq] at hr
    exact ((hm.running t ht).2.module M hr.2).isLive
  · rw [role?_parked hid] at hr
    obtain ⟨f, hf, hrole⟩ := exists_of_parkedRole? hr
    obtain ⟨o, ho, hbody⟩ := Option.bind_eq_some_iff.mp hf
    have hkeeps := (hm.objects r o ho).body
    rw [Body.fiber?_eq_some_iff.mp hbody] at hkeeps
    exact ((hkeeps f rfl).module M (congrArg Prod.snd hrole)).isLive

/-- The fibers of a run that load modules, and the modules that they load. -/
structure Loaders (own : Set Handle) (row : List Handle) (m : Machine) : Prop
    extends Nested row m where
  tended : ∀ r ∈ own, Tended row m r ∨ m.stateOf? r = some .done
  stocked : m.Stocked
  loader : ∀ M ∈ m.loading, ∃ r ∈ own, Tended row m r ∧ m.role? r = some (.module, some M)
  unique : ∀ r ∈ own, ∀ q M, m.role? r = some (.module, some M) →
    m.role? q = some (.module, some M) → q = r
  entry : ∀ r ∈ own, ∀ M, m.role? r = some (.module, some M) →
    ∃ k, m.modules.find? k = some (.ofHandle M)
  unfinished : ∀ r ∈ own, ∀ M, m.role? r = some (.module, some M) →
    m.stateOf? r ≠ some .done → M ∈ m.loading

/-- A run begins with a machine that loads nothing. -/
theorem Stocked.loaders (hs : m.Stocked) (hw : m.heap.WellFormed) (hrun : m.running = none)
    (hl : m.loading = []) : Loaders ∅ [] m where
  toNested := nested_nobody hw hrun
  tended _ hr := hr.elim
  stocked := hs
  loader M hM := by simp [hl] at hM
  unique _ hr := hr.elim
  entry _ hr := hr.elim
  unfinished _ hr := hr.elim

theorem Turnover.role (ht : Turnover m m') (hr : m'.role? r = some (.module, some M)) :
    m.role? r = some (.module, some M) ∨ Loads r M m m' := by
  rcases ht.roles r _ hr with hold | ⟨-, hnone | ⟨N, hN, hl⟩⟩
  · exact .inl hold
  · cases hnone
  · cases hN
    exact .inr hl

namespace Loaders

/-- A fiber that loads a module did so before or begins to. -/
theorem role (hl : Loaders own row m) (ht : Turnover m m') (hr : r ∈ carried own m m')
    (hrole : m'.role? r = some (.module, some M)) :
    (r ∈ own ∧ m.role? r = some (.module, some M)) ∨ Loads r M m m' :=
  (ht.role hrole).imp (fun hold =>
    ⟨hr.2.resolve_right fun h => h (isFiber_of_role? hl.toHoused hold), hold⟩) id

theorem step (hl : Loaders own row m) (hm : m.Sound) (ht : Turnover m m')
    (hs : Shifts row m row' m') : Loaders (carried own m m') row' m' := by
  refine ⟨hs.nested, hs.carried hl.tended, ht.stocked, fun M hM => ?_, fun r hr q M hrole hq => ?_,
    fun r hr M hrole => ?_, fun r hr M hrole hnd => ?_⟩
  · rcases ht.loading M hM with hold | ⟨r, hnew⟩
    · obtain ⟨r, hr, htended, hrole⟩ := hl.loader M hold
      rcases hs.tended r htended with htended' | ⟨hid, hdone⟩
      · obtain ⟨w, hw⟩ := htended'.exists_work hs.nested
        obtain ⟨ρ, hρ⟩ := exists_role hw
        rcases ht.roles r ρ hρ with h | ⟨h, -⟩
        · cases hrole.symm.trans h
          exact ⟨r, ⟨isFiber_of_role? hs.nested.toHoused hρ, .inl hr⟩, htended', hρ⟩
        · exact absurd (isFiber_of_role? hl.toHoused hrole) h
      · exact absurd hM (ht.ended r M hid hrole hdone)
    · exact ⟨r, ⟨isFiber_of_role? hs.nested.toHoused hnew.role, .inr hnew.new⟩,
        .running hnew.running, hnew.role⟩
  · rcases hl.role ht hr hrole with ⟨hr, hold⟩ | hnew <;> rcases ht.role hq with hold' | hnew'
    · exact hl.unique r hr q M hold hold'
    · exact absurd (hm.isLive_module hold) hnew'.fresh
    · exact absurd (hm.isLive_module hold') hnew.fresh
    · exact Option.some.inj (hnew'.running.symm.trans hnew.running)
  · rcases hl.role ht hr hrole with ⟨hr, hold⟩ | hnew
    · obtain ⟨k, hk⟩ := hl.entry r hr M hold
      exact ⟨k, ht.kept k _ hk⟩
    · exact hnew.entry
  · rcases hl.role ht hr hrole with ⟨hown, hold⟩ | hnew
    · have hM := hl.unfinished r hown M hold fun hd => hnd (hs.done r hd hr.1)
      rcases ht.ends M hM with hM' | ⟨q, -, hq, hdone⟩
      · exact hM'
      · cases hl.unique r hown q M hold hq
        exact absurd hdone hnd
    · exact hnew.loading

/-- The module of a fiber that has ended is loaded. -/
theorem finished (hl : Loaders own row m) (hr : r ∈ own) (hrole : m.role? r = some (.module, some M))
    (hdone : m.stateOf? r = some .done) : M ∉ m.loading := by
  intro hM
  obtain ⟨q, -, htended, hq⟩ := hl.loader M hM
  cases hl.unique r hr q M hrole hq
  exact htended.ne_done hl.toNested hdone

theorem loading_nil (hl : Loaders own row m) (hr : Resting m) : m.loading = [] := by
  rw [List.eq_nil_iff_forall_not_mem]
  intro M hM
  obtain ⟨r, -, htended, -⟩ := hl.loader M hM
  exact hl.toNested.forgotten hr r htended

end Loaders

/-! ## Runs -/

section

variable (hi : host.Intrudes) (hk : ∀ id args, Makes (Keeps Whatever) (host.call id args))
include hi hk

theorem Loaders.steps (hl : Loaders own row m) (hm : m.Sound) (hs : Steps host m m')
    (hfit : m'.room ≤ Heap.slotLimit) : ∃ row', Loaders (carried own m m') row' m' := by
  obtain ⟨row', hshifts⟩ := hl.toNested.step hi hs hfit
  exact ⟨row', hl.step hm (hl.toNested.turnover_step hi hk hl.stocked hs hfit) hshifts⟩

end

end Machine

end FiberMachine
