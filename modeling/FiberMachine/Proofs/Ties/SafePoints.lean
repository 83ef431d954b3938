import FiberMachine.Machine.Step
import FiberMachine.Proofs.Ties.Fibers

/-!
# Safe points side by side

A collection takes away what no root reaches, and what a machine holds itself are roots.
So the ties between what is left are enough, whichever of the machines collect.
-/

namespace FiberMachine

variable {ι : Type} {T : Ties ι} {m : ι → Machine}

open Relation (ReflTransGen)
open Ties

namespace Machine

/-! ## Collections -/

/-- What a machine holds itself stays, and what stays refers to nothing that goes. -/
structure Sheds (m m' : Machine) : Prop where
  outside : m' = { m with heap := m'.heap }
  wellFormed : m'.heap.WellFormed
  old : ∀ r o, m'.heap.get? r = some o → m.heap.get? r = some o
  references : ∀ r o, m'.heap.get? r = some o → ∀ s ∈ o.references, m.heap.isLive s →
    m'.heap.isLive s
  roots : ∀ r ∈ m.roots, m.heap.isLive r → m'.heap.isLive r

theorem sheds_refl {m : Machine} (hw : m.heap.WellFormed) : Sheds m m where
  outside := rfl
  wellFormed := hw
  old _ _ ho := ho
  references _ _ _ _ _ hl := hl
  roots _ _ hl := hl

theorem sheds_collected {m : Machine} (hw : m.heap.WellFormed) : Sheds m m.collected where
  outside := rfl
  wellFormed := hw.collect _
  old _ _ ho := Heap.get?_of_get?_collect hw ho
  references r o ho s hs hl := by
    have hr : m.collected.heap.isLive r := Heap.isLive_iff.mpr ⟨o, ho⟩
    have hreached := (Heap.isLive_collect hw _ r).mp hr
    exact (Heap.isLive_collect hw _ s).mpr
      (hreached.step (Heap.get?_of_get?_collect hw ho) hs hl)
  roots r hr hl := (Heap.isLive_collect hw _ r).mpr (.root hr hl)

theorem tied_sheds (hm : T.Machines m) {m' : ι → Machine} (hs : ∀ i, Sheds (m i) (m' i)) :
    (T.within fun i => (m' i).heap).Machines m' := by
  have hh : (T.within fun i => (m' i).heap).Heaps fun i => (m' i).heap :=
    hm.heap.lose (fun i => (hs i).wellFormed) (fun i => (hs i).old) fun i => (hs i).references
  have ho : (T.within fun i => (m' i).heap).Outside m := by
    refine hm.outside.pass
      ⟨fun k r hr hroot => ⟨hr, fun i => ?_⟩, fun r c hc hroot => ⟨hc, fun i => ?_⟩⟩
    · exact (hs i).roots _ (hroot i) (hm.heap.isLive hr i)
    · exact (hs i).roots _ (hroot i) (hm.heap.isLive ((hm.heap.chunk r c).mp hc).1 i)
  have hm' : m' = fun i => { m i with heap := (m' i).heap } := funext fun i => (hs i).outside
  rw [hm']
  exact ⟨hh, { ho with }⟩

theorem agree_collect (hm : T.Machines m) :
    Agree m (fun _ => discard Machine.collect)
      ⟨fun T' _ _ => Each T'.Events fun i => (m i).events, fun _ => True⟩ := by
  have hm' := tied_sheds hm fun i => sheds_collected (hm.heap.wellFormed i)
  refine agree_ok (a := fun _ => ()) hm' hm'.outside.events fun i => ?_
  simp only [discard_eq_bind, bind_apply, collect_apply, pure_apply]

theorem collectIfDue_apply (m : Machine) :
    collectIfDue m = .ok () (if m.collectionDue then m.collected else m) := by
  simp only [collectIfDue, bind_apply, get_apply]
  split
  · simp only [discard_eq_bind, bind_apply, collect_apply, pure_apply]
  · rfl

/-- Machines may collect on their own. -/
theorem agree_collectIfDue (hm : T.Machines m) :
    Agree m (fun _ => collectIfDue) (Anyhow fun _ _ => True) := by
  refine agree_ok (a := fun _ => ()) (tied_sheds hm fun i => ?_) trivial
    fun i => collectIfDue_apply (m i)
  split
  · exact sheds_collected (hm.heap.wellFormed i)
  · exact sheds_refl (hm.heap.wellFormed i)

/-! ## Events -/

theorem agree_fire (hm : T.Machines m) {f : Timers → Timers × List Event}
    (hf : T.Clocks (fun i => (f (m i).timers).1) ∧ Each T.Events fun i => (f (m i).timers).2) :
    Agree m (fun _ => fire f) (Stays T fun _ => True) :=
  agree_modify ⟨hm.heap, { hm.outside with
    timers := hf.1
    events := hm.outside.events.append hf.2 }⟩

/-- Of the events none loses its ties. -/
theorem agree_handle (hm : T.Machines m) {e : ι → Event} (he : T.Events e) :
    Agree m (fun i => handle (e i))
      ⟨fun T' _ _ => Each T'.Events fun i => (m i).events, fun _ => True⟩ := by
  cases he with
  | resume hr =>
    refine (agree_resume hm hr).imp (fun T' _ m' h => ?_) fun _ _ => trivial
    rw [h.1]
    exact hm.outside.events
  | collect => exact agree_collect hm

theorem agree_handleAll (hm : T.Machines m) {events : ι → List Event}
    (he : Each T.Events events) :
    Agree m (fun i => handleAll (events i)) (Anyhow fun _ _ => True) := by
  obtain ⟨n, hn⟩ := he.length
  induction n generalizing T m events with
  | zero =>
    simp only [List.length_eq_zero_iff] at hn
    simp only [hn]
    exact agree_pure hm trivial
  | succ n ih =>
    rcases he.cases with hnil | ⟨e, rest, he, hrest, hcons⟩
    · simp only [hnil]
      exact agree_pure hm trivial
    · simp only [hcons, List.length_cons, Nat.add_right_cancel_iff] at hn ⊢
      have hm₁ : T.Machines fun i => { m i with events := rest i } :=
        ⟨hm.heap, { hm.outside with events := hrest }⟩
      refine agree_set ((agree_handle hm₁ he).bind inferInstance
        (fun T' _ m₂ hm₂ hevents => ?_) fun _ h => h)
      exact ih hm₂ hevents hn

theorem agree_findFiber [Inhabited ι] (hm : T.Machines m) (n : Nat) :
    Agree m (fun _ => findFiber n) (Anyhow fun _ => Same) := by
  induction n generalizing T m with
  | zero => exact agree_throw hm nofun
  | succ n ih =>
    refine (agree_fire hm hm.outside.timers.poll).nextBy (fun _ _ => .parts)
      fun _ m₁ hm₁ _ => agree_get ?_
    refine (agree_handleAll hm₁ (Machines.outside hm₁).events).afterBy (fun _ _ => .parts)
      fun T₂ _ m₂ hm₂ _ => ?_
    obtain ⟨runs, hruns⟩ := (Machines.outside hm₂).running.isSome
    refine agree_get ?_
    simp only [hruns]
    split
    · exact agree_pure hm₂ (.const true)
    · refine (agree_startReady hm₂).next fun started m₃ hm₃ hstarted => ?_
      obtain ⟨started, hstarted⟩ := hstarted
      obtain ⟨active, hactive⟩ := (Machines.outside hm₃).timers.active
      obtain ⟨root, hroot⟩ := (Machines.outside hm₃).root.isSome
      have hnone : ∀ i, (m₃ i).root.isNone = !root := by
        intro i
        rw [← hroot i, Option.not_isSome]
      simp only [hstarted]
      split
      · exact ih hm₃
      · refine agree_get ?_
        simp only [hactive]
        split
        · exact (agree_fire hm₃ (Machines.outside hm₃).timers.wait).next fun _ _ hm₄ _ => ih hm₄
        · refine agree_get ?_
          simp only [hnone]
          split
          · exact agree_pure hm₃ (.const false)
          · exact agree_throw hm₃ nofun

theorem agree_safePoint [Inhabited ι] (hm : T.Machines m) :
    Agree m (fun _ => safePoint) (Anyhow fun _ => Same) := by
  obtain ⟨active, hactive⟩ := hm.outside.timers.active
  refine agree_get ?_
  simp only [hactive]
  refine (agree_findFiber hm _).after fun T₁ found m₁ hm₁ hfound => ?_
  obtain ⟨found, hfound⟩ := hfound
  simp only [hfound]
  cases found with
  | true =>
    refine (agree_collectIfDue hm₁).after fun T₂ _ m₂ hm₂ _ => ?_
    exact agree_pure hm₂ (.const true)
  | false => exact agree_pure hm₁ (.const false)

end Machine
end FiberMachine
