import FiberMachine.Machine.Fibers
import FiberMachine.Proofs.Ties.Operands

/-!
# Scopes side by side

Names are looked up by tied handles, so the same definitions are found and changed.
-/

namespace FiberMachine

variable {ι : Type} {T : Ties ι} {m : ι → Machine} {v : ι → Value} {name : ι → Handle}
  {scope : ι → Option Handle}

open Ties

namespace Machine

/-! ## Scopes -/

theorem agree_scope (hm : T.Machines m) :
    Agree m (fun _ => Machine.scope) (Stays T (Maybe (T.handles .module))) :=
  (agree_frame hm).next fun _ _ hm₁ hf => agree_pure hm₁ ⟨rfl, hf.scope⟩

/-- Definitions go into modules, and into classes that a host brings along. -/
theorem agree_define {k : Kind} (hm : T.Machines m) (hs : Maybe (T.handles k) scope)
    (hn : T.handles .text name) (hv : T.Values v) (htext : k ≠ .text)
    (hfunction : k ≠ .function) :
    Agree m (fun i => define (scope i) (name i) (v i)) (Stays T fun _ => True) := by
  rcases hs.cases with hnone | ⟨module, hmodule, hsome⟩
  · simp only [define, hnone]
    refine agree_modify ⟨hm.heap, { hm.outside with globals := ?_ }⟩
    exact Rows.insert hm.outside.globals (hm.heap.apart_handles .text) hn hv
  · simp only [define, hsome]
    exact agree_change hm hmodule htext hfunction fun o ho => objects_insertMember hm.heap hn hv ho

theorem agree_scopeMembers (hm : T.Machines m) :
    Agree m (fun _ => scopeMembers) (Stays T T.Fields) := by
  refine (agree_scope hm).nextBy (fun _ _ => by split <;> infer_instance)
    fun scope m₁ hm₁ hs => ?_
  rcases hs.cases with hnone | ⟨module, hmodule, hsome⟩
  · simp only [hnone]
    exact agree_pure hm₁ ⟨rfl, .empty⟩
  · simp only [hsome]
    refine agree_get ((agree_settled hm₁ (Heaps.get hm₁.heap hmodule)).next fun o m₂ hm₂ ho => ?_)
    exact agree_pure hm₂ ⟨rfl, ho.members⟩

theorem agree_global (hm : T.Machines m) (hn : T.handles .text name) :
    Agree m (fun i => global (name i)) (Stays T T.Values) := by
  refine (agree_scopeMembers hm).nextBy (fun _ _ => .andThen fun _ => by split <;> infer_instance)
    fun members m₁ hm₁ hmembers => agree_get ?_
  have hapart := hm₁.heap.apart_handles .text
  rcases (Rows.find? hmembers hapart hn).cases with hnone | ⟨v, hv, hsome⟩
  · rcases (Rows.find? hm₁.outside.globals hapart hn).cases with hnone' | ⟨v, hv, hsome⟩
    · obtain ⟨text, htext⟩ := hm₁.nameText hn
      simp only [hnone, hnone', htext]
      exact agree_throw hm₁ nofun
    · simp only [hnone, hsome]
      exact agree_pure hm₁ ⟨rfl, hv⟩
  · simp only [hsome]
    exact agree_pure hm₁ ⟨rfl, hv⟩

theorem agree_assignGlobal (hm : T.Machines m) (hn : T.handles .text name) (hv : T.Values v) :
    Agree m (fun i => assignGlobal (name i) (v i)) (Stays T fun _ => True) := by
  refine (agree_scopeMembers hm).next fun members m₁ hm₁ hmembers => agree_get ?_
  have hapart := hm₁.heap.apart_handles .text
  obtain ⟨inScope, hscope⟩ := Rows.contains hmembers hapart hn
  obtain ⟨inGlobals, hglobals⟩ := Rows.contains hm₁.outside.globals hapart hn
  obtain ⟨text, htext⟩ := hm₁.nameText hn
  simp only [hscope, hglobals, htext]
  split
  · exact (agree_scope hm₁).next fun scope m₂ hm₂ hs => agree_define hm₂ hs hn hv nofun nofun
  · split
    · exact agree_define (k := .module) hm₁ .none hn hv nofun nofun
    · exact agree_throw hm₁ nofun

theorem agree_recordExport (hm : T.Machines m) (hn : T.handles .text name) :
    Agree m (fun i => recordExport (name i)) (Stays T fun _ => True) := by
  obtain ⟨text, htext⟩ := hm.nameText hn
  obtain ⟨exported, hexported⟩ := hm.outside.exported
  refine agree_modify ?_
  simp only [htext, hexported]
  split
  · exact hm
  · exact ⟨hm.heap, { hm.outside with exported := .const _ }⟩

theorem agree_completeModule (hm : T.Machines m) {module : ι → Handle}
    (hmodule : T.handles .module module) :
    Agree m (fun i => completeModule (module i)) (Stays T fun _ => True) := by
  have hloading : Each (T.handles .module)
      fun i => (m i).loading.filter (· != module i) :=
    hm.outside.loading.filter fun r hr => hm.heap.same_ne hr hmodule
  refine (agree_modify ⟨hm.heap, { hm.outside with loading := hloading }⟩).next
    fun _ m₁ hm₁ _ => agree_get ?_
  refine (agree_settled hm₁ (Heaps.module hm₁.heap hmodule)).next fun p m₂ hm₂ hp => ?_
  refine (agree_define hm₂ hp.2 hp.1 (.object hmodule) nofun nofun).next fun _ m₃ hm₃ _ => ?_
  exact agree_define (k := .module) hm₃ .none hp.1 (.object hmodule) nofun nofun

end Machine
end FiberMachine
