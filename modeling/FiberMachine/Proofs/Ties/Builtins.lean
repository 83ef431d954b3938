import FiberMachine.Machine.Calls
import FiberMachine.Proofs.Ties.Fibers
import FiberMachine.Proofs.Ties.Json

/-!
# Native functions side by side

The built-in functions that work on the machine see its clock and its host, which are the
same for all. Functions of the host may collect, so after them only what the machine
still holds is known to be tied: above all the operands, which they leave alone.
-/

namespace FiberMachine

variable {ι : Type} {T : Ties ι} {m : ι → Machine} {v w : ι → Value} {k : Kind} {r : ι → Handle}

open Ties

/-! ## Built-in functions -/

theorem agree_onHost (hm : T.Machines m) {α : Type} (f : Host → α × Host) :
    Agree m (fun _ => Machine.onHost f) (Stays T Same) := by
  obtain ⟨host, hhost⟩ := hm.outside.host
  have hm' : T.Machines fun i => { m i with host := (f host).2 } :=
    ⟨hm.heap, { hm.outside with host := .const (f host).2 }⟩
  refine agree_ok (a := fun _ => (f host).1) hm' ⟨rfl, .const _⟩ fun i => ?_
  simp only [Machine.onHost, hhost]

namespace NativeCall

variable {c : ι → NativeCall}

theorem same_line [Inhabited ι] {h : ι → Heap} (hT : T.Heaps h) (hc : T.Calls c) :
    Same fun i => (c i).line (h i) := by
  obtain ⟨name, args, hargs, hc⟩ := hc
  simp only [hc, line]
  have hwords : Each Same fun i => (args i).map (h i).display :=
    hargs.map (fun i => (h i).display) fun v hv => hT.display hv
  exact hwords.same.map (" ".intercalate ·)

theorem agree_print [Inhabited ι] (hm : T.Machines m) (hc : T.Calls c) (ending : String) :
    Agree m (fun i => (c i).print ending) T.Yields := by
  obtain ⟨text, htext⟩ := same_line hm.heap hc
  refine agree_get ?_
  simp only [htext]
  exact (agree_onHost hm _).next fun _ _ hm₁ _ => agree_yield hm₁ values_nil

theorem agree_input (hm : T.Machines m) : Agree m (fun _ => input) T.Yields := by
  refine (agree_onHost hm _).next fun line m₁ hm₁ hline => ?_
  obtain ⟨line, hline⟩ := hline
  simp only [hline]
  exact (Machine.agree_intern hm₁ line).grow fun _ _ _ _ hm₂ hr => agree_yield hm₂ (.object hr)

theorem agree_fileExists (hm : T.Machines m) (hc : T.Calls c) :
    Agree m (fun i => (c i).fileExists) T.Yields := by
  refine (agree_lift_stays hm (agree_text hm.heap hc 0)).next fun path m₁ hm₁ hpath => ?_
  obtain ⟨path, hpath⟩ := hpath
  simp only [hpath]
  refine (agree_onHost hm₁ _).next fun contents m₂ hm₂ hcontents => ?_
  obtain ⟨contents, hcontents⟩ := hcontents
  simp only [hcontents]
  exact agree_yield hm₂ (values_ofBool _)

theorem agree_fileText (hm : T.Machines m) (hc : T.Calls c) :
    Agree m (fun i => (c i).fileText) T.Yields := by
  refine (agree_lift_stays hm (agree_text hm.heap hc 0)).next fun path m₁ hm₁ hpath => ?_
  obtain ⟨path, hpath⟩ := hpath
  simp only [hpath]
  refine (agree_onHost hm₁ _).next fun contents m₂ hm₂ hcontents => ?_
  obtain ⟨contents, hcontents⟩ := hcontents
  simp only [hcontents]
  split
  · exact agree_yield hm₂ values_nil
  · exact (Machine.agree_intern hm₂ contents).grow fun _ _ _ _ hm₃ hr =>
      agree_yield hm₃ (.object hr)

theorem agree_clock (hm : T.Machines m) : Agree m (fun _ => clock) T.Yields := by
  obtain ⟨now, hnow⟩ := hm.outside.timers.now
  refine agree_get ?_
  simp only [hnow]
  exact agree_yield hm (values_ofFloat _)

theorem agree_now (hm : T.Machines m) : Agree m (fun _ => now) T.Yields := by
  refine (agree_onHost hm _).nextBy (fun _ _ => by split <;> infer_instance)
    fun time m₁ (hm₁ : T.Machines m₁) htime => ?_
  obtain ⟨time, htime⟩ := htime
  simp only [htime]
  split
  · exact agree_throw hm₁ (by simp)
  · exact agree_yield hm₁ (values_ofFloat _)

end NativeCall

theorem agree_builtin [Inhabited ι] (hm : T.Machines m) (b : Builtin) {args : ι → List Value}
    (hargs : Each T.Values args) : Agree m (fun i => b.run (args i)) T.Yields := by
  have hc : T.Calls fun i => ⟨b.name, args i⟩ := ⟨_, args, hargs, fun _ => rfl⟩
  have hh := hm.heap
  cases b with
  | newDictionary =>
    exact (Machine.agree_alloc hm (.dictionary .empty) (by simp)).grow fun _ _ _ _ hm₁ hr =>
      agree_yield hm₁ (.object hr)
  | newList =>
    have hnil : Each T.Values fun _ => [] := .nil
    exact (Machine.agree_alloc hm (.array hnil) (by simp)).grow
      fun _ _ _ _ hm₁ hr => agree_yield hm₁ (.object hr)
  | arrayLength => exact agree_lift hm (NativeCall.agree_arrayLength hh hc)
  | arrayAppend => exact agree_lift hm (NativeCall.agree_arrayAppend hh hc)
  | arrayPop => exact agree_lift hm (NativeCall.agree_arrayPop hh hc)
  | spanExpand => exact agree_lift hm (NativeCall.agree_spanExpand hh hc)
  | spanStep => exact agree_lift hm (NativeCall.agree_spanStep hh hc)
  | dictPut => exact agree_lift hm (NativeCall.agree_dictPut hh hc)
  | dictGet => exact agree_lift hm (NativeCall.agree_dictGet hh hc)
  | dictHas => exact agree_lift hm (NativeCall.agree_dictHas hh hc)
  | dictRemove => exact agree_lift hm (NativeCall.agree_dictRemove hh hc)
  | dictSize => exact agree_lift hm (NativeCall.agree_dictSize hh hc)
  | dictKeys => exact agree_lift hm (NativeCall.agree_dictKeys hh hc)
  | textLength => exact agree_lift hm (NativeCall.agree_textLength hh hc)
  | print => exact NativeCall.agree_print hm hc ""
  | printLine => exact NativeCall.agree_print hm hc "\n"
  | input => exact NativeCall.agree_input hm
  | now => exact NativeCall.agree_now hm
  | clock => exact NativeCall.agree_clock hm
  | jsonParse =>
    obtain ⟨host, hhost⟩ := hm.outside.host
    refine agree_get ?_
    simp only [hhost]
    exact agree_lift hm (NativeCall.agree_jsonParse host.json hh hc)
  | jsonStringify =>
    obtain ⟨host, hhost⟩ := hm.outside.host
    refine agree_get ?_
    simp only [hhost]
    exact agree_lift hm (NativeCall.agree_jsonStringify host.json hh hc)
  | fileExists => exact NativeCall.agree_fileExists hm hc
  | fileText => exact NativeCall.agree_fileText hm hc
  | unary f =>
    refine (agree_lift_stays hm (NativeCall.agree_number hh hc 0)).next fun x m₁ hm₁ hx => ?_
    obtain ⟨x, hx⟩ := hx
    simp only [hx]
    exact agree_yield hm₁ (values_ofFloat _)
  | binary f =>
    refine (agree_lift_stays hm (NativeCall.agree_number hh hc 0)).next
      fun x m₁ (hm₁ : T.Machines m₁) hx => ?_
    refine (agree_lift_stays hm₁ (NativeCall.agree_number hm₁.heap hc 1)).next
      fun y m₂ hm₂ hy => ?_
    obtain ⟨x, hx⟩ := hx
    obtain ⟨y, hy⟩ := hy
    simp only [hx, hy]
    exact agree_yield hm₂ (values_ofFloat _)

/-! ## Functions of the host -/

/-- Calls of the host's functions on tied machines agree and keep the operands. -/
structure HostFunctions.Agrees (host : HostFunctions) (ι : Type) : Prop where
  agree : ∀ {T : Ties ι} {m : ι → Machine} {args : ι → List Value} (id : Nat), T.Machines m →
    Each T.Values args → Agree m (fun i => host.call id (args i)) (Anyhow fun T' v => T'.Values v)
  running : ∀ id args, Makes Machine.SameRunning (host.call id args)
  tends : ∀ id args, Makes Machine.Tends (host.call id args)

namespace Machine

/-- The operand that the running fiber has at an index. -/
def operand? (m : Machine) (n : Nat) : Option Value :=
  m.running.bind fun t => t.fiber.stack.values[n]?

/-- What the running fibers have among their operands is tied. -/
def Holds (m : ι → Machine) (T : Ties ι) : Prop :=
  ∀ n v, (∀ i, (m i).operand? n = some (v i)) → T.Values v

theorem holds_of_machines [Inhabited ι] {m' : ι → Machine} (hm : T.Machines m')
    (hr : ∀ i, (m' i).running = (m i).running) : Holds m T := by
  intro n v hv
  simp only [operand?, ← hr] at hv
  rcases hm.outside.running.cases with hnone | ⟨t, ht, hsome⟩
  · simp [hnone] at hv
  · cases ht with
    | mk _ hf =>
      simp only [hsome, Option.bind_some] at hv
      rcases (hf.stack.values.getElem? n).cases with hnone | ⟨w, hw, hw'⟩
      · simp [hnone] at hv
      · obtain rfl : w = v := funext fun i => Option.some.inj ((hw' i).symm.trans (hv i))
        exact hw

theorem Holds.of_running {m' : ι → Machine} (hm : Holds m' T)
    (hr : ∀ i, (m' i).running = (m i).running) : Holds m T := by
  intro n v hv
  refine hm n v fun i => ?_
  rw [operand?, hr i]
  exact hv i

variable {host : HostFunctions} [Inhabited ι]

theorem agree_runNative (hh : host.Agrees ι) (hm : T.Machines m) (n : Native)
    {args : ι → List Value} (hargs : Each T.Values args) :
    Agree m (fun i => runNative host n (args i))
      ⟨fun T' v _ => T'.Values v ∧ Holds m T', fun _ => True⟩ := by
  have hrun : Agree m (fun i => runNative host n (args i)) (Anyhow fun T' v => T'.Values v) := by
    simp only [runNative]
    cases n.code with
    | builtin b => exact (agree_builtin hm b hargs).anyhow
    | host id => exact hh.agree id hm hargs
  have hsame : ∀ i, Makes SameRunning (runNative host n (args i)) := by
    intro i
    simp only [runNative]
    cases n.code with
    | builtin b => exact inferInstanceAs (Makes SameRunning (b.run (args i)))
    | host id => exact hh.running id (args i)
  intro hfit
  rcases (hrun.makes hsame) hfit with ⟨T', v, m', hm', ⟨hv, hrow⟩, hok⟩ | hfail
  · exact Or.inl ⟨T', v, m', hm',
      ⟨hv, holds_of_machines hm' fun i => sameRunning_of_row (hrow i)⟩, hok⟩
  · exact Or.inr hfail

end Machine
end FiberMachine
