import FiberMachine.Proofs.Machine.Loading

/-!
# What a machine holds

A machine holds what its roots name, and what is named by an object that it holds. In a sound
machine all of that is live, so no collection has taken anything that could still be used.
-/

namespace FiberMachine

namespace Heap

variable {h : Heap} {r : Handle}

/-- The handles are those of live objects. -/
def AllLive (h : Heap) (rs : List Handle) : Prop := ∀ r ∈ rs, h.isLive r

namespace AllLive

variable {rs rs' : List Handle} {v : Value}

theorem append (hr : h.AllLive rs) (hr' : h.AllLive rs') : h.AllLive (rs ++ rs') :=
  List.forall_mem_append.mpr ⟨hr, hr'⟩

theorem cons (hr : h.isLive r) (hrs : h.AllLive rs) : h.AllLive (r :: rs) :=
  List.forall_mem_cons.mpr ⟨hr, hrs⟩

theorem nil : h.AllLive [] := List.forall_mem_nil _

theorem optional {k : Kind} {r? : Option Handle} (hr : ∀ r ∈ r?, h.Has k r) :
    h.AllLive r?.toList := fun r hmem => (hr r (Option.mem_toList.mp hmem)).isLive

theorem value (hv : h.Keeps v) : h.AllLive v.toHandle?.toList :=
  fun r hmem => hv r (Option.mem_toList.mp hmem)

theorem values {vs : List Value} (hvs : ∀ v ∈ vs, h.Keeps v) :
    h.AllLive (Body.valueHandles vs) := by
  intro r hr
  obtain ⟨v, hv, hr⟩ := List.mem_filterMap.mp hr
  exact hvs v hv r hr

theorem members {members : Members} (hm : h.KeepsMembers members) :
    h.AllLive (Body.memberHandles members) := by
  intro r hr
  obtain ⟨e, he, hr⟩ := List.mem_flatMap.mp hr
  obtain ⟨hname, hv⟩ := hm e he
  exact cons hname.isLive (value hv) r hr

theorem fiber {f : Fiber} (hf : h.KeepsFiber f) : h.AllLive f.references := by
  refine (((optional hf.caller).append (optional hf.module)).append (values hf.stack)).append ?_
  intro r hr
  obtain ⟨frame, hmem, hr⟩ := List.mem_flatMap.mp hr
  have hframe := hf.frames frame hmem
  exact cons hframe.function.isLive (optional hframe.scope) r hr

theorem body {b : Body} (hb : h.KeepsBody b) : h.AllLive b.references := by
  cases b with
  | text | native | span | userData => exact nil
  | array items => exact values hb
  | dictionary entries =>
    refine values fun v hv => ?_
    obtain ⟨e, he, hv⟩ := List.mem_flatMap.mp hv
    obtain ⟨hkey, hvalue⟩ := hb e he
    rcases List.mem_pair.mp hv with rfl | rfl
    · exact hkey
    · exact hvalue
  | function f =>
    exact (cons hb.name.isLive (values hb.constants)).append (optional hb.module)
  | classObject name => exact cons hb.isLive nil
  | instanceOf cls fields => exact cons hb.1.isLive (members hb.2)
  | boundMethod receiver method =>
    exact (value hb.1).append (cons (hb.2.elim Has.isLive Has.isLive) nil)
  | module name caller => exact cons hb.1.isLive (optional hb.2)
  | fiber b =>
    cases b with
    | none => exact nil
    | some f => exact fiber (hb f rfl)

theorem object {o : Object} (ho : h.KeepsObject o) : h.AllLive o.references :=
  (members ho.members).append (body ho.body)

end AllLive

end Heap

namespace Machine

variable {m : Machine} {r : Handle}

/-- What is named by the roots, or by an object that is held. -/
inductive Held (m : Machine) : Handle → Prop
  | root {r : Handle} : r ∈ m.roots → Held m r
  | named {r s : Handle} {o : Object} : Held m r → m.heap.get? r = some o → s ∈ o.references →
      Held m s

theorem Sound.roots (hs : m.Sound) : m.heap.AllLive m.roots := by
  have hrunning : m.heap.AllLive ((m.running.map Running.references).getD []) := by
    cases ht : m.running with
    | none => exact .nil
    | some t =>
      obtain ⟨hid, hfiber⟩ := hs.running t ht
      exact .cons hid.isLive (.fiber hfiber)
  have hevents : m.heap.AllLive (m.events.filterMap Event.fiber?) := fun r hr => by
    obtain ⟨e, he, hr⟩ := List.mem_filterMap.mp hr
    exact hs.events e he r hr
  have hmethods : m.heap.AllLive (methodHandles m.methods) := fun r hr => by
    obtain ⟨e, he, hr⟩ := List.mem_flatMap.mp hr
    exact Heap.AllLive.members (hs.methods e he) r hr
  have hqueues := (hrunning.append (.optional hs.root)).append fun r hr => (hs.ready r hr).isLive
  have hqueues := (hqueues.append hevents).append fun r hr => (hs.timers r hr).isLive
  have hqueues := hqueues.append fun r hr => (hs.loading r hr).isLive
  exact ((hqueues.append (.members hs.globals)).append (.members hs.modules)).append hmethods

/-- What a sound machine holds is live. -/
theorem Held.isLive (hr : m.Held r) (hs : m.Sound) : m.heap.isLive r := by
  cases hr with
  | root hr => exact hs.roots r hr
  | named _ ho hr => exact Heap.AllLive.object (hs.objects _ _ ho) r hr

end Machine

end FiberMachine
