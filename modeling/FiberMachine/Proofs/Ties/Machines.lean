import FiberMachine.Proofs.Ties.Natives

/-!
# Machines side by side

Machines are tied when their heaps are and when all the handles they hold themselves are
tied as well. They may differ in how and when they collect, and in nothing else that a
program could see.
-/

namespace FiberMachine

/-- A configuration but for what it says about collections. -/
def Config.habits (c : Config) : Config :=
  { c with collectAt := 0, collectGrowth := 0, collectAlways := false }

variable {ι : Type}

namespace Ties

inductive Runnings (T : Ties ι) : (ι → Running) → Prop
  | mk {id : ι → Handle} {fiber : ι → Fiber} : T.handles .fiber id → T.Fibers fiber →
      Runnings T fun i => ⟨id i, fiber i⟩

/-- An event may resume what is no fiber, which does nothing. -/
inductive Events (T : Ties ι) : (ι → Event) → Prop
  | resume {r : ι → Handle} : T.Handled r → Events T fun i => .resume (r i)
  | collect : Events T fun _ => .collect

inductive Alarms (T : Ties ι) : (ι → Timer) → Prop
  | mk {deadline : Duration} {sequence : Nat} {fiber : ι → Handle} : T.handles .fiber fiber →
      Alarms T fun i => ⟨deadline, sequence, fiber i⟩

structure Clocks (T : Ties ι) (t : ι → Timers) : Prop where
  now : Same fun i => (t i).now
  sequence : Same fun i => (t i).nextSequence
  pending : Each T.Alarms fun i => (t i).pending

/-- What machines hold outside their heaps. -/
structure Outside (T : Ties ι) (m : ι → Machine) : Prop where
  config : Same fun i => (m i).config.habits
  globals : T.Fields fun i => (m i).globals
  modules : T.Fields fun i => (m i).modules
  methods : Rows Same T.Fields fun i => (m i).methods
  loading : Each (T.handles .module) fun i => (m i).loading
  running : Maybe T.Runnings fun i => (m i).running
  root : Maybe (T.handles .fiber) fun i => (m i).root
  ready : Each (T.handles .fiber) fun i => (m i).ready
  events : Each T.Events fun i => (m i).events
  timers : T.Clocks fun i => (m i).timers
  host : Same fun i => (m i).host
  library : Same fun i => (m i).library
  exported : Same fun i => (m i).exported

structure Machines (T : Ties ι) (m : ι → Machine) : Prop where
  heap : T.Heaps fun i => (m i).heap
  outside : T.Outside m

variable {T T' : Ties ι} {m : ι → Machine}

theorem Events.pass {e : ι → Event} (he : T.Events e)
    (h : Pass T T' fun i => (e i).fiber?.toList) : T'.Events e := by
  cases he with
  | resume hr =>
    obtain ⟨k, hr⟩ := hr
    exact .resume ⟨k, h.handle hr fun i => by simp [Event.fiber?]⟩
  | collect => exact .collect

theorem Outside.pass (hm : T.Outside m) (h : Pass T T' fun i => (m i).roots) : T'.Outside m where
  config := hm.config
  globals := hm.globals.pass (h.sub fun i r hr => by simp [Machine.roots, hr])
  modules := hm.modules.pass (h.sub fun i r hr => by simp [Machine.roots, hr])
  methods := Each.imp hm.methods fun e he ht => ⟨ht.1, ht.2.pass (h.sub fun i r hr => by
    have hmem : r ∈ Machine.methodHandles (m i).methods := List.mem_flatMap.mpr ⟨e i, he i, hr⟩
    simp [Machine.roots, hmem])⟩
  loading := h.each hm.loading fun i r hr => by simp [Machine.roots, hr]
  running := hm.running.imp fun t ht hr => by
    cases hr with
    | mk hid hf =>
      refine .mk (h.handle hid fun i => ?_) (hf.pass (h.sub fun i r hr => ?_))
      · simp [Machine.roots, ht i, Running.references]
      · simp [Machine.roots, ht i, Running.references, hr]
  root := h.maybe hm.root fun i r hr => by
    simp only [Option.mem_toList] at hr
    simp [Machine.roots, hr]
  ready := h.each hm.ready fun i r hr => by simp [Machine.roots, hr]
  events := hm.events.imp fun e he ht => ht.pass (h.sub fun i r hr => by
    have hmem : r ∈ (m i).events.filterMap Event.fiber? :=
      List.mem_filterMap.mpr ⟨e i, he i, Option.mem_toList.mp hr⟩
    simp only [Machine.roots, List.mem_append, hmem, true_or, or_true])
  timers := ⟨hm.timers.now, hm.timers.sequence, hm.timers.pending.imp fun t ht ha => by
    cases ha with
    | @mk _ _ fiber hf =>
      refine .mk (h.handle hf fun i => ?_)
      have hmem : fiber i ∈ (m i).timers.pending.map Timer.fiber :=
        List.mem_map.mpr ⟨_, ht i, rfl⟩
      simp only [Machine.roots, Timers.fibers, List.mem_append, hmem, true_or, or_true]⟩
  host := hm.host
  library := hm.library
  exported := hm.exported

theorem Outside.mono (hm : T.Outside m) (h : Within T T') : T'.Outside m := hm.pass (h.pass _)

theorem Machines.withHeap (hm : T.Machines m) (hle : Within T T') {h : ι → Heap}
    (hh : T'.Heaps h) : T'.Machines fun i => { m i with heap := h i } := by
  have ho := hm.outside.mono hle
  exact ⟨hh, { ho with }⟩

theorem Machines.withRunning (hm : T.Machines m) {t : ι → Option Running}
    (ht : Maybe T.Runnings t) : T.Machines fun i => { m i with running := t i } :=
  ⟨hm.heap, { hm.outside with running := ht }⟩

theorem Machines.nameText (hm : T.Machines m) {k : Kind} {r : ι → Handle} (hr : T.handles k r) :
    Same fun i => (m i).nameText (r i) := hm.heap.nameText hr "?"

end Ties

instance : Store Machine := ⟨Machine.room, fun T m => T.Machines m⟩

instance (priority := low) {α : Type} (x : Machine.Act α) [hx : Makes Machine.Tends x] :
    Grows x := ⟨fun m => Machine.room_le_after x m⟩

instance {α : Type} (x : Heap.Act α) [hx : Grows x] : Grows (liftM x : Machine.Act α) := by
  refine ⟨fun m => ?_⟩
  rw [Machine.after_lift]
  exact hx.room_le m.heap

instance (b : Body) : Grows (Machine.alloc b) := by
  unfold Machine.alloc
  infer_instance

instance (r : Handle) (f : Object → Object) : Grows (Machine.change r f) := by
  unfold Machine.change
  infer_instance

/-! ## Actions on the heaps -/

variable {α : Type} {T : Ties ι} {m : ι → Machine} {x : ι → Heap.Act α} {P : (ι → α) → Prop}
  {G : Ties ι → (ι → α) → Prop} {k : Kind} {r : ι → Handle}

open Ties Machine

theorem Agree.lift {Q : Post ι Heap α} {R : Post ι Machine α} (hm : T.Machines m)
    (hx : Agree (fun i => (m i).heap) x Q)
    (hends : ∀ T' a h', Q.ends T' a h' →
      T.Within T' ∧ R.ends T' a fun i => { m i with heap := h' i })
    (hfails : ∀ T', Q.fails T' → T.Within T' ∧ R.fails T') :
    Agree m (fun i => (liftM (x i) : Act α)) R := by
  intro hfit
  simp only [lift_apply]
  simp only [after_lift] at hfit
  rcases hx hfit with ⟨T', a, h', hT, hQ, hok⟩ | ⟨T', e, h', hT, hQ, he, herr⟩
  · obtain ⟨hle, hR⟩ := hends T' a h' hQ
    exact Or.inl ⟨T', a, _, hm.withHeap hle hT, hR, fun i => by simp only [hok]⟩
  · obtain ⟨hle, hR⟩ := hfails T' hQ
    exact Or.inr ⟨T', e, _, hm.withHeap hle hT, hR, he, fun i => by simp only [herr]⟩

theorem agree_lift (hm : T.Machines m) (hx : Agree (fun i => (m i).heap) x (Grown T G)) :
    Agree m (fun i => (liftM (x i) : Act α)) (Grown T G) :=
  hx.lift hm (fun _ _ _ h => ⟨h.1, h⟩) fun _ h => ⟨h, h⟩

theorem agree_lift_stays (hm : T.Machines m) (hx : Agree (fun i => (m i).heap) x (Stays T P)) :
    Agree m (fun i => (liftM (x i) : Act α)) (Stays T P) :=
  hx.lift hm (fun _ _ _ h => ⟨h.1 ▸ .refl _, h⟩) fun _ h => ⟨h, h⟩

namespace Machine

theorem agree_intern (hm : T.Machines m) (s : String) :
    Agree m (fun _ => intern s) (Grown T fun T' r => T'.handles .text r) :=
  agree_lift hm (FiberMachine.agree_intern hm.heap s)

theorem agree_alloc (hm : T.Machines m) {b : ι → Body} (hb : T.Bodies k b) (hk : k ≠ .text) :
    Agree m (fun i => alloc (b i)) (Grown T fun T' r => T'.handles k r) :=
  agree_lift hm (FiberMachine.agree_alloc hm.heap hb hk)

theorem agree_change (hm : T.Machines m) (hr : T.handles k r) (htext : k ≠ .text)
    (hfunction : k ≠ .function) {f : ι → Object → Object}
    (hf : ∀ o, T.Objects k o → T.Objects k fun i => f i (o i)) :
    Agree m (fun i => change (r i) (f i)) (Stays T fun _ => True) :=
  agree_lift_stays hm (FiberMachine.agree_change hm.heap hr htext hfunction hf)

/-- Tied machines that are changed outside their heaps. -/
theorem agree_modify {f : ι → Machine → Machine}
    (hf : T.Machines fun i => f i (m i)) :
    Agree m (fun i => modify (f i)) (Stays T fun _ => True) :=
  agree_ok (a := fun _ => ()) hf ⟨rfl, trivial⟩ fun _ => rfl

theorem agree_object (hm : T.Machines m) (hr : T.handles k r) :
    Agree m (fun i => object (r i)) (Stays T (T.Objects k)) :=
  agree_get (agree_settled hm (hm.heap.get hr))

end Machine
end FiberMachine
