import FiberMachine.Proofs.Ties.Scopes

/-!
# Fibers side by side

A switch moves the body of a fiber between the heap and the machine, and whether it
happens depends on states of fibers only. Timers fire for all machines at once, since
their clocks show the same time.
-/

namespace FiberMachine

variable {ι : Type} {T : Ties ι} {m : ι → Machine}

open Ties

/-! ## Timers -/

namespace Timers

theorem poll_eq (t : Timers) :
    t.poll = ({ t with pending := t.pending.filter fun timer => !isDue t.now timer },
      t.due.map fun timer => .resume timer.fiber) := by
  simp only [poll]
  split
  · rename_i h
    obtain ⟨now, pending, nextSequence⟩ := t
    simp only at h
    subst h
    simp [due]
  · rfl

end Timers

namespace Ties

theorem Alarms.fiber {t : ι → Timer} (ht : T.Alarms t) :
    T.handles .fiber fun i => (t i).fiber := by
  cases ht with
  | mk hf => exact hf

theorem Alarms.deadline {t : ι → Timer} (ht : T.Alarms t) : Same fun i => (t i).deadline := by
  cases ht
  exact .const _

theorem Alarms.before {a b : ι → Timer} (ha : T.Alarms a) (hb : T.Alarms b) :
    Same fun i => Timer.before (a i) (b i) := by
  cases ha with
  | @mk d n _ _ =>
    cases hb with
    | @mk d' n' _ _ => exact ⟨decide (d < d') || d == d' && decide (n ≤ n'), fun _ => rfl⟩

variable {t : ι → Timers}

theorem Clocks.active (ht : T.Clocks t) : Same fun i => (t i).active := ht.pending.length

theorem Clocks.add (ht : T.Clocks t) (delay : Duration) {id : ι → Handle}
    (hid : T.handles .fiber id) : T.Clocks fun i => (t i).add delay (id i) := by
  obtain ⟨now, hnow⟩ := ht.now
  obtain ⟨sequence, hsequence⟩ := ht.sequence
  refine ⟨ht.now, ht.sequence.map (· + 1), ?_⟩
  simp only [Timers.add, hnow, hsequence]
  exact ht.pending.append (.singleton (.mk hid))

theorem Clocks.poll [Inhabited ι] (ht : T.Clocks t) :
    T.Clocks (fun i => (t i).poll.1) ∧ Each T.Events fun i => (t i).poll.2 := by
  obtain ⟨now, hnow⟩ := ht.now
  have hdue : ∀ a, T.Alarms a → Same fun i => Timers.isDue (t i).now (a i) := by
    intro a ha
    simp only [Timers.isDue, hnow]
    exact ha.deadline.map fun deadline => decide (deadline ≤ now)
  simp only [Timers.poll_eq, Timers.due]
  refine ⟨⟨ht.now, ht.sequence, ht.pending.filter fun a ha => (hdue a ha).map not⟩, ?_⟩
  have hfired := (ht.pending.filter hdue).mergeSort Timer.before fun a b => Alarms.before
  exact hfired.map (fun _ timer => Event.resume timer.fiber) fun a ha => .resume ⟨_, ha.fiber⟩

theorem Clocks.wait [Inhabited ι] (ht : T.Clocks t) :
    T.Clocks (fun i => (t i).wait.1) ∧ Each T.Events fun i => (t i).wait.2 := by
  have hdeadlines : Same fun i => (t i).pending.map Timer.deadline :=
    (ht.pending.map (T := Same) (fun _ => Timer.deadline) fun a ha => ha.deadline).same
  obtain ⟨earliest, hearliest⟩ := hdeadlines.map List.min?
  simp only [Timers.wait, Timers.earliest?, hearliest]
  cases earliest with
  | none => exact ht.poll
  | some deadline =>
    exact Clocks.poll ⟨ht.now.map (max · deadline), ht.sequence, ht.pending⟩

end Ties

namespace Machine

/-! ## Fibers -/

theorem objects_withFiber {b : ι → Option Fiber} (hb : Maybe T.Fibers b) {o : ι → Object}
    (ho : T.Objects .fiber o) : T.Objects .fiber fun i => withFiber (b i) (o i) := by
  cases ho with
  | mk hm hbody =>
    cases hbody with
    | fiber _ => exact .mk hm (.fiber hb)

theorem fibers_park {f : ι → Fiber} (hf : T.Fibers f) (state : FiberState) :
    T.Fibers fun i => park state (f i) := by
  cases state with
  | done => exact ((hf.withStack (hf.stack.truncate 0)).withFrames .nil).withState .done
  | _ => exact hf.withState _

theorem parkedState?_of_get? {h : Heap} {r : Handle} {o : Object} (ho : h.get? r = some o)
    {b : Option Fiber} (hb : o.body = .fiber b) : parkedState? h r = b.map Fiber.state := by
  obtain ⟨marked, members, body⟩ := o
  cases hb
  simp only [parkedState?, ho]
  cases b <;> rfl

theorem same_parkedState? {h : ι → Heap} (hT : T.Heaps h) {k : Kind} {r : ι → Handle}
    (hr : T.handles k r) : Same fun i => parkedState? (h i) (r i) := by
  obtain ⟨o, ho, hget⟩ := hT.object hr
  cases ho with
  | mk _ hb =>
    cases hb with
    | fiber hb =>
      have hstate := fun i => parkedState?_of_get? (hget i) rfl
      simp only [hstate]
      rcases hb.cases with hnone | ⟨f, hf, hsome⟩
      · simp only [hnone, Option.map_none]
        exact .const none
      · simp only [hsome, Option.map_some]
        exact hf.state.map some
    | _ =>
      simp only [parkedState?, hget]
      exact .const none

theorem same_stateOf? (hm : T.Machines m) {k : Kind} {r : ι → Handle} (hr : T.handles k r) :
    Same fun i => (m i).stateOf? (r i) := by
  simp only [stateOf?]
  rcases hm.outside.running.cases with hnone | ⟨t, ht, hsome⟩
  · simp only [hnone]
    exact same_parkedState? hm.heap hr
  · cases ht with
    | @mk id f hid hf =>
      simp only [hsome]
      by_cases he : id = r
      · simp only [he, ↓reduceIte]
        exact hf.state.map some
      · have hne : ∀ i, id i ≠ r i := fun i hi => he (hm.heap.apart hid hr i hi).2
        simp only [hne, ↓reduceIte]
        exact same_parkedState? hm.heap hr

theorem agree_enter (hm : T.Machines m) {k : Kind} {r : ι → Handle} (hr : T.handles k r) :
    Agree m (fun i => enter (r i)) (Stays T fun _ => True) := by
  refine agree_get ((agree_settled hm (Heaps.get hm.heap hr)).nextBy
    (fun _ _ => by split <;> infer_instance)
    fun o m₁ hm₁ ho => ?_)
  cases ho with
  | mk _ hb =>
    cases hb with
    | fiber hb =>
      rcases hb.cases with hnone | ⟨f, hf, hsome⟩
      · simp only [hnone]
        exact agree_throw hm₁ (by simp)
      · simp only [hsome]
        refine (agree_change hm₁ hr (by simp) (by simp) fun o ho =>
          objects_withFiber .none ho).next fun _ m₂ hm₂ _ => agree_modify ?_
        exact hm₂.withRunning (.some (.mk hr (hf.withState .running)))
    | _ => exact agree_throw hm₁ (by simp)

theorem agree_leave (hm : T.Machines m) (state : FiberState) :
    Agree m (fun _ => leave state) (Stays T fun _ => True) := by
  refine agree_get ?_
  rcases hm.outside.running.cases with hnone | ⟨t, ht, hsome⟩
  · simp only [hnone]
    exact agree_pure hm ⟨rfl, trivial⟩
  · cases ht with
    | mk hid hf =>
      simp only [hsome]
      refine (agree_modify (hm.withRunning .none)).next fun _ m₁ hm₁ _ => ?_
      exact agree_change hm₁ hid nofun nofun fun o ho =>
        objects_withFiber (.some (fibers_park hf state)) ho

theorem agree_resume (hm : T.Machines m) {r : ι → Handle} (hr : T.Handled r) :
    Agree m (fun i => resume (r i)) (Stays T fun _ => True) := by
  obtain ⟨k, hr⟩ := hr
  have hcurrent : Maybe (T.handles .fiber) fun i => (m i).running.map Running.id :=
    hm.outside.running.map (fun _ => Running.id) fun t ht => by
      cases ht with
      | mk hid _ => exact hid
  have hswitch : Agree m (fun i => leave .waiting >>= fun _ => enter (r i) >>= fun _ =>
      changeFiber fun fiber => { fiber with caller := (m i).running.map Running.id })
      (Stays T fun _ => True) := by
    refine (agree_leave hm .waiting).next fun _ m₁ hm₁ _ => ?_
    refine (agree_enter hm₁ hr).next fun _ m₂ hm₂ _ => ?_
    exact agree_changeFiber hm₂ fun f hf => hf.withCaller hcurrent
  obtain ⟨state, hstate⟩ := same_stateOf? hm hr
  refine agree_get (agree_get ?_)
  simp only [hstate]
  cases state with
  | none => exact agree_pure hm ⟨rfl, trivial⟩
  | some state =>
    cases state with
    | ready | suspended => exact hswitch
    | _ => exact agree_pure hm ⟨rfl, trivial⟩

theorem agree_returnToCaller (hm : T.Machines m) (state : FiberState) :
    Agree m (fun _ => returnToCaller state) (Stays T fun _ => True) := by
  have hcaller : Maybe (T.handles .fiber)
      fun i => (m i).running.bind fun running => running.fiber.caller :=
    hm.outside.running.bind (fun _ running => running.fiber.caller) fun t ht => by
      cases ht with
      | mk _ hf => exact hf.caller
  refine agree_get ((agree_leave hm state).nextBy (fun _ _ => by split <;> infer_instance)
    fun _ m₁ hm₁ _ => ?_)
  rcases hcaller.cases with hnone | ⟨r, hr, hsome⟩
  · simp only [hnone]
    exact agree_pure hm₁ ⟨rfl, trivial⟩
  · obtain ⟨waits, hwaits⟩ := same_stateOf? hm₁ hr
    simp only [hsome]
    refine agree_get ?_
    simp only [hwaits]
    split
    · exact agree_enter hm₁ hr
    · exact agree_pure hm₁ ⟨rfl, trivial⟩

theorem agree_sleep (hm : T.Machines m) (delay : Duration) :
    Agree m (fun _ => sleep delay) (Stays T fun _ => True) := by
  refine (agree_runningId hm).next fun id m₁ hm₁ hid => ?_
  have htimers := hm₁.outside.timers.add delay hid
  refine (agree_modify ⟨hm₁.heap, { hm₁.outside with timers := htimers }⟩).next
    fun _ m₂ hm₂ _ => ?_
  exact agree_returnToCaller hm₂ .suspended

theorem agree_finish (hm : T.Machines m) : Agree m (fun _ => finish) (Stays T fun _ => True) := by
  refine (agree_runningId hm).nextBy (fun _ _ => .andThen fun _ => by split <;> infer_instance)
    fun id m₁ hm₁ hid => ?_
  refine (agree_fiber hm₁).nextBy (fun _ _ => by dsimp only; split <;> infer_instance)
    fun f m₂ hm₂ hf => ?_
  have hend : ∀ m, T.Machines m → Agree m (fun i =>
      (modify fun m => { m with root := m.root.filter (· != id i) }) >>= fun _ =>
        returnToCaller .done) (Stays T fun _ => True) := by
    intro m hm
    have hroot : Maybe (T.handles .fiber) fun i => (m i).root.filter (· != id i) :=
      hm.outside.root.filter fun r hr => hm.heap.same_ne hr hid
    refine (agree_modify ⟨hm.heap, { hm.outside with root := hroot }⟩).next fun _ m₁ hm₁ _ => ?_
    exact agree_returnToCaller hm₁ .done
  obtain ⟨kind, hkind⟩ := hf.kind
  rcases hf.module.cases with hnone | ⟨module, hmodule, hsome⟩
  · simp only [hkind, hnone]
    exact hend m₂ hm₂
  · simp only [hkind, hsome]
    cases kind with
    | module => exact (agree_completeModule hm₂ hmodule).next fun _ m₃ hm₃ _ => hend m₃ hm₃
    | _ => exact hend m₂ hm₂

theorem agree_newFiber (hm : T.Machines m) (kind : FiberKind) {function : ι → Handle}
    (hfunction : T.handles .function function) {args : ι → List Value} (hargs : Each T.Values args)
    {caller module : ι → Option Handle} (hcaller : Maybe (T.handles .fiber) caller)
    (hmodule : Maybe (T.handles .module) module) :
    Agree m (fun i => newFiber kind (function i) (args i) (caller i) (module i))
      (Grown T fun T' r => T'.handles .fiber r) := by
  refine agree_get ((agree_settled hm (Heaps.function hm.heap hfunction)).next
    fun f m₁ hm₁ ⟨_, hf, hchunk⟩ => ?_)
  obtain ⟨slots, hslots⟩ := hm.outside.config.map Config.stackSlots
  have hempty : T.Stacks fun i => OperandStack.empty (m i).config.stackSlots := by
    have hlimit : ∀ i, (m i).config.stackSlots = slots := hslots
    simp only [hlimit]
    exact .mk .nil
  refine (agree_settled hm₁ (hempty.pushAll (.cons (.object hfunction) hargs))).next
    fun stack m₂ hm₂ hstack => ?_
  have hframe : T.Frames fun i => .enter (function i) (f i).chunk 0 (f i).module := by
    cases hf with
    | mk _ _ hscope => exact .mk hfunction hchunk hscope
  exact agree_alloc hm₂ (.fiber (.some (.mk hstack (.singleton hframe) hcaller hmodule))) nofun

theorem agree_spawn (hm : T.Machines m) {function : ι → Handle}
    (hfunction : T.handles .function function) (argc : Nat) :
    Agree m (fun i => spawn (function i) argc) (Grown T fun _ _ => True) := by
  refine (agree_runningId hm).next fun current m₁ hm₁ hcurrent => ?_
  refine (agree_top hm₁ argc).next fun args m₂ hm₂ hargs => ?_
  refine (agree_replaceTop hm₂ (argc + 1) values_nil).next fun _ m₃ hm₃ _ => ?_
  refine (agree_newFiber hm₃ .async hfunction hargs (.some hcurrent) .none).grow
    fun T' r m₄ _ hm₄ hr => ?_
  refine (agree_modify ⟨hm₄.heap, { hm₄.outside with ready := ?_ }⟩).grown fun _ => id
  exact hm₄.outside.ready.append (.singleton hr)

theorem agree_startFirst (hm : T.Machines m) {ids : ι → List Handle}
    (hids : Each (T.handles .fiber) ids) :
    Agree m (fun i => startFirst (ids i)) (Stays T Same) := by
  obtain ⟨l, hl, hids⟩ := hids
  simp only [hids]
  clear hids
  induction l generalizing m with
  | nil => exact agree_pure hm ⟨rfl, .const false⟩
  | cons id l ih =>
    have hid := hl id (List.mem_cons_self ..)
    have hrest := fun r hr => hl r (List.mem_cons_of_mem _ hr)
    simp only [List.map_cons, startFirst]
    refine (agree_modify ⟨hm.heap, { hm.outside with ready := ⟨l, hrest, fun _ => rfl⟩ }⟩).next
      fun _ m₁ (hm₁ : T.Machines m₁) _ => agree_get ?_
    obtain ⟨ready, hready⟩ := same_stateOf? hm₁ hid
    simp only [hready]
    split
    · exact (agree_resume hm₁ ⟨_, hid⟩).next fun _ _ hm₂ _ => agree_pure hm₂ ⟨rfl, .const true⟩
    · exact ih hm₁ hrest

theorem agree_startReady (hm : T.Machines m) :
    Agree m (fun _ => startReady) (Stays T Same) :=
  agree_get (agree_startFirst hm hm.outside.ready)

end Machine
end FiberMachine
