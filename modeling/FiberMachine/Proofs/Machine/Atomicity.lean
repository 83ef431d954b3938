import FiberMachine.Proofs.Machine.Room
import FiberMachine.Proofs.Ties.Reachability

/-!
# Instructions that fail have done nothing

Before an instruction changes what fibers share it has looked at everything that could stop
it. Where something is still to be done afterwards, that cannot fail: there is room for the
operands it pushes, the handles it follows are live, and a fiber waits where one is called.
-/

namespace FiberMachine

open Relation (ReflTransGen)

namespace Machine

variable {α β : Type} {host : HostFunctions} {m m₁ m' : Machine}

/-! ## Switches -/

/-- Nothing but the operands and the frames of the running fiber and the host may differ. -/
structure Works (m m' : Machine) : Prop extends SameOutline m m' where
  heap : m'.heap = m.heap
  config : m'.config = m.config

theorem works_of_row (h : ReflTransGen Works m m') : Works m m' := by
  induction h with
  | refl => exact ⟨.refl m, rfl, rfl⟩
  | tail _ hs ih =>
    exact ⟨ih.toSameOutline.trans hs.toSameOutline, hs.heap.trans ih.heap, hs.config.trans ih.config⟩

instance (stack : Fiber → OperandStack) (frames : Fiber → List Frame) :
    Makes Works (changeFiber fun f => { f with stack := stack f, frames := frames f }) := by
  refine ⟨fun m => ?_⟩
  simp only [after, changeFiber]
  cases h : m.running with
  | none => exact .refl
  | some t => exact .single ⟨⟨by rw [h]; rfl, rfl, rfl, rfl, rfl⟩, rfl, rfl⟩

instance : Makes Works pop := by
  refine ⟨fun m => ?_⟩
  simp only [after, pop]
  rcases h : m.running with _ | ⟨id, stack, frames, caller, kind, state, module⟩
  · exact .refl
  · simp only
    cases stack.pop with
    | ok p => exact .single ⟨⟨by rw [h]; rfl, rfl, rfl, rfl, rfl⟩, rfl, rfl⟩
    | error fault => exact .refl

instance (f : Host → α × Host) : Makes Works (onHost f) :=
  .single fun _ => ⟨⟨rfl, rfl, rfl, rfl, rfl⟩, rfl, rfl⟩

theorem works_skip (k : Nat) (m : Machine) : Works m (m.skip k) := by
  refine ⟨⟨?_, rfl, rfl, rfl, rfl⟩, rfl, rfl⟩
  simp only [skip, Option.map_map]
  rfl

/-- A function object is the last thing that loading builds. -/
theorem load_eq (h : Heap) (module : Option Handle) (p : Prototype) :
    ∃ h₁ f, ReflTransGen Heap.Move h h₁ ∧ h.load module p = h₁.alloc (.function f) ∧
      f.chunk.code = p.code ∧ f.module = module := by
  obtain ⟨name, arity, isAsync, code, constants, lines⟩ := p
  rw [Heap.load]
  exact ⟨_, _, (Heap.row_loadConstants module h constants).tail (.intern _ name), rfl, rfl, rfl⟩

theorem function_load {h : Heap} (hw : h.WellFormed) (module : Option Handle) (p : Prototype)
    (hfit : (h.load module p).1.slots.size ≤ Heap.slotLimit) :
    ∃ f, (h.load module p).1.function (h.load module p).2 = .ok f ∧ f.chunk.code = p.code ∧
      f.module = module := by
  obtain ⟨h₁, f, hrow, heq, hcode, hmodule⟩ := load_eq h module p
  rw [heq] at hfit ⊢
  have hw₁ := Heap.row_wellFormed hrow hw (Nat.le_trans (Heap.size_le_alloc ..) hfit)
  refine ⟨f, ?_, hcode, hmodule⟩
  simp only [Heap.function, Heap.get, (Heap.alloc_allocated hw₁.toArena _ hfit).get?_self]
  rfl

/-- The start of a module whose importer is known. -/
def launch (key : Handle) (code : Prototype) (importer : Option Handle) : Act Unit := do
  let module ← newModule key importer
  modify fun m => { m with loading := m.loading ++ [module] }
  let function ← Heap.run (·.load (some module) code)
  resume (← newFiber .module function [] none (some module))

theorem exists_running (hout : SameOutline m m') {t : Running} (ht : m'.running = some t) :
    ∃ t', m.running = some t' ∧ t'.id = t.id ∧ t'.fiber.module = t.fiber.module := by
  have h := hout.running
  rw [ht, Option.map_some, eq_comm, Option.map_eq_some_iff] at h
  obtain ⟨t', ht', heq⟩ := h
  simp only [Running.outline, Prod.mk.injEq] at heq
  exact ⟨t', ht', heq.1, heq.2.2.2.2⟩

/-- The running fiber leaves without fail, and the others are as they were. -/
theorem exists_leave (hlive : ∀ t, m.running = some t → m.heap.isLive t.id) (state : FiberState) :
    ∃ m₁, leave state m = .ok () m₁ ∧ m₁.running = none ∧
      ∀ r b, (∀ t, m.running = some t → t.id ≠ r) → m.heap.fiberAt? r = some b →
        m₁.heap.fiberAt? r = some b := by
  cases ht : m.running with
  | none => exact ⟨m, leave_nobody ht state, ht, fun _ _ _ hb => hb⟩
  | some t =>
    exact ⟨m.left state t, leave_eq ht (hlive t ht) state, rfl,
      fun r b hne hb => fiberAt?_left state (hne t rfl) hb⟩

/-- Control goes back without fail to the fiber that waits. -/
theorem returnToCaller_ne_error (hlive : ∀ t, m.running = some t → m.heap.isLive t.id)
    {state : FiberState} {e : Fault} : returnToCaller state m ≠ .error e m' := by
  intro h
  obtain ⟨m₁, hleave, hrun, -⟩ := exists_leave hlive state
  cases hcaller : m.running.bind fun running => running.fiber.caller with
  | none =>
    simp only [returnToCaller, bind_apply, get_apply, hleave, hcaller] at h
    cases h
  | some c =>
    simp only [returnToCaller, bind_apply, get_apply, hleave, hcaller] at h
    split at h
    · rename_i hwaits
      obtain ⟨caller, hstatus⟩ := stateOf?_eq_some_iff.mp hwaits
      obtain ⟨f, hf, -⟩ := fiber_of_status hstatus (by simp [hrun])
      rw [enter_eq hf] at h
      cases h
    · cases h

/-- A fiber that is ready is run without fail. -/
theorem resume_ne_error (hlive : ∀ t, m.running = some t → m.heap.isLive t.id) {r : Handle}
    {f : Fiber} (hr : ∀ t, m.running = some t → t.id ≠ r) (hf : m.heap.fiberAt? r = some (some f))
    {e : Fault} : resume r m ≠ .error e m' := by
  by_cases hof : m.stateOf? r = some .ready ∨ m.stateOf? r = some .suspended
  · obtain ⟨m₁, hleave, -, hkept⟩ := exists_leave hlive .waiting
    rw [resume_eq hof]
    simp only [bind_apply, hleave, enter_eq (hkept r _ hr hf)]
    rw [changeFiber_eq rfl]
    exact nofun
  · rw [not_or] at hof
    rw [resume_ignored hof.1 hof.2]
    exact nofun

theorem isLive_of_alike (ha : Alike m m') (hlive : ∀ t, m.running = some t → m.heap.isLive t.id) :
    ∀ t, m'.running = some t → m'.heap.isLive t.id := by
  intro t ht
  obtain ⟨t', ht', hid, -⟩ := exists_running ha.outline ht
  exact ha.fibers.live _ (hid ▸ hlive t' ht')

/-- A machine that can switch fibers: the running one is live and loads a live module if any, and
a new one has room for its function. -/
structure Poised (m : Machine) : Prop where
  wellFormed : m.heap.WellFormed
  running : ∀ t, m.running = some t → m.heap.isLive t.id
  module : ∀ t, m.running = some t → ∀ r ∈ t.fiber.module, m.heap.Has .module r
  slots : m.running.isSome → 0 < m.config.stackSlots

namespace Poised

theorem works (hp : Poised m) (hw : Works m m') : Poised m' where
  wellFormed := hw.heap ▸ hp.wellFormed
  running t ht := by
    obtain ⟨t', ht', hid, -⟩ := exists_running hw.toSameOutline ht
    exact hw.heap ▸ hid ▸ hp.running t' ht'
  module t ht r hr := by
    obtain ⟨t', ht', -, hmodule⟩ := exists_running hw.toSameOutline ht
    exact hw.heap ▸ hp.module t' ht' r (hmodule ▸ hr)
  slots hrun := by
    have hsome := congrArg Option.isSome hw.running
    rw [Option.isSome_map, Option.isSome_map, hrun] at hsome
    exact hw.config ▸ hp.slots hsome.symm

theorem behind {x : Act α} {f : α → Act β} [Makes Mild x] [hx : Makes Works x] (hp : Poised m)
    (hf : ∀ a m₁, Poised m₁ → FailsAt (f a) m₁) : FailsAt (x >>= f) m :=
  .behind fun a m₁ h => hf a m₁ (hp.works (after_ok h ▸ works_of_row (hx.row m)))

theorem failsAt_sleep (hp : Poised m) (delay : Duration) : FailsAt (sleep delay) m := by
  refine .behind fun id m₁ h₁ => failsAt_of_ne_error fun e m' he _ _ => ?_
  obtain ⟨rfl, t, ht, rfl⟩ := runningId_eq_ok h₁
  exact returnToCaller_ne_error (m := { m with timers := m.timers.add delay t.id }) hp.running he

theorem failsAt_await (hp : Poised m) : FailsAt await m := by
  refine hp.behind fun v m₁ hp => ?_
  dsimp only
  split
  · exact hp.failsAt_sleep _
  · exact failsAt_of_fails .parts

theorem completeModule_dangles {r : Handle} (hr : m.heap.Has .module r) {e : Fault}
    (h : completeModule r m = .error e m') : e = .dangling := by
  obtain ⟨⟨marked, members, body⟩, ho, hk⟩ := hr
  cases body with
  | module name importer =>
    simp only [completeModule, bind_apply, modify_apply, get_apply, except_apply, Heap.module,
      Heap.get, ho] at h
    exact (Dangles.bind (inferInstance : Dangles (define importer name _))
      fun _ => inferInstance).eq_dangling _ e m' ((bind_apply ..).trans h)
  | _ => cases hk

theorem depart_ne_error (hlive : ∀ t, m.running = some t → m.heap.isLive t.id) {id : Handle}
    {e : Fault} : depart id m ≠ .error e m' :=
  returnToCaller_ne_error (m := { m with root := m.root.filter (· != id) }) hlive

instance (id : Handle) : Makes Tends (depart id) := by
  unfold depart
  exact .parts

/-- Once the module of the running fiber is complete, nothing can stop its end. -/
theorem failsAt_complete (hp : Poised m) {t : Running} (ht : m.running = some t) {r : Handle}
    (hr : r ∈ t.fiber.module) : FailsAt (do completeModule r; depart t.id : Act Unit) m := by
  refine failsAt_of_ne_error fun e m' he hne hfit => ?_
  rcases bind_eq_error he with he | ⟨_, m₁, hok, he⟩
  · exact hne (completeModule_dangles (hp.module t ht r hr) he)
  · have hrow := after_ok hok ▸ Makes.row (M := Move) (x := completeModule r) m
    have hfit₁ : m₁.room ≤ Heap.slotLimit :=
      Nat.le_trans (after_error he ▸ room_le_after (depart t.id) m₁) hfit
    obtain ⟨-, ha⟩ := row_alike hrow hp.wellFormed hfit₁
    exact depart_ne_error (isLive_of_alike ha hp.running) he

theorem failsAt_finish (hp : Poised m) : FailsAt finish m := by
  refine .behind fun id m₁ h₁ => .behind fun done m₂ h₂ => ?_
  obtain ⟨rfl, ⟨id, stack, frames, caller, kind, state, module⟩, ht, rfl⟩ := runningId_eq_ok h₁
  obtain ⟨rfl, rfl⟩ := fiber_eq_ok ht h₂
  have hdepart : FailsAt (depart id) m₂ :=
    failsAt_of_ne_error fun e m' he _ _ => depart_ne_error hp.running he
  cases kind with
  | module =>
    cases module with
    | none => exact hdepart
    | some module => exact hp.failsAt_complete ht rfl
  | _ => exact hdepart

theorem failsAt_returnFromCall (hp : Poised m) : FailsAt returnFromCall m := by
  refine hp.behind fun result m₁ hp => hp.behind fun done m₂ hp => hp.behind fun _ m₃ hp => ?_
  have hend : ∀ {m} (v : Value), Poised m → FailsAt (do
      changeFiber fun fiber => { fiber with stack := fiber.stack.truncate done.base }
      if (← fiber).frames.isEmpty then finish else push v : Act Unit) m := by
    intro m v hp
    refine hp.behind fun _ m₁ hp => hp.behind fun f m₂ hp => ?_
    split
    · exact hp.failsAt_finish
    · exact failsAt_of_fails inferInstance
  dsimp only
  split
  · refine hp.behind fun f m₄ hp => ?_
    split <;> exact hp.behind fun v m₅ hp => hend v hp
  · exact hp.behind fun v m₄ hp => hend v hp

/-! ### Imports -/

theorem failsAt_importNative (native : NativeModule) (as : Option Handle) :
    FailsAt (importNative native as) m :=
  .behind fun _ _ _ => failsAt_of_dangles .parts

/-- There is a fiber for a function that is there, if it has room for the function. -/
theorem newFiber_ne_error {kind : FiberKind} {r : Handle} {caller module : Option Handle}
    {f : Function} (hf : m.heap.function r = .ok f) (hs : 0 < m.config.stackSlots) {e : Fault} :
    newFiber kind r [] caller module m ≠ .error e m' := by
  have hpush : (OperandStack.empty m.config.stackSlots).pushAll [.ofHandle r] =
      .ok ⟨#[.ofHandle r], m.config.stackSlots⟩ := by
    simp [OperandStack.pushAll, OperandStack.push, OperandStack.empty, Nat.not_le.mpr hs,
      Bind.bind, Except.bind]
  simp only [newFiber, bind_apply, get_apply, except_apply, hf, hpush]
  exact (Succeeds.alloc _).ne_error _ _ _

/-- A new fiber is ready, so control can be handed to it. -/
theorem handOver_ne_error (hw : m.heap.WellFormed)
    (hlive : ∀ t, m.running = some t → m.heap.isLive t.id) {r : Handle} {module : Option Handle}
    {f : Function} (hf : m.heap.function r = .ok f) (hs : 0 < m.config.stackSlots) {e : Fault}
    (h : (do resume (← newFiber .module r [] none module) : Act Unit) m = .error e m')
    (hfit : m'.room ≤ Heap.slotLimit) : False := by
  rcases bind_eq_error h with h | ⟨id, m₁, hnew, h⟩
  · exact newFiber_ne_error hf hs h
  · obtain ⟨body, -, rfl, rfl⟩ := newFiber_eq_ok hnew
    have hfit₁ : (m.withNewFiber body).room ≤ Heap.slotLimit :=
      Nat.le_trans (after_error h ▸ room_le_after (resume _) _) hfit
    have hfresh := not_isLive_newFiber hw hfit₁
    have hbody : (m.withNewFiber body).heap.fiberAt? (m.newFiberHandle body) = some (some body) := by
      rw [fiberAt?_newFiber hw hfit₁, if_pos rfl]
    have hold : ∀ t, (m.withNewFiber body).running = some t →
        (m.withNewFiber body).heap.isLive t.id := fun t ht =>
      (allocated_newFiber hw hfit₁).isLive (hlive t ht)
    have hne : ∀ t, (m.withNewFiber body).running = some t → t.id ≠ m.newFiberHandle body := by
      rintro t ht heq
      exact hfresh (heq ▸ hlive t ht)
    exact resume_ne_error hold hne hbody h

/-- Once the importer is known, nothing can stop a module. -/
theorem launch_ne_error (hp : Poised m) (hs : 0 < m.config.stackSlots) {key : Handle}
    {code : Prototype} {importer : Option Handle} {e : Fault}
    (he : launch key code importer m = .error e m') (hfit : m'.room ≤ Heap.slotLimit) : False := by
  rcases bind_eq_error he with he | ⟨module, m₂, hmodule, he⟩
  · exact (Succeeds.newModule key importer).ne_error _ _ _ he
  rcases bind_eq_error he with he | ⟨_, m₃, hloading, he⟩
  · exact (Succeeds.modify _).ne_error _ _ _ he
  rcases bind_eq_error he with he | ⟨function, m₄, hload, he⟩
  · exact (Succeeds.lift _).ne_error _ _ _ he
  have hrow₃ : ReflTransGen Steady m m₃ := (after_ok hmodule ▸ Makes.row m).trans
    (after_ok hloading ▸ Makes.row m₂)
  have hrow : ReflTransGen Steady m m₄ := hrow₃.trans (after_ok hload ▸ Makes.row m₃)
  have hgrows : Makes Tends (do resume (← newFiber .module function [] none (some module))) := .parts
  have hfit₄ : m₄.room ≤ Heap.slotLimit :=
    Nat.le_trans (after_error he ▸ room_le_after _ m₄) hfit
  have hfit₃ : m₃.room ≤ Heap.slotLimit := Nat.le_trans (after_ok hload ▸ room_le_after _ m₃) hfit₄
  have hw := hp.wellFormed
  obtain ⟨hw₃, -⟩ := row_alike (ReflTransGen.mono (fun _ _ => Steady.move) _ _ hrow₃) hw hfit₃
  obtain ⟨hw₄, ha⟩ := row_alike (ReflTransGen.mono (fun _ _ => Steady.move) _ _ hrow) hw hfit₄
  have hkeeps := KeepsLimits.of_row (ReflTransGen.mono (fun _ _ => Steady.keepsLimits) _ _ hrow)
  rw [lift_apply] at hload
  cases hload
  obtain ⟨f, hf, -⟩ := function_load hw₃ (some module) code hfit₄
  exact handOver_ne_error hw₄ (isLive_of_alike ha hp.running) hf (hkeeps.config ▸ hs) he hfit

theorem failsAt_startModule (hp : Poised m) (key : Handle) (code : Prototype) :
    FailsAt (startModule key code) m := by
  refine .behind fun importer m₁ h => ?_
  -- code with an importer belongs to a running fiber
  obtain ⟨rfl, f, hf, -⟩ := scope_eq_ok h
  have hs := hp.slots (isSome_running hf)
  exact failsAt_of_ne_error fun _ _ he _ hfit => launch_ne_error hp hs he hfit

theorem failsAt_importFile (hp : Poised m) (name : String) (key : Handle) :
    FailsAt (importFile name key) m := by
  refine hp.behind fun _ m₁ hp => ?_
  dsimp only
  split
  · exact failsAt_of_fails inferInstance
  · refine hp.behind fun contents m₂ hp => ?_
    split
    · refine hp.behind fun _ m₃ hp => ?_
      split
      · exact failsAt_of_fails inferInstance
      · exact hp.failsAt_startModule key _
    · split
      · exact failsAt_of_fails inferInstance
      · exact hp.failsAt_startModule key _

theorem failsAt_importModule (hp : Poised m) (name : Handle) (as : Option Handle) :
    FailsAt (importModule name as) m := by
  refine hp.behind fun _ m₁ hp => ?_
  dsimp only
  split
  · exact failsAt_importNative _ as
  · exact hp.failsAt_importFile _ _

end Poised

/-! ## All instructions -/

instance (op : Opcode) : Fails Mild (comparison op) := by
  unfold comparison strange
  exact .parts

instance (op : Opcode) : Fails Mild (bindings op) := by
  unfold bindings strange
  exact .parts

instance (op : Opcode) : Fails Mild (iterators op) := by
  unfold iterators strange
  exact .parts

instance (op : Opcode) : Fails Mild (strings op) := by
  unfold strings strange
  exact .parts

namespace Poised

theorem failsAt_control (hp : Poised m) (op : Opcode) : FailsAt (control op) m := by
  cases op with
  | ret => exact hp.failsAt_returnFromCall
  | _ =>
    refine failsAt_of_fails ?_
    unfold control strange
    exact .parts

theorem failsAt_imports (hp : Poised m) (op : Opcode) : FailsAt (imports op) m := by
  cases op with
  | importModule =>
    refine .behind fun name m₁ h₁ => ?_
    obtain rfl := readName_eq_ok h₁
    exact (hp.works (works_skip ..)).failsAt_importModule name none
  | importModuleAs =>
    refine .behind fun name m₁ h₁ => .behind fun as m₂ h₂ => ?_
    obtain rfl := readName_eq_ok h₁
    obtain rfl := readName_eq_ok h₂
    exact ((hp.works (works_skip ..)).works (works_skip ..)).failsAt_importModule name (some as)
  | _ =>
    refine failsAt_of_fails ?_
    unfold imports strange
    exact .parts

theorem failsAt_suspensions (hp : Poised m) (op : Opcode) : FailsAt (suspensions op) m := by
  cases op with
  | await => exact hp.failsAt_await
  | _ =>
    refine failsAt_of_fails ?_
    unfold suspensions strange
    exact .parts

/-- Everything but a call fails without a function of the host. -/
theorem failsAt_execute (hp : Poised m) (hl : InLimit m) {op : Opcode}
    (hcall : op ≠ .call ∧ op ≠ .invoke) : FailsAt (execute host op) m := by
  unfold execute
  cases op with
  | negate | add | subtract | multiply | divide | power | modulo | increment | decrement =>
    exact failsAt_arithmetic hl _
  | equal | greater | less | not => exact failsAt_of_fails inferInstance
  | constant | constantLong | pushNil | pushTrue | pushFalse | pop | defineGlobal | getGlobal
  | exportGlobal | setGlobal | getLocal | setLocal => exact failsAt_of_fails inferInstance
  | jumpIfFalse | jump | loop | ret | raise => exact hp.failsAt_control _
  | call => exact absurd rfl hcall.1
  | invoke => exact absurd rfl hcall.2
  | createList | subscriptRead | subscriptWrite | sliceArray | createRange =>
    exact failsAt_collections hl _
  | newClass | getProperty | setProperty | method => exact failsAt_objects hl _
  | iterate => exact failsAt_of_fails inferInstance
  | interpolate => exact failsAt_of_fails inferInstance
  | importModule | importModuleAs => exact hp.failsAt_imports _
  | await => exact hp.failsAt_suspensions _

theorem failsWith_execute (hh : host.Harmless) (hp : Poised m) (hl : InLimit m) (op : Opcode) :
    FailsWith host Prepares (execute host op) m := by
  by_cases hcall : op = .call ∨ op = .invoke
  · unfold execute
    rcases hcall with rfl | rfl <;> exact failsWith_functions hh hl _
  · exact (hp.failsAt_execute hl (not_or.mp hcall)).failsWith

theorem failsWith_instruction (hh : host.Harmless) (hp : Poised m) (hl : InLimit m) :
    FailsWith host Prepares (instruction host) m := by
  refine .behind (fun _ _ h => (readByte_eq_ok h).1 ▸ rfl) fun byte m₁ h₁ => ?_
  obtain ⟨rfl, -⟩ := readByte_eq_ok h₁
  split
  · exact (hp.works (works_skip ..)).failsWith_execute hh hl.skip _
  · exact failsWith_of_fails inferInstance

end Poised

/-! ## What is guaranteed -/

open Ties

theorem HostCall.keepsLimits (h : HostCall m m') : KeepsLimits m m' := by
  cases h with
  | collect => exact keepsLimits_collected m
  | addModule | withHost | advance | post => exact .of_eq rfl rfl rfl
  | newArray =>
    rename_i items _
    have := makes_alloc (b := .array items) (by simp [Body.kind]) (by simp [Body.kind])
    exact keepsLimits_after _ _
  | _ => exact keepsLimits_after _ _

theorem Reachable.bounded (hh : host.Harmless) (hm : Reachable host m) : m.Bounded := by
  have := hh.limits
  induction hm with
  | new config => exact (bounded_new config).2
  | hostCall _ hcall ih => exact hcall.keepsLimits.bounded ih
  | @start m p _ ih => exact (keepsLimits_after (Machine.start p) m).bounded ih
  | @safePoint m _ ih => exact (keepsLimits_after Machine.safePoint m).bounded ih
  | @instruction m _ ih => exact (keepsLimits_after (Machine.instruction host) m).bounded ih
  | @reset m _ ih => exact (keepsLimits_reset m).bounded ih

theorem Bounded.inLimit (hb : m.Bounded) : InLimit m := fun t ht =>
  (hb.running t ht).limit ▸ (hb.running t ht).operands

theorem Sound.poised (hs : m.Sound) (hb : m.Bounded) : Poised m where
  wellFormed := hs.heap
  running t ht := by
    obtain ⟨⟨o, ho, -⟩, -⟩ := hs.running t ht
    exact Heap.isLive_iff.mpr ⟨o, ho⟩
  module t ht := (hs.running t ht).2.module
  slots hrun := by
    obtain ⟨t, ht⟩ := Option.isSome_iff_exists.mp hrun
    exact (hb.running t ht).slots

variable {e : Fault}

/-- No instruction of a machine that is sound and within its limits meets a dead handle. One that
fails has done only mild things, or a native function of the host fails in it. -/
theorem Sound.fails_instruction (hh : host.Careful) (hlimits : host.Harmless) (hs : m.Sound)
    (hb : m.Bounded) (h : instruction host m = .error e m') (hfit : m'.room ≤ Heap.slotLimit) :
    ReflTransGen Mild m m' ∨
      ∃ m₀, ReflTransGen Mild m m₀ ∧ Prepares m.heap m₀.heap ∧ HostFails host m₀ m' := by
  have hne : e ≠ .dangling := by
    rintro rfl
    exact ne_dangling_of_agree (agree_instruction hh.agrees hs.machines) (after_error h ▸ hfit) h
  exact (hs.poised hb).failsWith_instruction hlimits hb.inLimit e m' h hne hfit

theorem Sound.fails_execute {op : Opcode} (hh : host.Careful) (hlimits : host.Harmless)
    (hs : m.Sound) (hb : m.Bounded) (h : execute host op m = .error e m')
    (hfit : m'.room ≤ Heap.slotLimit) : ReflTransGen Mild m m' ∨
      ∃ m₀, ReflTransGen Mild m m₀ ∧ Prepares m.heap m₀.heap ∧ HostFails host m₀ m' := by
  have hne : e ≠ .dangling := by
    rintro rfl
    exact ne_dangling_of_agree (agree_execute hh.agrees hs.machines op) (after_error h ▸ hfit) h
  exact (hs.poised hb).failsWith_execute hlimits hb.inLimit op e m' h hne hfit

theorem HostFails.mild (hf : host.FailsMildly) (h : HostFails host m m') : ReflTransGen Mild m m' := by
  obtain ⟨-, -, hcall⟩ := h
  exact (hf _ _).row m _ m' hcall

/-- Where no function of the host changes anything and then fails, nothing else does either. -/
theorem mild_of_fails (hf : host.FailsMildly) (h : ReflTransGen Mild m m' ∨
    ∃ m₀, ReflTransGen Mild m m₀ ∧ Prepares m.heap m₀.heap ∧ HostFails host m₀ m') :
    ReflTransGen Mild m m' := by
  obtain hmild | ⟨m₀, hmild, -, hfails⟩ := h
  · exact hmild
  · exact hmild.trans (hfails.mild hf)

/-- What holds of every instruction of every machine that can come of a new one, whatever the
host does in between and wherever the clock goes, as long as the slots of the heap can be told
apart: if it fails, every object is as it was, and all that fibers share is as it was, down to the
printed text. Only objects that are new are there besides, and the running fiber may have other
operands and frames. The functions that the instruction may call are those of the library and
others that do nothing and then fail; the machine may have come of any host. -/
structure AtomicityGuarantees (host target : HostFunctions) : Prop where
  instruction : ∀ {m fault m'}, Reachable host m → Machine.instruction target m = .error fault m' →
    m'.room ≤ Heap.slotLimit → Spared m m'
  execute : ∀ {m op fault m'}, Reachable host m → Machine.execute target op m = .error fault m' →
    m'.room ≤ Heap.slotLimit → Spared m m'

theorem atomicityGuarantees {target : HostFunctions} (hh : host.Careful) (hlimits : host.Harmless)
    (ht : target.Careful) (htarget : target.Harmless) (hf : target.FailsMildly) :
    AtomicityGuarantees host target := by
  have := ht.tends
  have hready : ∀ {m : Machine}, Reachable host m → m.room ≤ Heap.slotLimit → m.Sound ∧ m.Bounded :=
    fun hm hfit => ⟨hm.sound hh hfit, hm.bounded hlimits⟩
  refine ⟨fun {m fault m'} hm h hfit => ?_, fun {m op fault m'} hm h hfit => ?_⟩
  · have hroom : m.room ≤ m'.room := after_error h ▸ room_le_after (Machine.instruction target) m
    obtain ⟨hs, hb⟩ := hready hm (hroom.trans hfit)
    have hrow := mild_of_fails hf (hs.fails_instruction ht htarget hb h hfit)
    exact (spared_of_mild hrow hs.heap.toArena hfit).2
  · have hroom : m.room ≤ m'.room := after_error h ▸ room_le_after (Machine.execute target op) m
    obtain ⟨hs, hb⟩ := hready hm (hroom.trans hfit)
    have hrow := mild_of_fails hf (hs.fails_execute ht htarget hb h hfit)
    exact (spared_of_mild hrow hs.heap.toArena hfit).2

instance (target : Value) (name : String) (v : Value) : Fails Mild (bindField target name v) := by
  unfold bindField
  exact .parts

theorem failsMildly_probe : Probe.host.FailsMildly := by
  intro id args
  simp only [Probe.host]
  split
  · unfold Probe.run Probe.addToField Probe.bumpBox
    exact .parts
  · exact inferInstanceAs (Fails Mild (throw _))

/-- A program that writes to a place that a list does not have. -/
def overwriter : Prototype where
  name := "script"
  arity := 0
  isAsync := false
  code := #[Opcode.createList.toByte, 0, 0, Opcode.pushTrue.toByte, Opcode.pushNil.toByte,
    Opcode.subscriptWrite.toByte, Opcode.ret.toByte]
  constants := []
  lines := #[]

/-- The machine in which the write comes next. -/
def overwriting : Machine := ((new {}).interpret Probe.host 3 overwriter).2

/-- The write fails, with its operands taken away. -/
theorem atomicityGuarantees_probe : AtomicityGuarantees Probe.host Probe.host ∧
    Reachable Probe.host overwriting ∧ ∃ fault m',
      Machine.instruction Probe.host overwriting = .error fault m' ∧ m'.room ≤ Heap.slotLimit := by
  have hfails : yields (Machine.instruction Probe.host) () overwriting = false := by decide +kernel
  obtain ⟨fault, hfault⟩ := eq_error_of_not_yields hfails
  refine ⟨?_, (Reachable.new {}).interpret 3 overwriter, fault, _, hfault, by decide +kernel⟩
  exact atomicityGuarantees Probe.careful_host harmless_probe Probe.careful_host harmless_probe
    failsMildly_probe

end Machine

end FiberMachine
