import FiberMachine.Machine.Step
import FiberMachine.Proofs.Machine.Moves

/-!
# The effects of actions

Whatever a machine does is a row of a few effects: steady moves, changes of its queues, a
fiber that leaves or enters, a new fiber, a new frame, a collection, and what a function
of the host does. What each of these keeps, every action keeps, whether it fails or not.
-/

namespace FiberMachine

namespace Machine

variable {H : Machine → Machine → Prop} {m m' : Machine}

/-- One effect. What functions of the host do is left open. -/
inductive Effect (H : Machine → Machine → Prop) : Machine → Machine → Prop
  | steady {m m' : Machine} : Steady m m' → Effect H m m'
  | queues {m m' : Machine} : m'.heap = m.heap → m'.config = m.config → m'.running = m.running →
      Effect H m m'
  | link (m : Machine) (caller : Option Handle) :
      Effect H m (after (changeFiber fun fiber => { fiber with caller }) m)
  | leave (m : Machine) (state : FiberState) : Effect H m (after (leave state) m)
  | enter (m : Machine) (id : Handle) : Effect H m (after (enter id) m)
  | newFiber (m : Machine) (kind : FiberKind) (function : Handle) (args : List Value)
      (caller module : Option Handle) :
      Effect H m (after (newFiber kind function args caller module) m)
  | pushFrame {m : Machine} {frame : Frame} : frame.ip ≤ frame.chunk.code.size →
      (∀ t, m.running = some t → t.fiber.frames.length < m.config.maxFrames) →
      Effect H m
        (after (changeFiber fun fiber => { fiber with frames := frame :: fiber.frames }) m)
  | collect (m : Machine) : Effect H m (after collect m)
  | host {m m' : Machine} : H m m' → Effect H m m'

instance (priority := low) {α : Type} (x : Act α) [hx : Makes Steady x] : Makes (Effect H) x :=
  hx.mono fun _ _ => .steady

/-! ## Fibers at work -/

instance (root : Machine → Option Handle) (modules : Machine → Members)
    (loading ready : Machine → List Handle) (events : Machine → List Event)
    (timers : Machine → Timers) :
    Makes (Effect H) (modify fun m : Machine => { m with
      root := root m, modules := modules m, loading := loading m, ready := ready m
      events := events m, timers := timers m }) :=
  .single fun _ => .queues rfl rfl rfl

instance (f : Timers → Timers × List Event) : Makes (Effect H) (fire f) :=
  .single fun _ => .queues rfl rfl rfl

instance (caller : Option Handle) :
    Makes (Effect H) (changeFiber fun fiber => { fiber with caller }) :=
  .single fun m => .link m caller

instance (state : FiberState) : Makes (Effect H) (leave state) := .single fun m => .leave m state

instance (id : Handle) : Makes (Effect H) (enter id) := .single fun m => .enter m id

instance (target : Handle) : Makes (Effect H) (resume target) := by
  unfold resume
  exact .parts

instance (state : FiberState) : Makes (Effect H) (returnToCaller state) := by
  unfold returnToCaller
  exact .parts

instance (delay : Duration) : Makes (Effect H) (sleep delay) := by
  unfold sleep
  exact .parts

instance : Makes (Effect H) finish := by
  unfold finish
  exact .parts

instance (rs : List Handle) : Makes (Effect H) (startFirst rs) := by
  induction rs with
  | nil => exact .pure false
  | cons r rest ih =>
    unfold startFirst
    exact .parts

instance : Makes (Effect H) startReady := by
  unfold startReady
  exact .parts

/-! ## New fibers and new frames -/

instance (kind : FiberKind) (function : Handle) (args : List Value)
    (caller module : Option Handle) :
    Makes (Effect H) (newFiber kind function args caller module) :=
  .single fun m => .newFiber m kind function args caller module

instance (function : Handle) (argc : Nat) : Makes (Effect H) (spawn function argc) := by
  unfold spawn
  exact .parts

theorem frameLimitCheck_eq_ok {u : Unit} (h : frameLimitCheck m = .ok u m') :
    m' = m ∧ ∀ t, m.running = some t → t.fiber.frames.length < m.config.maxFrames := by
  simp only [frameLimitCheck, bind_apply, get_apply, fiber] at h
  cases ht : m.running with
  | none => simp [ht] at h
  | some t =>
    simp only [ht] at h
    split at h
    · cases h
    · cases h
      refine ⟨rfl, fun t' ht' => ?_⟩
      cases ht'
      omega

/-- A frame is pushed only where there is room for one more. -/
instance (r : Handle) (argc : Nat) (constructs : Bool) :
    Makes (Effect H) (callFunction r argc constructs) := by
  have hpush : ∀ f : Function, Makes (Effect H) (do
      frameLimitCheck
      let base ← Checked.minus (← Checked.minus (← fiber).stack.size argc) 1
      changeFiber fun fiber =>
        { fiber with
          frames := { Frame.enter r f.chunk base f.module with constructs } :: fiber.frames }) := by
    refine fun f => ⟨fun m => ?_⟩
    rw [after_bind]
    cases hc : frameLimitCheck m with
    | error e m' => exact after_error hc ▸ Makes.row m
    | ok u m' =>
      obtain ⟨rfl, hroom⟩ := frameLimitCheck_eq_ok hc
      simp only [after_bind, fiber]
      cases m'.running with
      | none => exact .refl
      | some t =>
        dsimp only
        cases Checked.minus t.fiber.stack.size argc with
        | error e => exact .refl
        | ok rest =>
          simp only [except_apply]
          cases Checked.minus rest 1 with
          | error e => exact .refl
          | ok base => exact .single (.pushFrame (Nat.zero_le _) hroom)
  unfold callFunction
  exact .parts

instance : Makes (Effect H) returnFromCall := by
  unfold returnFromCall
  exact .parts

instance : Makes (Effect H) await := by
  unfold await
  exact .parts

instance (key : Handle) (code : Prototype) : Makes (Effect H) (startModule key code) := by
  unfold startModule
  exact .parts

instance (name : String) (key : Handle) : Makes (Effect H) (importFile name key) := by
  unfold importFile
  exact .parts

instance (name : Handle) (as : Option Handle) : Makes (Effect H) (importModule name as) := by
  unfold importModule
  exact .parts

/-! ## Safe points -/

instance : Makes (Effect H) collect := .single .collect

instance : Makes (Effect H) collectIfDue := by
  unfold collectIfDue
  exact .parts

instance (event : Event) : Makes (Effect H) (handle event) := by
  unfold handle
  exact .parts

instance (events : List Event) : Makes (Effect H) (handleAll events) := by
  induction events with
  | nil => exact .pure ()
  | cons event rest ih =>
    unfold handleAll
    exact .parts

instance (again : Nat) : Makes (Effect H) (findFiber again) := by
  induction again with
  | zero => exact .throw _
  | succ again ih =>
    unfold findFiber
    exact .parts

instance : Makes (Effect H) safePoint := by
  unfold safePoint
  exact .parts

instance (p : Prototype) : Makes (Effect H) (start p) := by
  unfold start
  exact .parts

/-! ## Instructions -/

section

variable {host : HostFunctions} [hh : ∀ id args, Makes H (host.call id args)]

instance (n : Native) (args : List Value) : Makes (Effect H) (runNative host n args) := by
  unfold runNative
  split
  · infer_instance
  · exact (hh _ args).mono fun _ _ => .host

instance (n : Native) (argc : Nat) (receiver : Option Value) :
    Makes (Effect H) (callNative host n argc receiver) := by
  unfold callNative
  exact .parts

instance (cls : Handle) (argc : Nat) : Makes (Effect H) (callClass host cls argc) := by
  unfold callClass
  exact .parts

instance (r : Handle) (argc : Nat) : Makes (Effect H) (callUnbound host r argc) := by
  unfold callUnbound
  exact .parts

instance (receiver : Value) (r : Handle) (argc : Nat) :
    Makes (Effect H) (callBound host receiver r argc) := by
  unfold callBound
  exact .parts

instance (callee : Value) (argc : Nat) : Makes (Effect H) (callValue host callee argc) := by
  unfold callValue
  exact .parts

instance (receiver method : Value) (argc : Nat) :
    Makes (Effect H) (callMethod host receiver method argc) := by
  unfold callMethod
  exact .parts

instance (name : Handle) (argc : Nat) : Makes (Effect H) (invoke host name argc) := by
  unfold invoke
  exact .parts

instance (op : Opcode) : Makes (Effect H) (control op) := by
  unfold control strange
  exact .parts

instance (op : Opcode) : Makes (Effect H) (functions host op) := by
  unfold functions call callMember strange
  exact .parts

instance (op : Opcode) : Makes (Effect H) (imports op) := by
  unfold imports strange
  exact .parts

instance (op : Opcode) : Makes (Effect H) (suspensions op) := by
  unfold suspensions strange
  exact .parts

instance (op : Opcode) : Makes (Effect H) (execute host op) := by
  unfold execute
  exact .parts

instance : Makes (Effect H) (instruction host) := by
  unfold instruction
  exact .parts

instance : Makes (Effect H) (step host) := by
  unfold step
  exact .parts

instance (steps : Nat) : Makes (Effect H) (run host steps) := by
  induction steps with
  | zero => exact .pure false
  | succ steps ih =>
    unfold run
    exact .parts

end

/-! ## Runs -/

variable {host : HostFunctions} {P : Machine → Prop}

/-- What safe points and instructions keep, whether they succeed or fail, a run keeps. -/
theorem run_closed (hsafe : ∀ m, P m → P (after safePoint m))
    (hinst : ∀ m, P m → P (after (instruction host) m)) (steps : Nat) (hm : P m) :
    P (after (run host steps) m) := by
  induction steps generalizing m with
  | zero => exact hm
  | succ steps ih =>
    have hm' := hsafe m hm
    simp only [Machine.run, step, after_bind, bind_apply]
    cases hs : Machine.safePoint m with
    | error e m₁ => exact after_error hs ▸ hm'
    | ok found m₁ =>
      rw [after_ok hs] at hm'
      cases found with
      | false => exact hm'
      | true =>
        have hm'' := hinst m₁ hm'
        simp only [↓reduceIte, bind_apply]
        cases hi : Machine.instruction host m₁ with
        | error e m₂ => exact after_error hi ▸ hm''
        | ok _ m₂ =>
          rw [after_ok hi] at hm''
          exact ih hm''

/-- The same for a program, which is given up when it has failed. -/
theorem interpret_closed (hsafe : ∀ m, P m → P (after safePoint m))
    (hinst : ∀ m, P m → P (after (instruction host) m)) (hreset : ∀ m, P m → P m.reset)
    (steps : Nat) {p : Prototype} (hm : P (after (start p) m)) :
    P (m.interpret host steps p).2 := by
  simp only [Machine.interpret, bind_apply]
  cases hs : Machine.start p m with
  | error e m₁ =>
    rw [after_error hs] at hm
    exact hreset _ hm
  | ok _ m₁ =>
    rw [after_ok hs] at hm
    have hrun := run_closed hsafe hinst steps hm
    dsimp only
    cases hr : Machine.run host steps m₁ with
    | ok ended m₂ =>
      rw [after_ok hr] at hrun
      cases ended <;> exact hrun
    | error e m₂ =>
      rw [after_error hr] at hrun
      exact hreset _ hrun

end Machine

end FiberMachine
