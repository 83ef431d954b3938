import FiberMachine.Proofs.Machine.Calls
import FiberMachine.Proofs.Machine.Limits
import FiberMachine.Proofs.Machine.Runs

/-!
# Machines do not crash

Whatever code a machine is given and whatever its host does with it, it ends an action
with a result or with a fault of the program, and its fibers keep to the limits of the
configuration.
-/

namespace FiberMachine

open Machine

/-- With whatever it is given, a function of a host does not crash, leaves the running
fiber as it is and keeps the machine within its limits. -/
structure HostFunctions.Harmless (host : HostFunctions) : Prop where
  calm : ∀ id args, Calm (host.call id args)
  running : ∀ id args, Makes SameRunning (host.call id args)
  limits : ∀ id args, Makes KeepsLimits (host.call id args)

namespace Machine

variable {host : HostFunctions} {c : Config} {m m' : Machine}

theorem throws_runNative {P : Fault → Prop} [Common P]
    (hh : ∀ id args, Throws P (host.call id args)) (n : Native) (args : List Value) :
    Throws P (runNative host n args) := by
  unfold runNative
  split
  · infer_instance
  · exact hh _ args

theorem noCrash_runNative (hh : host.Harmless) (n : Native) (args : List Value) :
    Throws Fault.NoCrash (runNative host n args) :=
  throws_runNative (P := Fault.NoCrash) (fun id args => ⟨(hh.calm id args).isCrash⟩) n args

theorem sameRunning_runNative (hh : host.Harmless) (n : Native) (args : List Value) :
    Makes SameRunning (runNative host n args) := by
  unfold runNative
  split
  · infer_instance
  · exact hh.running _ args

/-! ## Where a machine can come to -/

/-- Everything that can come of a new machine: the host builds objects and changes what it
holds, collects, posts events and moves the clock, programs are loaded, safe points and
instructions succeed or fail, and what failed is given up. -/
inductive Reaches (host : HostFunctions) (c : Config) : Machine → Prop
  | new : Reaches host c (new c)
  | still {m m' : Machine} : Reaches host c m → Still m m' → Reaches host c m'
  | collect {m : Machine} : Reaches host c m → Reaches host c m.collected
  | post {m : Machine} (e : Event) : Reaches host c m → Reaches host c (m.post e)
  | advance {m : Machine} (d : Duration) : Reaches host c m → Reaches host c (m.advance d)
  | start {m : Machine} (p : Prototype) : Reaches host c m → Reaches host c (after (start p) m)
  | safePoint {m : Machine} : Reaches host c m → Reaches host c (after safePoint m)
  | instruction {m : Machine} : Reaches host c m → Reaches host c (after (instruction host) m)
  | reset {m : Machine} : Reaches host c m → Reaches host c m.reset

theorem bounded_new (c : Config) : (new c).config = c ∧ (new c).Bounded := by
  obtain ⟨heap, globals, methods, hrow, hnew⟩ := exists_new c
  rw [hnew]
  exact ⟨rfl, nofun, Heap.row_ledger hrow (.withThreshold _ _)⟩

instance (e : Event) : Makes KeepsLimits (modify (Machine.post e)) :=
  .single fun _ => .of_eq rfl rfl rfl

instance (d : Duration) : Makes KeepsLimits (modify (Machine.advance d)) :=
  .single fun _ => .of_eq rfl rfl rfl

theorem keepsLimits_reset (m : Machine) : KeepsLimits m m.reset :=
  ⟨rfl, fun hb => ⟨nofun, hb.heap⟩⟩

theorem Reaches.keepsLimits (hh : host.Harmless) (hm : Reaches host c m) :
    m.config = c ∧ m.Bounded := by
  have := hh.limits
  -- every way to go on keeps the limits, and `new` begins within them
  have hstep : ∀ {m m' : Machine}, KeepsLimits m m' → m.config = c ∧ m.Bounded →
      m'.config = c ∧ m'.Bounded := fun hk hm => ⟨hk.config.trans hm.1, hk.bounded hm.2⟩
  induction hm with
  | new => exact bounded_new c
  | still _ hs ih => exact hstep hs.steady.keepsLimits ih
  | collect _ ih => exact hstep (keepsLimits_collected _) ih
  | @post m e _ ih => exact hstep (keepsLimits_after (modify (Machine.post e)) m) ih
  | @advance m d _ ih => exact hstep (keepsLimits_after (modify (Machine.advance d)) m) ih
  | @start m p _ ih => exact hstep (keepsLimits_after (Machine.start p) m) ih
  | @safePoint m _ ih => exact hstep (keepsLimits_after Machine.safePoint m) ih
  | @instruction m _ ih => exact hstep (keepsLimits_after (Machine.instruction host) m) ih
  | @reset m _ ih => exact hstep (keepsLimits_reset m) ih

theorem Reaches.interpret (hm : Reaches host c m) (steps : Nat) (p : Prototype) :
    Reaches host c (m.interpret host steps p).2 :=
  interpret_closed (fun _ h => h.safePoint) (fun _ h => h.instruction) (fun _ h => h.reset) steps
    (hm.start p)

/-! ## What does not happen -/

theorem noCrash_run (hh : host.Harmless) (steps : Nat) : Throws Fault.NoCrash (run host steps) := by
  have := noCrash_runNative hh
  have := sameRunning_runNative hh
  induction steps with
  | zero => exact .pure false
  | succ steps ih =>
    refine .bind (throws_step fun _ => rfl) fun stepped => ?_
    cases stepped
    · exact .pure true
    · exact ih

theorem interpret_ne_crash (hh : host.Harmless) (steps : Nat) (p : Prototype) {fault : Fault}
    {trace : List String} (h : (m.interpret host steps p).1 = .halted (.faulted fault trace)) :
    fault.isCrash = false := by
  have hcalm : Throws Fault.NoCrash (do start p; run host steps : Act Bool) :=
    .bind inferInstance fun _ => noCrash_run hh steps
  simp only [Machine.interpret] at h
  cases hr : (do start p; run host steps : Act Bool) m with
  | ok ended m' =>
    rw [hr] at h
    cases ended <;> cases h
  | error e m' =>
    rw [hr] at h
    cases h
    exact hcalm.fault _ _ _ hr

/-- What holds of a machine whatever code it runs. No action crashes: not an instruction,
whichever it is and whatever state it meets, not a built-in function, whatever arguments it
gets, not a safe point, not a program. In every machine that it comes to each fiber has no
more frames and operands than the configuration says and no frame stands behind its code,
and the books of the heap are right, also at every point of a collection. -/
structure SafetyGuarantees (host : HostFunctions) : Prop where
  instruction : ∀ {m fault m'}, Machine.instruction host m = .error fault m' →
    fault.isCrash = false
  execute : ∀ {op m fault m'}, Machine.execute host op m = .error fault m' →
    fault.isCrash = false
  builtin : ∀ {b : Builtin} {args m fault m'}, b.run args m = .error fault m' →
    fault.isCrash = false
  safePoint : ∀ {m fault m'}, Machine.safePoint m = .error fault m' → fault.isCrash = false
  interpret : ∀ {m fault trace} steps p,
    (Machine.interpret host steps p m).1 = .halted (.faulted fault trace) → fault.isCrash = false
  reaches : ∀ {c m}, Reaches host c m → ∀ steps p, Reaches host c (m.interpret host steps p).2
  running : ∀ {c m t}, c.Valid → Reaches host c m → m.running = some t → t.fiber.Within c
  parked : ∀ {c m r o f}, c.Valid → Reaches host c m → m.heap.get? r = some o →
    o.body = .fiber (some f) → f.Within c
  books : ∀ {c m}, c.Valid → Reaches host c m → m.heap.Ledger (Fiber.Within c)
  collecting : ∀ {c m}, c.Valid → Reaches host c m → ∀ slots : List Nat,
    (slots.foldl Heap.sweepSlot ((m.heap.markFrom m.roots).forgetTexts, 0)).1.Ledger
      (Fiber.Within c)

theorem safetyGuarantees (hh : host.Harmless) : SafetyGuarantees host := by
  have := noCrash_runNative hh
  have := sameRunning_runNative hh
  have hinstruction : Throws Fault.NoCrash (Machine.instruction host) :=
    throws_instruction fun _ => rfl
  refine ⟨Calm.isCrash _ _ _, Calm.isCrash _ _ _, Calm.isCrash _ _ _, Calm.isCrash _ _ _,
    fun steps p => interpret_ne_crash hh steps p, fun hm => hm.interpret, fun _ hm ht => ?_,
    fun _ hm ho hbody => ?_, fun _ hm => ?_, fun _ hm slots => ?_⟩
  all_goals obtain ⟨rfl, hb⟩ := hm.keepsLimits hh
  · exact hb.running _ ht
  · exact hb.heap.of_get? ho hbody
  · exact hb.heap
  · exact Heap.Ledger.foldl_sweepSlot (hb.heap.markFrom _).forgetTexts slots

/-! ## A host that looks into the machine -/

/-- Of itself the probing host ends with the faults of a program. -/
instance {P : Fault → Prop} [hP : Common P] (id : Nat) (args : List Value) :
    Throws P (Probe.host.call id args) := by
  simp only [Probe.host]
  split
  · unfold Probe.run Probe.addToField Probe.bumpBox bindField
    exact .parts
  · exact .throw rfl

theorem harmless_probe : Probe.host.Harmless where
  calm id args := by
    have hthrows : Throws Fault.NoCrash (Probe.host.call id args) := inferInstance
    infer_instance
  running _ _ := inferInstance
  limits id args := by
    simp only [Probe.host]
    split
    · unfold Probe.run Probe.addToField Probe.bumpBox
      exact .parts
    · exact .throw _

/-- A program runs within the default limits. -/
theorem safetyGuarantees_probe : SafetyGuarantees Probe.host ∧ ({} : Config).Valid ∧
    (new {}).heap.Ledger (Fiber.Within {}) ∧
    ∃ m t, Reaches Probe.host {} m ∧ m.running = some t ∧ t.fiber.Within {} := by
  have hall : SafetyGuarantees Probe.host := safetyGuarantees harmless_probe
  have hvalid : ({} : Config).Valid := ⟨by decide, by decide, by decide⟩
  have hreaches : Reaches Probe.host {} ((new {}).interpret Probe.host 1 napper).2 :=
    hall.reaches .new 1 napper
  have hruns : ((new {}).interpret Probe.host 1 napper).2.running.isSome := by decide +kernel
  obtain ⟨t, ht⟩ := Option.isSome_iff_exists.mp hruns
  exact ⟨hall, hvalid, hall.books hvalid .new, _, t, hreaches, ht, hall.running hvalid hreaches ht⟩

end Machine

end FiberMachine
