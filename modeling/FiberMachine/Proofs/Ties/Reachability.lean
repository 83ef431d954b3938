import FiberMachine.Proofs.Ties.Embedding
import FiberMachine.Proofs.Ties.Soundness

/-!
# Reachable machines are sound

A host may call into a machine at any time, as long as the handles it passes are live.
Whatever programs run and wherever they fail, all machines that come of it are sound, and
nothing ends with the fault for a handle that names no object.
-/

namespace FiberMachine

open Relation (ReflTransGen)
open Ties

/-! ## Actions on a single machine -/

section

variable {α : Type} {m m' : Machine} {x : Machine.Act α} {G : Ties Unit → (Unit → α) → Prop}

/-- An action that agrees with itself leaves a sound machine behind. -/
theorem sound_of_agree (hx : Agree (fun _ : Unit => m) (fun _ => x) (Anyhow G))
    (hfit : (after x m).room ≤ Heap.slotLimit) : (after x m).Sound := by
  rcases hx fun _ => hfit with ⟨T, a, m', hm', -, hok⟩ | ⟨T, e, m', hm', -, -, herr⟩
  · exact after_ok (hok ()) ▸ Machines.sound hm' ()
  · exact after_error (herr ()) ▸ Machines.sound hm' ()

theorem ne_dangling_of_agree (hx : Agree (fun _ : Unit => m) (fun _ => x) (Anyhow G))
    (hfit : (after x m).room ≤ Heap.slotLimit) : x m ≠ .error .dangling m' := by
  intro h
  rcases hx fun _ => hfit with ⟨T, a, m₁, -, -, hok⟩ | ⟨T, e, m₁, -, -, he, herr⟩
  · have hok : x m = .ok (a ()) (m₁ ()) := hok ()
    rw [h] at hok
    cases hok
  · have herr : x m = .error e (m₁ ()) := herr ()
    rw [h] at herr
    cases herr
    exact he rfl

end

namespace Machine

variable {α : Type} {m m' : Machine} {host : HostFunctions}

/-! ## Calls of a host -/

/-- Calls into a machine that pass no dead handles. -/
inductive HostCall (m : Machine) : Machine → Prop
  | collect : HostCall m m.collected
  | builtin (b : Builtin) {args : List Value} : (∀ v ∈ args, m.heap.Keeps v) →
      HostCall m (after (b.run args) m)
  | bindGlobal (name : String) {v : Value} : m.heap.Keeps v →
      HostCall m (after (bindGlobal name v) m)
  | bindField {target v : Value} (name : String) : m.heap.Keeps target → m.heap.Keeps v →
      HostCall m (after (bindField target name v) m)
  | intern (s : String) : HostCall m (after (intern s) m)
  | newArray {items : Array Value} : (∀ v ∈ items.toList, m.heap.Keeps v) →
      HostCall m (after (alloc (.array items)) m)
  | newNative (n : Native) : HostCall m (after (newNative n) m)
  | newUserData (data : UserData) : HostCall m (after (alloc (.userData data)) m)
  | changeUserData {r : Handle} (f : UserData → UserData) : m.heap.Has .userData r →
      HostCall m (after (change r (changeUserData f)) m)
  | addFunction (n : Native) : HostCall m (after (addFunction n) m)
  | addClass (name : String) (methods : List Native) : HostCall m (after (addClass name methods) m)
  | addModule (name : String) (module : NativeModule) : HostCall m (m.addModule name module)
  | withHost (host : Host) : HostCall m (m.withHost host)
  | advance (d : Duration) : HostCall m (m.advance d)
  | post {e : Event} : (∀ r ∈ e.fiber?, m.heap.isLive r) → HostCall m (m.post e)

theorem HostCall.tends (h : HostCall m m') : Tends m m' := by
  cases h with
  | collect => exact tends_collected m
  | addModule | withHost | advance | post => exact .of_heap_eq rfl
  | newArray =>
    rename_i items _
    have := makes_alloc (b := .array items) (by simp [Body.kind]) (by simp [Body.kind])
    exact tends_after _ _
  | _ => exact tends_after _ _

/-- Sound machines stay sound under calls with live handles. -/
theorem HostCall.sound (h : HostCall m m') (hm : m.Sound) (hfit : m'.room ≤ Heap.slotLimit) :
    m'.Sound := by
  have hT := hm.machines
  cases h with
  | collect => exact Machines.sound (tied_sheds hT fun _ => sheds_collected hm.heap) ()
  | builtin b hargs => exact sound_of_agree (agree_builtin hT b (alone_each hargs)).anyhow hfit
  | bindGlobal name hv => exact sound_of_agree (agree_bindGlobal hT name (alone_values hv)).anyhow hfit
  | bindField name ht hv =>
    exact sound_of_agree (agree_bindField hT (alone_values ht) name (alone_values hv)).anyhow hfit
  | intern s => exact sound_of_agree (agree_intern hT s).anyhow hfit
  | newArray hitems =>
    exact sound_of_agree (agree_alloc hT (.array (alone_each hitems)) (by simp)).anyhow hfit
  | newNative n => exact sound_of_agree (agree_newNative hT n).anyhow hfit
  | newUserData data => exact sound_of_agree (agree_alloc hT (.userData data) (by simp)).anyhow hfit
  | changeUserData f hr =>
    refine sound_of_agree (agree_change hT (r := fun _ => _) hr (by simp) (by simp) fun _ => ?_).loose hfit
    exact Probe.objects_changeUserData f
  | addFunction n => exact sound_of_agree (agree_addFunction hT n).anyhow hfit
  | addClass name methods => exact sound_of_agree (agree_addClass hT name methods).anyhow hfit
  | addModule name module => exact sound_of_agree (agree_addModule hT name module).loose hfit
  | withHost host => exact sound_of_agree (agree_withHost hT host).loose hfit
  | advance d => exact sound_of_agree (agree_advance hT d).loose hfit
  | post he =>
    rename_i e
    have hevents : (alone m.heap).Events fun _ => e := by
      cases e with
      | resume r =>
        obtain ⟨o, ho⟩ := Heap.isLive_iff.mp (he r rfl)
        exact .resume (r := fun _ => r) ⟨o.kind, o, ho, rfl⟩
      | collect => exact .collect
    exact sound_of_agree (agree_post hT hevents).loose hfit

theorem Sound.hostCalls (hm : m.Sound) (h : ReflTransGen HostCall m m')
    (hfit : m'.room ≤ Heap.slotLimit) : m'.Sound := by
  induction h with
  | refl => exact hm
  | tail _ hc ih => exact hc.sound (ih (Nat.le_trans hc.tends.room_le hfit)) hfit

end Machine

/-! ## Careful hosts -/

open Machine

/-- In a sound machine that gives it live handles, a function of a careful host makes calls
that pass live handles and gives one back, and it raises no fault about dead ones. With
whatever it is given, it lets the running fiber be and takes no slots of the heap away. -/
structure HostFunctions.Careful (host : HostFunctions) : Prop where
  calls : ∀ id args m, m.Sound → (∀ v ∈ args, m.heap.Keeps v) →
    ReflTransGen HostCall m (after (host.call id args) m)
  gives : ∀ id args m v m', m.Sound → (∀ v ∈ args, m.heap.Keeps v) →
    host.call id args m = .ok v m' → m'.room ≤ Heap.slotLimit → m'.heap.Keeps v
  faults : ∀ id args m m', m.Sound → (∀ v ∈ args, m.heap.Keeps v) →
    m'.room ≤ Heap.slotLimit → host.call id args m ≠ .error .dangling m'
  running : ∀ id args, Makes SameRunning (host.call id args)
  tends : ∀ id args, Makes Tends (host.call id args)


theorem HostFunctions.Careful.agrees {host : HostFunctions} (hh : host.Careful) :
    host.Agrees Unit where
  agree {T m args} id hm hargs := by
    intro hfit
    have hlive : ∀ v ∈ args (), (m ()).heap.Keeps v := hm.heap.keeps_each hargs
    have hm' := (hm.sound ()).hostCalls (hh.calls id _ _ (hm.sound ()) hlive) (hfit ())
    cases h : host.call id (args ()) (m ()) with
    | ok v m' =>
      rw [after_ok h] at hm'
      have hroom : m'.room ≤ Heap.slotLimit := after_ok h ▸ hfit ()
      have hv := alone_values (hh.gives id _ _ v m' (hm.sound ()) hlive h hroom)
      exact Or.inl ⟨_, fun _ => v, fun _ => m', hm'.machines, hv, fun _ => h⟩
    | error e m' =>
      rw [after_error h] at hm'
      refine Or.inr ⟨_, e, fun _ => m', hm'.machines, trivial, fun he => ?_, fun _ => h⟩
      exact hh.faults id _ _ m' (hm.sound ()) hlive (after_error h ▸ hfit ()) (he ▸ h)
  running := hh.running
  tends := hh.tends

namespace Machine

variable {m m' : Machine} {host : HostFunctions}

/-! ## Reachable machines -/

/-- Everything that can come of new machines: programs are loaded and run, safe points and
instructions succeed or fail, what failed is reset, and the host calls in between. -/
inductive Reachable (host : HostFunctions) : Machine → Prop
  | new (config : Config) : Reachable host (new config)
  | hostCall {m m' : Machine} : Reachable host m → HostCall m m' → Reachable host m'
  | start {m : Machine} (p : Prototype) : Reachable host m → Reachable host (after (start p) m)
  | safePoint {m : Machine} : Reachable host m → Reachable host (after safePoint m)
  | instruction {m : Machine} : Reachable host m → Reachable host (after (instruction host) m)
  | reset {m : Machine} : Reachable host m → Reachable host m.reset

/-- Programs run from reachable machines to reachable machines, however they end. -/
theorem Reachable.interpret (hm : Reachable host m) (steps : Nat) (p : Prototype) :
    Reachable host (m.interpret host steps p).2 :=
  interpret_closed (fun _ h => h.safePoint) (fun _ h => h.instruction) (fun _ h => h.reset) steps
    (hm.start p)

theorem Reachable.sound (hh : host.Careful) (hm : Reachable host m)
    (hfit : m.room ≤ Heap.slotLimit) : m.Sound := by
  have := hh.tends
  induction hm with
  | new config =>
    obtain ⟨T, hT⟩ := tied_new (ι := Unit) (c := fun _ => config) (.const _) fun _ => hfit
    exact hT.sound ()
  | hostCall _ hc ih => exact hc.sound (ih (Nat.le_trans hc.tends.room_le hfit)) hfit
  | @start m p _ ih =>
    have hm := ih (Nat.le_trans (room_le_after (Machine.start p) m) hfit)
    exact sound_of_agree (agree_start hm.machines p).anyhow hfit
  | @safePoint m _ ih =>
    have hm := ih (Nat.le_trans (room_le_after Machine.safePoint m) hfit)
    exact sound_of_agree (agree_safePoint hm.machines) hfit
  | @instruction m _ ih =>
    have hm := ih (Nat.le_trans (room_le_after (Machine.instruction host) m) hfit)
    exact sound_of_agree (agree_instruction hh.agrees hm.machines) hfit
  | reset _ ih => exact (tied_reset (ih hfit).machines).sound ()

/-! ## What holds of the handles -/

/-- What a careful host can rely on, as long as the slots of the heap can be told apart:
the machines it comes to are sound, also in the middle of a run or after a fault, and no
program, safe point or instruction meets a handle that names no object. -/
structure HandleGuarantees (host : HostFunctions) : Prop where
  reachable : ∀ {m}, Reachable host m → ∀ steps p, Reachable host (m.interpret host steps p).2
  sound : ∀ {m}, Reachable host m → m.room ≤ Heap.slotLimit → m.Sound
  interpret : ∀ {m}, Reachable host m → ∀ steps p,
    (m.interpret host steps p).2.room ≤ Heap.slotLimit →
      ∀ trace, (m.interpret host steps p).1 ≠ .halted (.faulted .dangling trace)
  safePoint : ∀ {m m'}, Reachable host m → m'.room ≤ Heap.slotLimit →
    Machine.safePoint m ≠ .error .dangling m'
  instruction : ∀ {m m'}, Reachable host m → m'.room ≤ Heap.slotLimit →
    Machine.instruction host m ≠ .error .dangling m'

theorem handleGuarantees (hh : host.Careful) : HandleGuarantees host where
  reachable hm := hm.interpret
  sound hm := hm.sound hh
  interpret {m} hm steps p hfit := by
    have := hh.tends
    have hs := hm.sound hh (Nat.le_trans (room_le_interpret m steps p) hfit)
    obtain ⟨T, outcome, m', -, hne, heq⟩ :=
      interpret_tied hh.agrees hs.machines steps p fun _ => hfit
    intro trace h
    have houtcome : m.interpret host steps p = (outcome, m' ()) := heq ()
    rw [houtcome] at h
    exact hne trace h
  safePoint {m m'} hm hfit := by
    intro h
    have hroom : m.room ≤ m'.room := after_error h ▸ room_le_after Machine.safePoint m
    have hs := hm.sound hh (Nat.le_trans hroom hfit)
    exact ne_dangling_of_agree (agree_safePoint hs.machines) (after_error h ▸ hfit) h
  instruction {m m'} hm hfit := by
    have := hh.tends
    intro h
    have hroom : m.room ≤ m'.room := after_error h ▸ room_le_after (Machine.instruction host) m
    have hs := hm.sound hh (Nat.le_trans hroom hfit)
    exact ne_dangling_of_agree (agree_instruction hh.agrees hs.machines) (after_error h ▸ hfit) h

end Machine

/-! ## The probing host is careful -/

namespace Probe

open Machine

variable {α β : Type} {m : Machine} {x : Act α} {f : α → Act β}

/-- What an action does to a machine are calls with live handles. -/
def Passes (m : Machine) (x : Act α) : Prop := ReflTransGen HostCall m (after x m)

theorem passes_except {e : Except Fault α} (h : ∀ a, e = .ok a → Passes m (f a)) :
    Passes m (liftM e >>= f) := by
  cases e with
  | ok a => exact h a rfl
  | error fault => exact .refl

theorem passes_value {args : List Value} (hargs : ∀ v ∈ args, m.heap.Keeps v) {name : String}
    {n : Nat} {f : Value → Act β} (h : ∀ v, m.heap.Keeps v → Passes m (f v)) :
    Passes m (liftM ((⟨name, args⟩ : NativeCall).value n) >>= f) := by
  refine passes_except fun v hv => h v (hargs v ?_)
  simp only [NativeCall.value] at hv
  split at hv
  · cases hv
    exact List.mem_of_getElem? (by assumption)
  · cases hv

def Unchanged {σ : Type} (s s' : σ) : Prop := s' = s

theorem after_unchanged {σ : Type} {x : EStateM Fault σ α} [hx : Makes Unchanged x] (s : σ) :
    after x s = s := by
  have hrow := hx.row s
  generalize after x s = s' at hrow
  induction hrow with
  | refl => rfl
  | tail _ h ih => exact Eq.trans h ih

instance (c : NativeCall) (i : Nat) : Makes Unchanged (c.number i) := by
  unfold NativeCall.number
  exact .parts

instance (c : NativeCall) (i : Nat) : Makes Unchanged (c.natural i) := by
  unfold NativeCall.natural
  exact .parts

theorem passes_read {x : Heap.Act α} [Makes Unchanged x] (h : ∀ a, Passes m (f a)) :
    Passes m (liftM x >>= f) := by
  have hm : after (liftM x : Act α) m = m := by rw [after_lift, after_unchanged]
  simp only [Passes, after_bind]
  simp only [after] at hm
  cases hx : (liftM x : Act α) m with
  | ok a m' =>
    rw [hx] at hm
    cases hm
    exact h a
  | error e m' =>
    rw [hx] at hm
    cases hm
    exact .refl

theorem passes_get {f : Machine → Act β} (h : Passes m (f m)) : Passes m (get >>= f) := h

theorem Passes.returns (h : Passes m x) (g : α → β) : Passes m (x >>= fun a => pure (g a)) := by
  simp only [Passes, after_bind]
  simp only [Passes, after] at h
  cases hx : x m <;> rw [hx] at h <;> exact h

theorem passes_bumpBox (v : Value) : Passes m (bumpBox v) := by
  refine passes_get ?_
  simp only [userData?]
  cases v.toHandle? with
  | none => exact .refl
  | some r =>
    simp only [Option.bind_some]
    cases ho : m.heap.get? r with
    | none => exact .refl
    | some o =>
      obtain ⟨marked, members, body⟩ := o
      cases body with
      | userData data => exact Passes.returns (.single (.changeUserData _ ⟨_, ho, rfl⟩)) _
      | _ => exact .refl

theorem passes_run (p : Probe) {args : List Value} (hargs : ∀ v ∈ args, m.heap.Keeps v) :
    Passes m (p.run args) := by
  cases p with
  | count | depth | frames | fail | keep | answer => exact .refl
  | collect => exact .single .collect
  | postCollect => exact .single (.post nofun)
  | tick => exact passes_read fun ms => .single (.advance _)
  | same => exact passes_value hargs fun v _ => passes_value hargs fun w _ => .refl
  | display =>
    exact passes_value hargs fun v _ => passes_get (Passes.returns (.single (.intern _)) _)
  | box => exact passes_read fun x => .single (.newUserData _)
  | unbox => exact passes_value hargs fun v _ => .refl
  | bump => exact passes_value hargs fun v _ => passes_bumpBox v
  | construct =>
    exact passes_value hargs fun me hme => passes_value hargs fun x hx =>
      Passes.returns (.single (.bindField "n" hme hx)) _
  | add =>
    refine passes_value hargs fun me hme => passes_read fun x => passes_get ?_
    have hsum : ∀ y, m.heap.Keeps (.ofFloat y) := fun y => Heap.keeps_scalar (Value.toHandle?_ofFloat y)
    exact Passes.returns (.single (.bindField "n" hme (hsum _))) _
  | me => exact (Makes.except (NativeCall.value ⟨"me", args⟩ 0)).row m

theorem careful_host : Probe.host.Careful where
  calls id args m _ hargs := by
    simp only [Probe.host]
    cases ofId? id with
    | some p => exact passes_run p hargs
    | none => exact .refl
  gives id args m v m' hm hargs h hfit := by
    have hagree := (agrees_host (ι := Unit)).agree id hm.machines (alone_each hargs)
    rcases hagree fun _ => after_ok h ▸ hfit with ⟨T, w, m₁, hm₁, hw, hok⟩ | ⟨_, e, m₁, _, _, _, herr⟩
    · have hok : Probe.host.call id args m = .ok (w ()) (m₁ ()) := hok ()
      rw [h] at hok
      cases hok
      exact Heaps.keeps (Machines.heap hm₁) hw
    · have herr : Probe.host.call id args m = .error e (m₁ ()) := herr ()
      rw [h] at herr
      cases herr
  faults id args m m' hm hargs hfit h :=
    ne_dangling_of_agree ((agrees_host (ι := Unit)).agree id hm.machines (alone_each hargs))
      (after_error h ▸ hfit) h
  running := (agrees_host (ι := Unit)).running
  tends := (agrees_host (ι := Unit)).tends

end Probe

/-- What the probes leave sound, for one, is a new machine that collects all the time. -/
theorem Machine.handleGuarantees_probe :
    HandleGuarantees Probe.host ∧ (new { collectAlways := true }).Sound := by
  have hall := handleGuarantees Probe.careful_host
  have hfit : (new { collectAlways := true }).room ≤ Heap.slotLimit := by decide +kernel
  exact ⟨hall, hall.sound (.new _) hfit⟩

end FiberMachine
