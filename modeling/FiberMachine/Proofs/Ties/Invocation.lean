import FiberMachine.Proofs.Machine.Calling
import FiberMachine.Proofs.Ties.Copies
import FiberMachine.Proofs.Ties.Reachability

/-!
# Calls of members

A member is called in one instruction, or it is read with one instruction, put in the place
of its object and called with another one. Both come to the same. Reading a function or a
native function behind an object other than a module or a class builds an object for the
bound method, which nothing refers to any more when the function is entered.
-/

namespace FiberMachine

namespace Machine

open Ties

variable {host : HostFunctions} {m n m' : Machine} {t : Running} {name : Handle} {argc : Nat}
  {receiver v w : Value} {f r : Handle} {o : Object}

/-- Reads a member of the object below the arguments, puts it in the place of the object and
calls it. -/
def callProperty (host : HostFunctions) (name : Handle) (argc : Nat) : Act Unit := do
  let receiver ← peek argc
  poke argc (← property receiver name)
  callValue host (← peek argc) argc

/-! ## How two ways end -/

/-- Faults are the same but for what the fault of a scalar in the place of the object calls
the operation. -/
inductive SameFault : Fault → Fault → Prop
  | same (e : Fault) : SameFault e e
  | scalar (kind : String) : SameFault (.typeMismatch "method call" "object" kind)
      (.typeMismatch "property access" "object" kind)

/-- Two actions end with the same fault, or both end well with machines that are alike. -/
inductive SameEnd (like : Machine → Machine → Prop) :
    EStateM.Result Fault Machine Unit → EStateM.Result Fault Machine Unit → Prop
  | ended {m m' : Machine} : like m m' → SameEnd like (.ok () m) (.ok () m')
  | failed {e e' : Fault} {m m' : Machine} : SameFault e e' →
      SameEnd like (.error e m) (.error e' m')

theorem SameEnd.refl {like : Machine → Machine → Prop} (hl : ∀ m, like m m)
    (x : EStateM.Result Fault Machine Unit) : SameEnd like x x := by
  cases x with
  | ok _ m => exact .ended (hl m)
  | error e m => exact .failed (.same e)

/-- What agrees on tied machines ends alike on them. -/
theorem SameEnd.of_agree {x : Act Unit} {G : Ties Bool → (Bool → Unit) → Prop}
    (hx : Agree (both m n) (fun _ => x) (Anyhow G))
    (hm : (FiberMachine.after x m).room ≤ Heap.slotLimit)
    (hn : (FiberMachine.after x n).room ≤ Heap.slotLimit) :
    SameEnd Correspond (x m) (x n) := by
  have hfit : ∀ b, (FiberMachine.after x (both m n b)).room ≤ Heap.slotLimit := by
    intro b
    cases b
    · exact hm
    · exact hn
  have hboth : ∀ m' : Bool → Machine, both (m' false) (m' true) = m' := by
    intro m'
    funext b
    cases b <;> rfl
  rcases hx hfit with ⟨T', a, m', hm', -, hok⟩ | ⟨T', e, m', -, -, -, herr⟩
  · have hfirst : x m = .ok (a false) (m' false) := hok false
    have hsecond : x n = .ok (a true) (m' true) := hok true
    rw [hfirst, hsecond]
    exact .ended ⟨T', (hboth m').symm ▸ hm'⟩
  · have hfirst : x m = .error e (m' false) := herr false
    have hsecond : x n = .error e (m' true) := herr true
    rw [hfirst, hsecond]
    exact .failed (.same e)

/-! ## What reading a member comes to -/

/-- A value that is read of an object as it is. -/
inductive Found (name : Handle) (m : Machine) (o : Object) (v : Value) : Prop
  | plain : m.findMethod o name = some v → holdsPlainMembers o.kind → Found name m o v
  | other : m.findMethod o name = some v → m.heap.kindOf? v ≠ some .function →
      m.heap.kindOf? v ≠ some .native → Found name m o v
  | field : m.findMethod o name = none → fieldOf? o name = some v → Found name m o v

/-- A function or a native function that is read of an object as a method of it. -/
structure Bound (name : Handle) (m : Machine) (o : Object) (v : Value) (f : Handle) : Prop where
  found : m.findMethod o name = some v
  handle : v.toHandle? = some f
  kind : m.heap.kindOf? v = some .function ∨ m.heap.kindOf? v = some .native
  binds : ¬ holdsPlainMembers o.kind

/-- What comes of reading an object, when that succeeds: a member as it is, or an object for
a bound method. -/
inductive Member (receiver : Value) (name : Handle) (m : Machine) (o : Object) :
    Value → Machine → Prop
  | found {v : Value} : Found name m o v → Member receiver name m o v m
  | bound {v : Value} {f : Handle} : Bound name m o v f →
      Member receiver name m o (.ofHandle (m.heap.alloc (.boundMethod receiver f)).2)
        (m.withObject (.boundMethod receiver f))

/-- The value of a member that was found, as it is or bound. -/
def bindMember (receiver : Value) (o : Object) (v : Value) (m : Machine) : Act Value :=
  match v.toHandle?, m.heap.kindOf? v with
  | some f, some .function | some f, some .native =>
    if holdsPlainMembers o.kind then return v
    else return .ofHandle (← alloc (.boundMethod receiver f))
  | _, _ => return v

theorem member_of_method (hv : m.findMethod o name = some v)
    (h : bindMember receiver o v m m = .ok w m') : Member receiver name m o w m' := by
  cases hf : v.toHandle? with
  | none =>
    have hk : m.heap.kindOf? v = none := by simp [Heap.kindOf?, hf]
    simp only [bindMember, hf] at h
    cases h
    exact .found (.other hv (by simp [hk]) (by simp [hk]))
  | some f =>
    by_cases hk : m.heap.kindOf? v = some .function ∨ m.heap.kindOf? v = some .native
    · have hbind : bindMember receiver o v m =
          if holdsPlainMembers o.kind then return v
          else return .ofHandle (← alloc (.boundMethod receiver f)) := by
        rcases hk with hk | hk <;> simp only [bindMember, hf, hk]
      rw [hbind] at h
      by_cases hplain : holdsPlainMembers o.kind
      · rw [if_pos hplain] at h
        cases h
        exact .found (.plain hv hplain)
      · rw [if_neg hplain] at h
        cases h
        exact .bound ⟨hv, hf, hk, hplain⟩
    · rw [not_or] at hk
      have hbind : bindMember receiver o v m = return v := by
        simp only [bindMember, hf]
        split <;> simp_all
      rw [hbind] at h
      cases h
      exact .found (.other hv hk.1 hk.2)

theorem property_eq_ok (h : property receiver name m = .ok w m') :
    ∃ r o, receiver.toHandle? = some r ∧ m.heap.get? r = some o ∧ Member receiver name m o w m' := by
  unfold property at h
  cases hr : receiver.toHandle? with
  | none =>
    rw [hr] at h
    cases h
  | some r =>
    rw [hr] at h
    obtain ⟨o, m₁, hobject, hget⟩ := bind_eq_ok h
    obtain ⟨rfl, ho⟩ := object_eq_ok hobject
    refine ⟨r, o, rfl, ho, ?_⟩
    obtain ⟨_, m₂, hm, hfind⟩ := bind_eq_ok hget
    cases hm
    cases hmethod : m₁.findMethod o name with
    | none =>
      simp only [hmethod] at hfind
      cases hfield : fieldOf? o name with
      | none =>
        simp only [hfield] at hfind
        cases hfind
      | some v =>
        simp only [hfield] at hfind
        cases hfind
        exact .found (.field hmethod hfield)
    | some v =>
      simp only [hmethod] at hfind
      exact member_of_method hmethod hfind

/-! ## Calling what was read -/

/-- Puts a value in the place of the callee and calls it. -/
def callInPlace (host : HostFunctions) (v : Value) (argc : Nat) : Act Unit := do
  poke argc v
  callValue host v argc

instance [Makes Tends (callValue host v argc)] : Makes Tends (callInPlace host v argc) := by
  unfold callInPlace
  exact .parts

theorem peek_of_poke (h : poke argc v m = .ok () m') : peek argc m' = .ok v m' := by
  simp only [poke, changeStack] at h
  rcases ht : m.running with _ | ⟨id, stack, frames, caller, kind, state, module⟩
  · simp [ht] at h
  · simp only [ht] at h
    cases hs : stack.poke argc v with
    | error e => simp [hs] at h
    | ok stack' =>
      rw [hs] at h
      cases h
      simp only [peek, OperandStack.peek_poke hs]

/-- What is read is called. -/
theorem callProperty_eq (hpeek : peek argc m = .ok receiver m)
    (hproperty : property receiver name m = .ok w m') :
    callProperty host name argc m = callInPlace host w argc m' := by
  simp only [callProperty, callInPlace, bind_apply, hpeek, hproperty]
  cases hpoke : poke argc w m' with
  | error e m'' => rfl
  | ok _ m'' => simp only [peek_of_poke hpoke]

theorem running_of_peek (h : peek argc m = .ok receiver m) :
    ∃ t, m.running = some t ∧ t.fiber.stack.peek argc = .ok receiver := by
  cases ht : m.running with
  | none => simp [peek, ht] at h
  | some t => exact ⟨t, rfl, (peek_eq_ok ht h).2⟩

/-! ## Both ways -/

theorem object_apply (ho : m.heap.get? r = some o) : object r m = .ok o m := by
  simp only [object, bind_apply, get_apply, Heap.get, ho, except_apply]

theorem invoke_eq (hpeek : peek argc m = .ok receiver m) (hr : receiver.toHandle? = some r)
    (ho : m.heap.get? r = some o) (hv : m.findMethod o name = some v) :
    invoke host name argc m =
      if holdsPlainMembers o.kind || m.heap.kindOf? v = some .classObject then
        callInPlace host v argc m
      else callMethod host receiver v argc m := by
  simp only [invoke, bind_apply, hpeek, hr, object_apply ho, get_apply, hv]
  split <;> rfl

theorem invoke_field (hpeek : peek argc m = .ok receiver m) (hr : receiver.toHandle? = some r)
    (ho : m.heap.get? r = some o) (hv : m.findMethod o name = none)
    (hfield : fieldOf? o name = some v) : invoke host name argc m = callInPlace host v argc m := by
  simp only [invoke, callInPlace, bind_apply, hpeek, hr, object_apply ho, get_apply, hv, hfield]

theorem exists_poke (hpeek : peek argc m = .ok receiver m) (v : Value) :
    ∃ m', poke argc v m = .ok () m' ∧ m'.heap = m.heap := by
  obtain ⟨⟨id, stack, frames, caller, kind, state, module⟩, ht, hp⟩ := running_of_peek hpeek
  have hlt : argc < stack.values.size := by
    refine Nat.lt_of_not_le fun hle => ?_
    rw [OperandStack.peek_of_le hle] at hp
    cases hp
  simp only [poke, changeStack, ht, OperandStack.poke_of_lt hlt, EStateM.Result.ok.injEq, true_and]
  exact ⟨_, rfl, rfl⟩

/-- A value that is no function, native or not, is called in the place of the receiver. One
that cannot be called at all is not put there first. -/
theorem sameEnd_callMethod (hpeek : peek argc m = .ok receiver m)
    (hfunction : m.heap.kindOf? v ≠ some .function) (hnative : m.heap.kindOf? v ≠ some .native) :
    SameEnd Eq (callMethod host receiver v argc m) (callInPlace host v argc m) := by
  obtain ⟨m', hpoke, hheap⟩ := exists_poke hpeek v
  cases hv : v.toHandle? with
  | none =>
    simp only [callMethod, hv, callInPlace, bind_apply, hpoke, callValue, throw_apply]
    exact .failed (.same _)
  | some f =>
    cases ho : m.heap.get? f with
    | none =>
      simp only [callMethod, hv, callInPlace, bind_apply, hpoke, callValue, object, get_apply,
        Heap.get, hheap, ho, except_apply]
      exact .failed (.same _)
    | some o =>
      have hkind : m.heap.kindOf? v = some o.kind := by simp [Heap.kindOf?, hv, ho]
      rw [hkind, Ne, Option.some.injEq] at hfunction hnative
      have heq : callMethod host receiver v argc m = callInPlace host v argc m := by
        simp only [callMethod, hv, bind_apply, object_apply ho]
        split <;> simp_all [callInPlace, bind_apply]
      rw [heq]
      exact .refl (fun _ => rfl) _

/-- A member that is read as it is. -/
theorem Found.sameEnd_invoke (hpeek : peek argc m = .ok receiver m)
    (hr : receiver.toHandle? = some r) (ho : m.heap.get? r = some o) (hv : Found name m o v) :
    SameEnd Eq (invoke host name argc m) (callInPlace host v argc m) := by
  cases hv with
  | plain hv hplain =>
    rw [invoke_eq hpeek hr ho hv, if_pos (by simp [hplain])]
    exact .refl (fun _ => rfl) _
  | other hv hfunction hnative =>
    rw [invoke_eq hpeek hr ho hv]
    split
    · exact .refl (fun _ => rfl) _
    · exact sameEnd_callMethod hpeek hfunction hnative
  | field hv hfield =>
    rw [invoke_field hpeek hr ho hv hfield]
    exact .refl (fun _ => rfl) _

theorem Bound.object (hv : Bound name m o v f) :
    ∃ p, m.heap.get? f = some p ∧ (p.kind = .function ∨ p.kind = .native) := by
  have hkind := hv.kind
  simp only [Heap.kindOf?, hv.handle, Option.bind_some] at hkind
  cases hp : m.heap.get? f with
  | none => simp [hp] at hkind
  | some p => exact ⟨p, rfl, by simpa [hp] using hkind⟩

/-- A member that is read as a method is called with the receiver where it is. -/
theorem Bound.invoke_eq (hpeek : peek argc m = .ok receiver m)
    (hr : receiver.toHandle? = some r) (ho : m.heap.get? r = some o) (hv : Bound name m o v f) :
    invoke host name argc m = callBound host receiver f argc m := by
  have hclass : m.heap.kindOf? v ≠ some .classObject := by
    rcases hv.kind with hk | hk <;> simp [hk]
  rw [Machine.invoke_eq hpeek hr ho hv.found, if_neg (by simp [hv.binds, hclass])]
  obtain ⟨p, hp, hk | hk⟩ := hv.object <;>
    simp only [callMethod, hv.handle, bind_apply, object_apply hp, hk]

/-- What was put in the place of a value can be put back. -/
theorem poke_back (hpeek : peek argc m = .ok receiver m) (hpoke : poke argc v m = .ok () m') :
    poke argc receiver m' = .ok () m := by
  obtain ⟨t, ht, hp⟩ := running_of_peek hpeek
  obtain ⟨stack, hstack, rfl⟩ := changeStack_eq_ok ht hpoke
  have hback : stack.poke argc receiver = .ok t.fiber.stack := by
    rw [OperandStack.poke_poke hstack, OperandStack.poke_of_peek hp]
  have hm : m = { m with running := some t } := by rw [← ht]
  simp only [poke, changeStack, withStack, hback]
  exact congrArg _ hm.symm

/-- Calling the object for a bound method puts the receiver back to its place. -/
theorem callInPlace_bound (hpeek : peek argc m = .ok receiver m) (hv : v.toHandle? = some r)
    (hb : m.heap.get? r = some (.ofBody (.boundMethod receiver f))) :
    callInPlace host v argc m = callBound host receiver f argc m := by
  obtain ⟨m', hpoke, hheap⟩ := exists_poke hpeek v
  rw [← hheap] at hb
  simp only [callInPlace, bind_apply, hpoke, callValue, hv, object_apply hb, Object.ofBody,
    poke_back hpeek hpoke]

theorem callBound_function {g : Function} (ho : m.heap.get? f = some o)
    (hb : o.body = .function g) :
    callBound host receiver f argc m = callFunction f argc false m := by
  simp only [callBound, bind_apply, object_apply ho, hb]

theorem peek_withObject (hpeek : peek argc m = .ok receiver m) (b : Body) :
    peek argc (m.withObject b) = .ok receiver (m.withObject b) := by
  obtain ⟨t, ht, hp⟩ := running_of_peek hpeek
  simp only [peek, withObject, ht, hp]

/-! ## What both ways come to -/

theorem property_of_bound (hr : receiver.toHandle? = some r) (ho : m.heap.get? r = some o)
    (hv : Bound name m o v f) : property receiver name m =
      .ok (.ofHandle (m.heap.alloc (.boundMethod receiver f)).2)
        (m.withObject (.boundMethod receiver f)) := by
  simp only [property, hr, bind_apply, object_apply ho, get_apply, hv.found, hv.handle]
  rcases hv.kind with hk | hk <;> simp only [hk, hv.binds] <;> rfl

theorem bindMember_ne_error {e : Fault} : bindMember receiver o v n m ≠ .error e m' := by
  intro h
  simp only [bindMember] at h
  cases hr : v.toHandle? with
  | none =>
    simp only [hr] at h
    cases h
  | some f =>
    cases hk : n.heap.kindOf? v with
    | none =>
      simp only [hr, hk] at h
      cases h
    | some k =>
      cases k with
      | function | native =>
        by_cases hplain : holdsPlainMembers o.kind <;>
          simp only [hr, hk, hplain, Bool.false_eq_true, ↓reduceIte] at h <;> cases h
      | _ =>
        simp only [hr, hk] at h
        cases h

/-- What cannot be read cannot be called. -/
theorem sameEnd_of_error {e : Fault} (hpeek : peek argc m = .ok receiver m)
    (h : property receiver name m = .error e m') :
    SameEnd Eq (invoke host name argc m) (callProperty host name argc m) := by
  have hcall : callProperty host name argc m = .error e m' := by
    simp only [callProperty, bind_apply, hpeek, h]
  rw [hcall]
  unfold property at h
  cases hr : receiver.toHandle? with
  | none =>
    rw [hr] at h
    cases h
    simp only [invoke, bind_apply, hpeek, hr, throw_apply]
    exact .failed (.scalar _)
  | some r =>
    rw [hr] at h
    cases ho : m.heap.get? r with
    | none =>
      simp only [object, bind_apply, get_apply, Heap.get, ho, except_apply] at h
      cases h
      simp only [invoke, bind_apply, hpeek, hr, object, get_apply, Heap.get, ho, except_apply]
      exact .failed (.same _)
    | some o =>
      simp only [bind_apply, object_apply ho, get_apply] at h
      cases hv : m.findMethod o name with
      | some v =>
        simp only [hv] at h
        exact absurd h bindMember_ne_error
      | none =>
        cases hfield : fieldOf? o name with
        | some v =>
          simp only [hv, hfield] at h
          cases h
        | none =>
          simp only [hv, hfield] at h
          cases h
          simp only [invoke, bind_apply, hpeek, hr, object_apply ho, get_apply, hv, hfield,
            throw_apply]
          exact .failed (.same _)

/-- Without a bound method both ways end with the same machine. -/
theorem sameEnd_of_unbound (h : ∀ receiver r o v f, peek argc m = .ok receiver m →
    receiver.toHandle? = some r → m.heap.get? r = some o → ¬ Bound name m o v f) :
    SameEnd Eq (invoke host name argc m) (callProperty host name argc m) := by
  cases hpeek : peek argc m with
  | error e m' =>
    simp only [invoke, callProperty, bind_apply, hpeek]
    exact .failed (.same e)
  | ok receiver m' =>
    obtain rfl : m' = m := by
      obtain ⟨t, ht⟩ : ∃ t, m.running = some t := by
        cases ht : m.running with
        | none => simp [peek, ht] at hpeek
        | some t => exact ⟨t, rfl⟩
      exact (peek_eq_ok ht hpeek).1
    cases hproperty : property receiver name m' with
    | ok w m'' =>
      rw [callProperty_eq hpeek hproperty]
      obtain ⟨r, o, hr, ho, hm⟩ := property_eq_ok hproperty
      cases hm with
      | found hv => exact hv.sameEnd_invoke hpeek hr ho
      | bound hv => exact absurd hv (h receiver r o _ _ hpeek hr ho)
    | error e m'' => exact sameEnd_of_error hpeek hproperty

/-- The ways part over a bound method, by the object for it. -/
theorem callProperty_of_bound (hw : m.heap.WellFormed) (hpeek : peek argc m = .ok receiver m)
    (hr : receiver.toHandle? = some r) (ho : m.heap.get? r = some o) (hv : Bound name m o v f)
    (hfit : (m.withObject (.boundMethod receiver f)).room ≤ Heap.slotLimit) :
    callProperty host name argc m =
      callBound host receiver f argc (m.withObject (.boundMethod receiver f)) := by
  rw [callProperty_eq hpeek (property_of_bound hr ho hv)]
  have hallocated := Heap.alloc_allocated hw.toArena _ hfit
  exact callInPlace_bound (peek_withObject hpeek _) (Value.toHandle?_ofHandle _)
    ((hallocated.get? _).trans (if_pos rfl))

/-- What is known of the place that a bound method was read from. -/
structure Binds (m : Machine) (name : Handle) (argc : Nat) (receiver : Value) (f : Handle) :
    Prop where
  peek : peek argc m = .ok receiver m
  object : ∃ r o v, receiver.toHandle? = some r ∧ m.heap.get? r = some o ∧ Bound name m o v f

/-- Calling a member at once and reading it first, in any machine in which no handle dangles:
both end with the same fault, or both end well with the same objects under handles of their
own. When reading the member binds no method, both end with the very same machine; and when it
binds a function that runs at once, the object for the method is all that differs. -/
structure InvocationGuarantees (host : HostFunctions) : Prop where
  corresponds : ∀ {m name argc}, m.Sound → m.heap.Has .text name →
    (after (invoke host name argc) m).room ≤ Heap.slotLimit →
    (after (callProperty host name argc) m).room ≤ Heap.slotLimit →
      SameEnd Correspond (invoke host name argc m) (callProperty host name argc m)
  unbound : ∀ {m name argc}, (∀ receiver f, ¬ Binds m name argc receiver f) →
    SameEnd Eq (invoke host name argc m) (callProperty host name argc m)
  function : ∀ {m name argc receiver r f m'}, m.heap.WellFormed → Binds m name argc receiver r →
    (m.withObject (.boundMethod receiver r)).room ≤ Heap.slotLimit →
    m.heap.function r = .ok f → f.isAsync = false → invoke host name argc m = .ok () m' →
      callProperty host name argc m =
        .ok () { m' with heap := (m.heap.alloc (.boundMethod receiver r)).1 }

theorem Sound.correspond_of_invoke (hh : host.Agrees Bool) (hm : m.Sound)
    (hn : m.heap.Has .text name) (hfit : (after (invoke host name argc) m).room ≤ Heap.slotLimit)
    (h : invoke host name argc m = .ok () m') : Correspond m' m' := by
  have hend := SameEnd.of_agree (agree_invoke hh hm.machines_self (copies_has hn) argc) hfit hfit
  rw [h] at hend
  cases hend with
  | ended hc => exact hc

/-- One machine is enough where no method is bound. -/
theorem Sound.sameEnd_of_eq (hh : host.Agrees Bool) (hm : m.Sound) (hn : m.heap.Has .text name)
    (hfit : (after (invoke host name argc) m).room ≤ Heap.slotLimit)
    {x : EStateM.Result Fault Machine Unit} (h : SameEnd Eq (invoke host name argc m) x) :
    SameEnd Correspond (invoke host name argc m) x := by
  have hself : ∀ m', invoke host name argc m = .ok () m' → Correspond m' m' := fun _ =>
    hm.correspond_of_invoke hh hn hfit
  generalize invoke host name argc m = y at h hself
  cases h with
  | ended he =>
    subst he
    exact .ended (hself _ rfl)
  | failed he => exact .failed he

/-- A bound method is called where it was read, and the object for it is garbage. -/
theorem Sound.sameEnd_of_bound (hh : host.Agrees Bool) (hm : m.Sound)
    (hfit : (after (invoke host name argc) m).room ≤ Heap.slotLimit)
    (hfit' : (after (callProperty host name argc) m).room ≤ Heap.slotLimit)
    (hb : Binds m name argc receiver f) :
    SameEnd Correspond (invoke host name argc m) (callProperty host name argc m) := by
  have := hh.tends
  obtain ⟨hpeek, r, o, v, hr, ho, hv⟩ := hb
  have hread : callProperty host name argc m = _ :=
    callProperty_eq hpeek (property_of_bound hr ho hv)
  have hroom : (m.withObject (.boundMethod receiver f)).room ≤ Heap.slotLimit := by
    have hle := room_le_after (callInPlace host (.ofHandle
      (m.heap.alloc (.boundMethod receiver f)).2) argc) (m.withObject (.boundMethod receiver f))
    simp only [after, hread] at hfit'
    exact Nat.le_trans hle hfit'
  have hcall : invoke host name argc m = _ := hv.invoke_eq hpeek hr ho
  have hcall' : callProperty host name argc m = _ :=
    callProperty_of_bound hm.heap hpeek hr ho hv hroom
  rw [hcall, hcall']
  have hreceiver : m.heap.Keeps receiver := by
    intro q hq
    cases hr.symm.trans hq
    simp [Heap.isLive, ho]
  obtain ⟨k, hk⟩ : ∃ k, m.heap.Has k f := by
    obtain ⟨p, hp, -⟩ := hv.object
    exact ⟨p.kind, p, hp, rfl⟩
  refine SameEnd.of_agree (agree_callBound hh (hm.machines_withObject (fun _ h => by cases h) hroom)
    (copies_values hreceiver) (copies_has hk) argc) ?_ ?_
  · simpa only [after, hcall] using hfit
  · simpa only [after, hcall'] using hfit'

theorem invocationGuarantees (hh : host.Agrees Bool) : InvocationGuarantees host where
  corresponds {m name argc} hm hn hfit hfit' := by
    by_cases hbinds : ∃ receiver f, Binds m name argc receiver f
    · obtain ⟨receiver, f, hb⟩ := hbinds
      exact hm.sameEnd_of_bound hh hfit hfit' hb
    · refine hm.sameEnd_of_eq hh hn hfit (sameEnd_of_unbound fun receiver r o v f hp hr ho hv => ?_)
      exact hbinds ⟨receiver, f, hp, r, o, v, hr, ho, hv⟩
  unbound h := sameEnd_of_unbound fun receiver r o v f hp hr ho hv =>
    h receiver f ⟨hp, r, o, v, hr, ho, hv⟩
  function {m name argc receiver r f m'} hw hb hfit hf hasync h := by
    obtain ⟨hpeek, q, o, v, hq, ho, hv⟩ := hb
    have hallocated := Heap.alloc_allocated hw.toArena (.boundMethod receiver r) hfit
    obtain ⟨p, hp, hfunction⟩ := Heap.function_eq_ok.mp hf
    rw [hv.invoke_eq hpeek hq ho, callBound_function hp hfunction] at h
    have hp' := hallocated.get?_of_get? hp
    rw [callProperty_of_bound hw hpeek hq ho hv hfit, callBound_function hp' hfunction]
    obtain ⟨t, ht, ha, hroom, hsize, rfl⟩ := (callFunction_eq_ok_iff hf hasync).mp h
    exact (callFunction_eq_ok_iff (Heap.function_eq_ok.mpr ⟨p, hp', hfunction⟩) hasync).mpr
      ⟨t, ht, ha, hroom, hsize, rfl⟩

/-- A program that asks for the length of a list. -/
def listMeasurer : Prototype where
  name := "script"
  arity := 0
  isAsync := false
  code := #[Opcode.createList.toByte, 0, 0, Opcode.invoke.toByte, 0, 0, 0, Opcode.ret.toByte]
  constants := [.text "length"]
  lines := #[]

/-- The machine in which the program has made its list. -/
def listMade : Machine := after (instruction Probe.host) (after (start listMeasurer) (new {}))

/-- The method of lists is native, and reading it binds it. -/
theorem invocationGuarantees_probe : InvocationGuarantees Probe.host ∧
    ∃ name, listMade.heap.texts.find? "length" = some name ∧
      SameEnd Correspond (invoke Probe.host name 0 listMade)
        (callProperty Probe.host name 0 listMade) := by
  have hall : InvocationGuarantees Probe.host := invocationGuarantees Probe.agrees_host
  have hm : listMade.Sound := by
    refine Reachable.sound Probe.careful_host ((Reachable.new {}).start listMeasurer).instruction ?_
    decide +kernel
  have hfits : ∀ name ∈ listMade.heap.texts.find? "length",
      (after (invoke Probe.host name 0) listMade).room ≤ Heap.slotLimit ∧
        (after (callProperty Probe.host name 0) listMade).room ≤ Heap.slotLimit := by
    decide +kernel
  cases hname : listMade.heap.texts.find? "length" with
  | none => exact absurd hname (by decide +kernel)
  | some name =>
    obtain ⟨hfit, hfit'⟩ := hfits name hname
    exact ⟨hall, name, rfl, hall.corresponds hm (hm.texts _ _ hname) hfit hfit'⟩

end Machine

end FiberMachine
