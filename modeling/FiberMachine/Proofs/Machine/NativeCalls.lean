import FiberMachine.Proofs.Machine.Fetching
import FiberMachine.Proofs.Machine.Lasting

/-!
# Calls of native functions

A call comes to a native function by itself or as a method of a receiver. The function runs at
once on the receiver, if it gets one, and the arguments, and its result takes the place of the
callee and the arguments. Which function it will be can be told before, and so can be told
which built-in functions are asked to change a dictionary.
-/

namespace FiberMachine

open Listing (Row Shown rowAt)

/-- The receiver that a native function gets. The members of modules get none. -/
def Heap.receiver? (h : Heap) (receiver : Value) : Option Value :=
  if h.kindOf? receiver = some .module then none else some receiver

/-- Calling a value comes to a native function with a receiver or without one. -/
inductive CallsNative (h : Heap) (callee : Value) (n : Native) : Option Value → Prop
  | plain {r : Handle} {o : Object} : callee.toHandle? = some r → h.get? r = some o →
      o.body = .native n → CallsNative h callee n none
  | method {b r : Handle} {receiver : Value} {o p : Object} : callee.toHandle? = some b →
      h.get? b = some o → o.body = .boundMethod receiver r → h.get? r = some p →
      p.body = .native n → CallsNative h callee n (h.receiver? receiver)

theorem CallsNative.get? {h : Heap} {callee : Value} {n : Native} {receiver : Option Value}
    (hc : CallsNative h callee n receiver) :
    ∃ r o, callee.toHandle? = some r ∧ h.get? r = some o := by
  cases hc with
  | plain hr ho => exact ⟨_, _, hr, ho⟩
  | method hq ho => exact ⟨_, _, hq, ho⟩

/-! ## Built-in functions that ask a dictionary -/

/-- What a built-in function asks of its first argument, given the others. -/
def Builtin.query? : Builtin → List Value → Option (Query Value)
  | .dictPut, k :: v :: _ => some (.put k v)
  | .dictGet, k :: _ => some (.get k)
  | .dictHas, k :: _ => some (.has k)
  | .dictRemove, k :: _ => some (.remove k)
  | .dictSize, _ => some .size
  | .dictKeys, _ => some .keys
  | _, _ => none

namespace NativeCall

variable {h h' : Heap} {name : String} {args : List Value} {v result : Value} {i : Nat} {d : Handle}

theorem value_eq_ok (hv : (liftM (NativeCall.value ⟨name, args⟩ i) : Heap.Act Value) h = .ok v h') :
    h' = h ∧ args[i]? = some v := by
  rw [except_apply, NativeCall.value] at hv
  cases hi : args[i]? with
  | none =>
    simp only [hi] at hv
    cases hv
  | some w =>
    simp only [hi] at hv
    cases hv
    exact ⟨rfl, rfl⟩

theorem object_eq_ok {kind : Kind} (hd : NativeCall.object ⟨name, args⟩ i kind h = .ok d h') :
    h' = h ∧ args[i]? = some (.ofHandle d) := by
  obtain ⟨v, h₁, hv, hget⟩ := bind_eq_ok hd
  obtain ⟨rfl, harg⟩ := value_eq_ok hv
  obtain ⟨_, _, hg, hkind⟩ := bind_eq_ok hget
  cases hg
  cases hr : v.toHandle? with
  | none =>
    simp only [hr] at hkind
    cases hkind
  | some r =>
    simp only [hr] at hkind
    obtain ⟨o, h₂, ho, hkind⟩ := bind_eq_ok hkind
    rw [except_apply] at ho
    split at ho <;> cases ho
    split at hkind <;> cases hkind
    exact ⟨rfl, harg.trans (congrArg some (Value.ofHandle_of_toHandle? hr).symm)⟩

theorem dictPut_eq_ok (hp : dictPut ⟨name, args⟩ h = .ok result h') :
    ∃ d k v rest, args = .ofHandle d :: k :: v :: rest ∧
      h' = h.update d (Heap.changeDictionary (·.insert k v)) := by
  obtain ⟨d, h₁, hd, hkey⟩ := bind_eq_ok hp
  obtain ⟨rfl, hfirst⟩ := object_eq_ok hd
  obtain ⟨k, h₂, hk, hvalue⟩ := bind_eq_ok hkey
  obtain ⟨rfl, hsecond⟩ := value_eq_ok hk
  obtain ⟨v, h₃, hv, hchange⟩ := bind_eq_ok hvalue
  obtain ⟨rfl, hthird⟩ := value_eq_ok hv
  obtain ⟨_, h₄, hc, hdone⟩ := bind_eq_ok hchange
  cases hdone
  obtain _ | ⟨_, _ | ⟨_, _ | ⟨_, rest⟩⟩⟩ := args <;>
    cases hfirst <;> cases hsecond <;> cases hthird
  exact ⟨d, k, v, rest, rfl, Heap.change_eq_ok hc⟩

theorem dictRemove_eq_ok (hp : dictRemove ⟨name, args⟩ h = .ok result h') :
    ∃ d k rest, args = .ofHandle d :: k :: rest ∧
      h' = h.update d (Heap.changeDictionary (·.erase k)) := by
  obtain ⟨d, h₁, hd, hkey⟩ := bind_eq_ok hp
  obtain ⟨rfl, hfirst⟩ := object_eq_ok hd
  obtain ⟨k, h₂, hk, hold⟩ := bind_eq_ok hkey
  obtain ⟨rfl, hsecond⟩ := value_eq_ok hk
  obtain ⟨_, _, hg, htable⟩ := bind_eq_ok hold
  cases hg
  obtain ⟨t, h₃, ht, hchange⟩ := bind_eq_ok htable
  rw [except_apply] at ht
  split at ht <;> cases ht
  obtain ⟨_, h₄, hc, hdone⟩ := bind_eq_ok hchange
  cases hdone
  obtain _ | ⟨_, _ | ⟨_, rest⟩⟩ := args <;> cases hfirst <;> cases hsecond
  exact ⟨d, k, rest, rfl, Heap.change_eq_ok hc⟩

end NativeCall

namespace Machine

variable {host : HostFunctions} {m m₁ m' : Machine} {argc : Nat} {n : Native}
  {callee target : Value} {receiver : Option Value} {name r : Handle} {o p : Object}
  {args : List Value} {b : Builtin}

/-- Calling a member comes to a native function. -/
inductive InvokesNative (m : Machine) (target : Value) (name : Handle) (n : Native) :
    Option Value → Prop
  | method {q f : Handle} {o p : Object} {v : Value} : target.toHandle? = some q →
      m.heap.get? q = some o → Bound name m o v f → m.heap.get? f = some p → p.body = .native n →
      InvokesNative m target name n (m.heap.receiver? target)
  | member {q : Handle} {o : Object} {v : Value} {receiver : Option Value} :
      target.toHandle? = some q → m.heap.get? q = some o → Found name m o v →
      CallsNative m.heap v n receiver → InvokesNative m target name n receiver

/-- What the next instruction is and what it gets from its row. -/
def Fetches (m : Machine) (op : Opcode) (x : Inputs) : Prop :=
  ∃ f shown, m.frame? = some f ∧ rowAt f.chunk.code f.ip = .instruction op shown ∧
    shown.inputs m.heap f.chunk op = .ok x

/-- The next instruction comes to a native function with a number of arguments. -/
inductive RunsNative (m : Machine) (argc : Nat) (n : Native) : Option Value → Prop
  | call {callee : Value} {receiver : Option Value} : Fetches m .call (.number argc) →
      peek argc m = .ok callee m → CallsNative m.heap callee n receiver →
      RunsNative m argc n receiver
  | invoke {target : Value} {name : Handle} {receiver : Option Value} :
      Fetches m .invoke (.member name argc) → peek argc m = .ok target m →
      InvokesNative m target name n receiver → RunsNative m argc n receiver

/-! ## Instructions -/

theorem Fetches.instruction_eq {op : Opcode} {x : Inputs} (hx : Fetches m op x) :
    instruction host m = perform host op x (m.skip op.size) := by
  obtain ⟨f, shown, hf, hrow, hinputs⟩ := hx
  have hends := @instruction_of_row m f host op shown hf hrow
  rwa [hinputs] at hends

/-- An instruction that succeeds has got all that it reads. -/
theorem exists_fetches {u : Unit} (h : instruction host m = .ok u m') : ∃ op x, Fetches m op x := by
  cases hf : m.frame? with
  | none =>
    cases hbyte : readByte m with
    | error e m₁ =>
      rw [instruction, bind_apply, hbyte] at h
      cases h
    | ok byte m₁ =>
      obtain ⟨-, f, hf', -⟩ := readByte_eq_ok hbyte
      rw [hf] at hf'
      cases hf'
  | some f =>
    cases hrow : rowAt f.chunk.code f.ip with
    | instruction op shown =>
      have hends := @instruction_of_row m f host op shown hf hrow
      cases hx : shown.inputs m.heap f.chunk op with
      | ok x => exact ⟨op, x, f, shown, hf, hrow, hx⟩
      | error e =>
        rw [hx] at hends
        obtain ⟨m₁, hends⟩ := hends
        rw [h] at hends
        cases hends
    | truncated op =>
      obtain ⟨e, m₁, hends⟩ := @instruction_of_truncated m f host op hf hrow
      rw [h] at hends
      cases hends
    | unknown byte =>
      rw [instruction_of_unknown hf hrow] at h
      cases h
    | endOfCode =>
      rw [instruction_of_endOfCode hf hrow] at h
      cases h

theorem unchanged_peek {d : Nat} {v : Value} (h : peek d m = .ok v m') : m' = m := by
  cases ht : m.running with
  | none => simp [peek, ht] at h
  | some t => exact (peek_eq_ok ht h).1

theorem peek_iff {t : Running} {d : Nat} {v : Value} (ht : m.running = some t) :
    peek d m = .ok v m ↔ t.fiber.stack.peek d = .ok v := by
  refine ⟨fun h => (peek_eq_ok ht h).2, fun h => ?_⟩
  simp only [peek, ht, h]

theorem peek_skip {k d : Nat} {v : Value} :
    peek d (m.skip k) = .ok v (m.skip k) ↔ peek d m = .ok v m := by
  cases ht : m.running with
  | none => simp [peek, skip, ht]
  | some t =>
    rw [peek_iff (running_skip ht), peek_iff ht]
    rfl

/-! ## Calls -/

/-- The machines differ at most in the frames and in what is in the place of the callee. -/
structure AtCallee (argc : Nat) (m m₁ : Machine) : Prop where
  heap : m₁.heap = m.heap
  top : ∀ args, top argc m₁ = .ok args m₁ ↔ top argc m = .ok args m
  room : HasRoom (argc + 1) 0 m → HasRoom (argc + 1) 0 m₁

theorem top_iff {t : Running} {count : Nat} {args : Array Value} (ht : m.running = some t) :
    top count m = .ok args m ↔ t.fiber.stack.top count = .ok args := by
  refine ⟨fun h => (top_eq_ok ht h).2, fun h => ?_⟩
  simp only [top, bind_apply, fiber, ht, except_apply, h]

namespace AtCallee

theorem refl (argc : Nat) (m : Machine) : AtCallee argc m m := ⟨rfl, fun _ => .rfl, id⟩

theorem trans {m₂ : Machine} (h : AtCallee argc m m₁) (h' : AtCallee argc m₁ m₂) :
    AtCallee argc m m₂ :=
  ⟨h'.heap.trans h.heap, fun args => (h'.top args).trans (h.top args), h'.room ∘ h.room⟩

theorem skip (argc k : Nat) (m : Machine) : AtCallee argc m (m.skip k) := by
  refine ⟨rfl, fun args => ?_, fun ⟨t, ht, hsize, hroom⟩ => ⟨_, running_skip ht, hsize, hroom⟩⟩
  cases ht : m.running with
  | none => simp [Machine.top, bind_apply, fiber, Machine.skip, ht]
  | some t =>
    rw [top_iff (running_skip ht), top_iff ht]
    rfl

theorem poke {v : Value} {u : Unit} (h : poke argc v m = .ok u m₁) : AtCallee argc m m₁ := by
  cases ht : m.running with
  | none => simp [Machine.poke, changeStack, ht] at h
  | some t =>
    refine ⟨?_, fun args => ?_, fun hroom => hroom.poke h⟩ <;>
      obtain ⟨stack, hstack, -, rfl⟩ := poke_eq_ok ht h
    · rfl
    · rw [top_iff ht, top_iff rfl, OperandStack.top_poke hstack]

end AtCallee

theorem callBound_native {receiver : Value} (hp : m.heap.get? r = some p)
    (hb : p.body = .native n) : callBound host receiver r argc m =
      callNative host n argc (m.heap.receiver? receiver) m := by
  simp only [callBound, bind_apply, object_apply hp, hb, get_apply, Heap.receiver?]
  cases hk : m.heap.kindOf? receiver with
  | none => rfl
  | some kind => cases kind <;> rfl

theorem callValue_native (hr : callee.toHandle? = some r) (ho : m.heap.get? r = some o)
    (hb : o.body = .native n) : callValue host callee argc m = callNative host n argc none m := by
  simp only [callValue, hr, bind_apply, object_apply ho, hb]

/-- A value that comes to a native function is called when the function is. -/
theorem callValue_of_callsNative (hpeek : peek argc m = .ok callee m)
    (hc : CallsNative m.heap callee n receiver) :
    ∃ m₁, AtCallee argc m m₁ ∧
      ∀ host, callValue host callee argc m = callNative host n argc receiver m₁ := by
  cases hc with
  | plain hr ho hb => exact ⟨m, .refl argc m, fun host => callValue_native hr ho hb⟩
  | @method q r receiver o p hq ho hb hp hbody =>
    obtain ⟨m₁, hpoke, hheap⟩ := exists_poke hpeek receiver
    refine ⟨m₁, .poke hpoke, fun host => ?_⟩
    rw [← hheap] at hp
    rw [callValue_method hq ho hb, bind_apply, hpoke, ← hheap]
    exact callBound_native hp hbody

theorem callInPlace_of_callsNative (hpeek : peek argc m = .ok target m)
    (hc : CallsNative m.heap callee n receiver) :
    ∃ m₁, AtCallee argc m m₁ ∧
      ∀ host, callInPlace host callee argc m = callNative host n argc receiver m₁ := by
  obtain ⟨m₁, hpoke, hheap⟩ := exists_poke hpeek callee
  rw [← hheap] at hc
  obtain ⟨m₂, hat, hcall⟩ := callValue_of_callsNative (peek_of_poke hpoke) hc
  refine ⟨m₂, (AtCallee.poke hpoke).trans hat, fun host => ?_⟩
  rw [callInPlace, bind_apply, hpoke]
  exact hcall host

/-- A member that is there is called in the place of its object. -/
theorem Found.invoke_eq {q f : Handle} {v : Value} (hv : Found name m o v)
    (hpeek : peek argc m = .ok target m) (hq : target.toHandle? = some q)
    (ho : m.heap.get? q = some o) (hf : v.toHandle? = some f) (hp : m.heap.get? f = some p) :
    invoke host name argc m = callInPlace host v argc m := by
  cases hv with
  | plain hv hplain => rw [Machine.invoke_eq hpeek hq ho hv, if_pos (by simp [hplain])]
  | field hv hfield => exact invoke_field hpeek hq ho hv hfield
  | other hv hfunction hnative =>
    rw [Machine.invoke_eq hpeek hq ho hv]
    split
    · rfl
    · have hkind : m.heap.kindOf? v = some p.kind := by simp [Heap.kindOf?, hf, hp]
      rw [hkind, ne_eq, Option.some.injEq] at hfunction hnative
      simp only [callMethod, hf, bind_apply, object_apply hp, callInPlace]

theorem invoke_of_invokesNative (hpeek : peek argc m = .ok target m)
    (hi : InvokesNative m target name n receiver) :
    ∃ m₁, AtCallee argc m m₁ ∧
      ∀ host, invoke host name argc m = callNative host n argc receiver m₁ := by
  cases hi with
  | method hq ho hv hp hb =>
    refine ⟨m, .refl argc m, fun host => ?_⟩
    rw [hv.invoke_eq hpeek hq ho]
    exact callBound_native hp hb
  | member hq ho hv hc =>
    obtain ⟨f, p, hf, hp⟩ := hc.get?
    obtain ⟨m₁, hat, hcall⟩ := callInPlace_of_callsNative hpeek hc
    exact ⟨m₁, hat, fun host => (hv.invoke_eq hpeek hq ho hf hp).trans (hcall host)⟩

theorem InvokesNative.congr (hi : InvokesNative m target name n receiver) (hh : m₁.heap = m.heap)
    (hm : m₁.methods = m.methods) : InvokesNative m₁ target name n receiver := by
  have hfind : ∀ o, m₁.findMethod o name = m.findMethod o name := fun o => by
    rw [findMethod, hm]
    rfl
  cases hi with
  | method hq ho hv hp hb =>
    rw [← hh] at ho hp ⊢
    exact .method hq ho ⟨(hfind _).trans hv.found, hv.handle, hh ▸ hv.kind, hv.binds⟩ hp hb
  | member hq ho hv hc =>
    rw [← hh] at ho hc
    refine .member hq ho ?_ hc
    cases hv with
    | plain hv hplain => exact .plain ((hfind _).trans hv) hplain
    | other hv hfunction hnative =>
      exact .other ((hfind _).trans hv) (hh ▸ hfunction) (hh ▸ hnative)
    | field hv hfield => exact .field ((hfind _).trans hv) hfield

/-- Where an instruction calls its native function from does not depend on the host. -/
theorem RunsNative.instruction_eq (hr : RunsNative m argc n receiver) :
    ∃ m₁, AtCallee argc m m₁ ∧
      ∀ host, instruction host m = callNative host n argc receiver m₁ := by
  cases hr with
  | @call callee _ hx hpeek hc =>
    have hpeek' : peek argc (m.skip (Opcode.size .call)) = .ok callee _ := peek_skip.mpr hpeek
    obtain ⟨m₁, hat, hcall⟩ := callValue_of_callsNative hpeek' hc
    refine ⟨m₁, (AtCallee.skip argc _ m).trans hat, fun host => ?_⟩
    rw [hx.instruction_eq, perform, bind_apply, hpeek']
    exact hcall host
  | @invoke target name _ hx hpeek hi =>
    have hpeek' : peek argc (m.skip (Opcode.size .invoke)) = .ok target _ := peek_skip.mpr hpeek
    obtain ⟨m₁, hat, hcall⟩ := invoke_of_invokesNative hpeek' (hi.congr rfl rfl)
    refine ⟨m₁, (AtCallee.skip argc _ m).trans hat, fun host => ?_⟩
    rw [hx.instruction_eq]
    exact hcall host

theorem callNative_builtin (host : HostFunctions) {b : Builtin} (hcode : n.code = .builtin b) :
    callNative host n argc receiver = callNative HostFunctions.none n argc receiver := by
  simp only [callNative, runNative, hcode]

/-! ## What calls do to dictionaries -/

theorem unchanged_top {count : Nat} {given : Array Value} (h : top count m = .ok given m') :
    m' = m := by
  cases ht : m.running with
  | none => simp [top, bind_apply, fiber, ht] at h
  | some t => exact (top_eq_ok ht h).1

/-- A dictionary is changed, and nothing else. -/
def Alters (d : Handle) (m m' : Machine) : Prop :=
  ∃ f, m'.heap = m.heap.update d (Heap.changeDictionary f)

/-- A native function that is called asks a dictionary. -/
inductive Poses (m : Machine) (argc : Nat) (n : Native) (receiver : Option Value) (d : Handle)
    (q : Query Value) : Prop
  | intro {b : Builtin} {given : Array Value} {rest : List Value} : refused n.arity argc = none →
      top argc m = .ok given m → n.code = .builtin b →
      receiver.toList ++ given.toList = .ofHandle d :: rest → b.query? rest = some q →
      Poses m argc n receiver d q

theorem builtin_cases {v : Value} (h : b.run args m = .ok v m') : Lasts m m' ∨
    ∃ d rest q, args = .ofHandle d :: rest ∧ b.query? rest = some q ∧ Alters d m m' := by
  by_cases hput : b = .dictPut
  · subst hput
    have hrun : (liftM (NativeCall.dictPut ⟨Builtin.name .dictPut, args⟩) : Act Value) m =
        .ok v m' := h
    rw [lift_apply] at hrun
    split at hrun <;> cases hrun
    rename_i hput
    obtain ⟨d, k, v, rest, rfl, hheap⟩ := NativeCall.dictPut_eq_ok hput
    exact .inr ⟨d, _, .put k v, rfl, rfl, _, hheap⟩
  · by_cases hremove : b = .dictRemove
    · subst hremove
      have hrun : (liftM (NativeCall.dictRemove ⟨Builtin.name .dictRemove, args⟩) : Act Value) m =
          .ok v m' := h
      rw [lift_apply] at hrun
      split at hrun <;> cases hrun
      rename_i hremove
      obtain ⟨d, k, rest, rfl, hheap⟩ := NativeCall.dictRemove_eq_ok hremove
      exact .inr ⟨d, _, .remove k, rfl, rfl, _, hheap⟩
    · have := lasts_builtin hput hremove args
      exact .inl (after_ok h ▸ lasts_after (b.run args) m)

/-- A native function that is called takes its arguments from the top and leaves its result in
the place of the callee. -/
theorem exists_of_callNative (h : callNative host n argc receiver m = .ok () m') :
    ∃ given v m₁, refused n.arity argc = none ∧ top argc m = .ok given m ∧
      runNative host n (receiver.toList ++ given.toList) m = .ok v m₁ ∧
      replaceTop (argc + 1) v m₁ = .ok () m' := by
  cases harity : refused n.arity argc with
  | some expected =>
    simp only [callNative, harity] at h
    cases h
  | none =>
    simp only [callNative, harity] at h
    obtain ⟨given, m₁, htop, hrun⟩ := bind_eq_ok h
    obtain ⟨v, m₂, hrun, hplace⟩ := bind_eq_ok hrun
    obtain rfl := unchanged_top htop
    exact ⟨given, v, m₂, rfl, htop, hrun, hplace⟩

/-! ## Without functions of the host -/

theorem runNative_cases {v : Value} (h : runNative HostFunctions.none n args m = .ok v m') :
    Persists m m' ∨ ∃ b d rest q, n.code = .builtin b ∧ args = .ofHandle d :: rest ∧
      b.query? rest = some q ∧ Alters d m m' := by
  cases hcode : n.code with
  | builtin b =>
    simp only [runNative, hcode] at h
    obtain hlasts | ⟨d, rest, q, hargs, hq, ha⟩ := builtin_cases h
    · exact .inl hlasts.persists
    · exact .inr ⟨b, d, rest, q, rfl, hargs, hq, ha⟩
  | host id =>
    simp only [runNative, hcode] at h
    cases h

theorem callNative_cases (h : callNative HostFunctions.none n argc receiver m = .ok () m') :
    Persists m m' ∨ ∃ d q, Poses m argc n receiver d q ∧ Alters d m m' := by
  obtain ⟨given, v, m₁, harity, htop, hrun, hplace⟩ := exists_of_callNative h
  have hheap := heap_of_changeStack hplace
  obtain hpersists | ⟨b, d, rest, q, hcode, hargs, hq, f, hf⟩ := runNative_cases hrun
  · exact .inl (hpersists.congr hheap)
  · exact .inr ⟨d, q, ⟨harity, htop, hcode, hargs, hq⟩, f, hheap.trans hf⟩

/-- Objects are made, and then a native function is called that may get one of the new ones. -/
theorem persists_of_new {s : Handle} {given : Value} (hg : given = .ofHandle s)
    (hmade : Lasts m m₁)
    (hnew : m.heap.WellFormed → m₁.room ≤ Heap.slotLimit → m.heap.get? s = none)
    (h : callNative HostFunctions.none n argc (some given) m₁ = .ok () m') : Persists m m' := by
  obtain hpersists | ⟨d, q, hposes, f, hheap⟩ := callNative_cases h
  · exact hmade.then hpersists
  · obtain ⟨-, -, -, hargs, -⟩ := hposes
    obtain rfl : s = d := Value.ofHandle_injective (hg.symm.trans (List.cons.inj hargs).1)
    have hlast : Heap.Lasts m.heap m'.heap := hheap ▸ Heap.Lasts.update_new hmade hnew _
    exact Lasts.persists hlast

/-- A class that is called changes nothing but its new instance. -/
theorem persists_callClass {cls : Handle}
    (h : callClass HostFunctions.none cls argc m = .ok () m') : Persists m m' := by
  obtain ⟨s, m₁, hnew, hpoke⟩ := bind_eq_ok h
  obtain ⟨_, m₂, hpoke, hname⟩ := bind_eq_ok hpoke
  obtain ⟨construct, m₃, hname, hobject⟩ := bind_eq_ok hname
  obtain ⟨o, m₄, hobject, hcall⟩ := bind_eq_ok hobject
  obtain ⟨rfl, -⟩ := object_eq_ok hobject
  have hrest : Lasts m₁ m₄ := by
    have hplaced := after_ok hpoke ▸ lasts_after (poke argc (.ofHandle s)) m₁
    exact trans_of Lasts hplaced (after_ok hname ▸ lasts_after (intern "construct") m₂)
  have hmade : Lasts m m₄ :=
    trans_of Lasts (after_ok hnew ▸ lasts_after (liftM (Heap.newInstance cls) : Act Handle) m) hrest
  have hfresh : m.heap.WellFormed → m₄.room ≤ Heap.slotLimit → m.heap.get? s = none := by
    intro hw hfit
    obtain ⟨p, -, rfl, rfl⟩ := newInstance_eq_ok hnew
    exact Heap.get?_alloc_snd hw ((size_withInstance cls p m.heap) ▸ hrest.size_le.trans hfit)
  cases hr : (o.members.find? construct).bind Value.toHandle? with
  | none =>
    simp only [hr] at hcall
    split at hcall
    · cases hb : o.body <;> simp only [hb] at hcall <;> cases hcall
    · cases hcall
      exact hmade.persists
  | some r =>
    simp only [hr] at hcall
    obtain ⟨p, m₅, hp, hbody⟩ := bind_eq_ok hcall
    obtain ⟨rfl, -⟩ := object_eq_ok hp
    cases hb : p.body with
    | function f =>
      simp only [hb] at hbody
      have hlasts := after_ok hbody ▸ lasts_after (callFunction r argc true) m₅
      exact (trans_of Lasts hmade hlasts).persists
    | native n =>
      simp only [hb] at hbody
      obtain ⟨_, m₆, hnative, hplace⟩ := bind_eq_ok hbody
      exact (persists_of_new rfl hmade hfresh hnative).congr (heap_of_changeStack hplace)
    | _ =>
      simp only [hb] at hbody
      cases hbody

theorem persists_callUnbound (h : callUnbound HostFunctions.none r argc m = .ok () m') :
    Persists m m' := by
  obtain ⟨_, m₁, hpoke, hcall⟩ := bind_eq_ok h
  obtain ⟨p, m₂, hp, hbody⟩ := bind_eq_ok hcall
  obtain ⟨rfl, -⟩ := object_eq_ok hp
  cases hb : p.body with
  | classObject name =>
    simp only [hb] at hbody
    exact (Stands.of_eq (heap_of_changeStack hpoke)).lasts.then (persists_callClass hbody)
  | _ =>
    simp only [hb] at hbody
    cases hbody

theorem callBound_cases {target : Value}
    (h : callBound HostFunctions.none target r argc m = .ok () m') :
    Persists m m' ∨ ∃ n p, m.heap.get? r = some p ∧ p.body = .native n ∧
      callNative HostFunctions.none n argc (m.heap.receiver? target) m = .ok () m' := by
  obtain ⟨p, m₁, hp, hcall⟩ := bind_eq_ok h
  obtain ⟨rfl, hp⟩ := object_eq_ok hp
  cases hb : p.body with
  | function f =>
    simp only [hb] at hcall
    exact .inl (after_ok hcall ▸ lasts_after (callFunction r argc false) m₁).persists
  | native n => exact .inr ⟨n, p, hp, hb, callBound_native hp hb ▸ h⟩
  | _ =>
    simp only [hb] at hcall
    exact .inl (persists_callUnbound hcall)

/-- What is called comes to a native function, or all texts and dictionaries persist. -/
theorem callValue_cases (h : callValue HostFunctions.none callee argc m = .ok () m') :
    Persists m m' ∨ ∃ n receiver m₁, CallsNative m.heap callee n receiver ∧ AtCallee argc m m₁ ∧
      callNative HostFunctions.none n argc receiver m₁ = .ok () m' := by
  unfold callValue at h
  cases hr : callee.toHandle? with
  | none =>
    simp only [hr] at h
    cases h
  | some r =>
    simp only [hr] at h
    obtain ⟨o, m₁, ho, hcall⟩ := bind_eq_ok h
    obtain ⟨rfl, ho⟩ := object_eq_ok ho
    cases hb : o.body with
    | function f =>
      simp only [hb] at hcall
      have hlasts := after_ok hcall ▸ lasts_after (callFunction r argc false) m₁
      exact .inl hlasts.persists
    | native n =>
      simp only [hb] at hcall
      exact .inr ⟨n, none, m₁, .plain hr ho hb, .refl argc m₁, hcall⟩
    | classObject name =>
      simp only [hb] at hcall
      exact .inl (persists_callClass hcall)
    | boundMethod target method =>
      simp only [hb] at hcall
      obtain ⟨_, m₂, hpoke, hcall⟩ := bind_eq_ok hcall
      have hheap := heap_of_changeStack hpoke
      obtain hpersists | ⟨n, p, hp, hbody, hcall⟩ := callBound_cases hcall
      · exact .inl ((Stands.of_eq hheap).lasts.then hpersists)
      · rw [hheap] at hp hcall
        exact .inr ⟨n, _, m₂, .method hr ho hb hp hbody, .poke hpoke, hcall⟩
    | _ =>
      simp only [hb] at hcall
      cases hcall

theorem callInPlace_cases {v : Value} (h : callInPlace HostFunctions.none v argc m = .ok () m') :
    Persists m m' ∨ ∃ n receiver m₁, CallsNative m.heap v n receiver ∧ AtCallee argc m m₁ ∧
      callNative HostFunctions.none n argc receiver m₁ = .ok () m' := by
  obtain ⟨_, m₁, hpoke, hcall⟩ := bind_eq_ok h
  have hheap := heap_of_changeStack hpoke
  obtain hpersists | ⟨n, receiver, m₂, hnative, hat, hcall⟩ := callValue_cases hcall
  · exact .inl ((Stands.of_eq hheap).lasts.then hpersists)
  · exact .inr ⟨n, receiver, m₂, hheap ▸ hnative, (AtCallee.poke hpoke).trans hat, hcall⟩

theorem found_or_bound {v : Value} (hv : m.findMethod o name = some v) :
    Found name m o v ∨ ∃ f, Bound name m o v f := by
  by_cases hkind : m.heap.kindOf? v = some .function ∨ m.heap.kindOf? v = some .native
  · by_cases hplain : holdsPlainMembers o.kind
    · exact .inl (.plain hv hplain)
    · cases hf : v.toHandle? with
      | none => simp [Heap.kindOf?, hf] at hkind
      | some f => exact .inr ⟨f, hv, hf, hkind, hplain⟩
  · rw [not_or] at hkind
    exact .inl (.other hv hkind.1 hkind.2)

/-- A member that is called comes to a native function, or all texts and dictionaries persist. -/
theorem invoke_cases (hpeek : peek argc m = .ok target m)
    (h : invoke HostFunctions.none name argc m = .ok () m') : Persists m m' ∨
    ∃ n receiver m₁, InvokesNative m target name n receiver ∧ AtCallee argc m m₁ ∧
      callNative HostFunctions.none n argc receiver m₁ = .ok () m' := by
  cases hq : target.toHandle? with
  | none =>
    simp only [invoke, bind_apply, hpeek, hq] at h
    cases h
  | some q =>
    cases ho : m.heap.get? q with
    | none =>
      simp only [invoke, bind_apply, hpeek, hq, object, get_apply, Heap.get, ho, except_apply] at h
      cases h
    | some o =>
      have hfound : ∀ {v}, Found name m o v → Persists m m' ∨ ∃ n receiver m₁,
          InvokesNative m target name n receiver ∧ AtCallee argc m m₁ ∧
            callNative HostFunctions.none n argc receiver m₁ = .ok () m' := by
        intro v hv
        have hend := @Found.sameEnd_invoke HostFunctions.none _ _ _ _ _ _ _ hpeek hq ho hv
        rw [h] at hend
        generalize hcall : callInPlace HostFunctions.none v argc m = result at hend
        cases hend with
        | ended hm =>
          subst hm
          obtain hpersists | ⟨n, receiver, m₁, hnative, hrest⟩ := callInPlace_cases hcall
          · exact .inl hpersists
          · exact .inr ⟨n, receiver, m₁, .member hq ho hv hnative, hrest⟩
      cases hv : m.findMethod o name with
      | none =>
        cases hfield : fieldOf? o name with
        | none =>
          simp only [invoke, bind_apply, hpeek, hq, object_apply ho, get_apply, hv, hfield] at h
          cases h
        | some v => exact hfound (.field hv hfield)
      | some v =>
        obtain hv | ⟨f, hv⟩ := found_or_bound hv
        · exact hfound hv
        · rw [hv.invoke_eq hpeek hq ho] at h
          obtain hpersists | ⟨n, p, hp, hb, hcall⟩ := callBound_cases h
          · exact .inl hpersists
          · exact .inr ⟨n, _, m, .method hq ho hv hp hb, .refl argc m, hcall⟩

/-- An instruction that calls something comes to a native function, or all texts and
dictionaries persist. -/
theorem call_cases {op : Opcode} {x : Inputs} (hx : Fetches m op x)
    (hop : op = .call ∨ op = .invoke) (h : instruction HostFunctions.none m = .ok () m') :
    Persists m m' ∨ ∃ argc n receiver m₁, RunsNative m argc n receiver ∧ AtCallee argc m m₁ ∧
      callNative HostFunctions.none n argc receiver m₁ = .ok () m' := by
  rw [hx.instruction_eq] at h
  have hskip : Lasts m (m.skip op.size) := (Stands.of_eq rfl).lasts
  rcases hop with rfl | rfl
  · cases x with
    | number argc =>
      obtain ⟨callee, m₁, hpeek, hcall⟩ := bind_eq_ok h
      obtain rfl := unchanged_peek hpeek
      obtain hpersists | ⟨n, receiver, m₁, hnative, hat, hcall⟩ := callValue_cases hcall
      · exact .inl (hskip.then hpersists)
      · exact .inr ⟨argc, n, receiver, m₁, .call hx (peek_skip.mp hpeek) hnative,
          (AtCallee.skip argc _ m).trans hat, hcall⟩
    | _ => cases h
  · cases x with
    | member name argc =>
      have hinvoke : invoke HostFunctions.none name argc (m.skip (Opcode.size .invoke)) =
          .ok () m' := h
      obtain ⟨target, m₁, hpeek, -⟩ := bind_eq_ok hinvoke
      obtain rfl := unchanged_peek hpeek
      obtain hpersists | ⟨n, receiver, m₁, hnative, hat, hcall⟩ := invoke_cases hpeek hinvoke
      · exact .inl (hskip.then hpersists)
      · exact .inr ⟨argc, n, receiver, m₁, .invoke hx (peek_skip.mp hpeek) (hnative.congr rfl rfl),
          (AtCallee.skip argc _ m).trans hat, hcall⟩
    | _ => cases h

end Machine

end FiberMachine
