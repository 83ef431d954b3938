import FiberMachine.Proofs.Machine.Guarding
import FiberMachine.Proofs.Machine.Histories

/-!
# Functions of the host at work

An instruction calls at most one function of the host. Before that it has made nothing but an
instance for the function to work on, and afterwards only operands change. An instruction that
calls none does what it would do if the host had none.
-/

namespace FiberMachine

open Relation (ReflTransGen)

namespace Machine

variable {α β : Type} {host : HostFunctions} {P : Heap → Heap → Prop} {h : Heap}
  {m m₀ m₁ m' : Machine} {x y : Act α} {f g : α → Act β} {r q : Handle} {argc : Nat}

/-! ## Calls of the host's functions -/

/-- A native function of the host is called with live arguments in a sound machine that holds it.
It succeeds, or it fails. -/
inductive HostRuns (host : HostFunctions) (m m' : Machine) : Prop
  | intro {q : Handle} {n : Native} {id : Nat} {args : List Value} :
      m.heap.Holds q (.native n) → n.code = .host id → m.Sound → (∀ v ∈ args, m.heap.Keeps v) →
      after (host.call id args) m = m' → HostRuns host m m'

theorem HostRuns.hostCalls (hh : host.Careful) (hr : HostRuns host m m') :
    ReflTransGen HostCall m m' := by
  obtain ⟨-, -, hs, hargs, rfl⟩ := hr
  exact hh.calls _ _ m hs hargs

theorem HostRuns.sound (hr : HostRuns host m m') : m.Sound := by
  obtain ⟨-, -, hs, -, -⟩ := hr
  exact hs

theorem HostRuns.room_le (hh : host.Careful) (hr : HostRuns host m m') : m.room ≤ m'.room := by
  have := hh.tends
  obtain ⟨-, -, -, -, rfl⟩ := hr
  exact room_le_after (host.call _ _) m

/-- A function of the host takes the object at a handle away while it runs, and what is there
afterwards may be another one. -/
inductive Takes (host : HostFunctions) (r : Handle) (m m' : Machine) : Prop
  | intro {m₀ m₁ m₂ : Machine} : Prepares m.heap m₀.heap → HostRuns host m₀ m₂ →
      m'.heap = m₂.heap → m₀.heap.isLive r → ReflTransGen HostCall m₀ m₁ → ¬ m₁.heap.isLive r →
      ReflTransGen HostCall m₁ m₂ → Takes host r m m'

/-- Nothing of the host runs in a machine that has no native functions of the host. -/
theorem not_takes_of_builtin (hh : host.Careful) (hw : m.heap.WellFormed)
    (hfit : m'.room ≤ Heap.slotLimit)
    (hn : ∀ q n id, m.heap.Holds q (.native n) → n.code ≠ .host id) : ¬ Takes host r m m' := by
  rintro ⟨hprepared, hruns, hheap, -, -, -, -⟩
  rw [room, hheap] at hfit
  have hfit₀ := (hruns.room_le hh).trans hfit
  obtain ⟨hheld, hcode, -, -, -⟩ := hruns
  exact hn _ _ _ (hprepared.native hw hfit₀ hheld) hcode

/-! ## With and without them -/

instance (distance : Nat) (v : Value) : Makes Works (poke distance v) := by
  unfold poke
  infer_instance

instance : Makes Works readByte := by
  refine ⟨fun m => ?_⟩
  simp only [after, readByte]
  rcases h : m.running with _ | ⟨id, stack, _ | ⟨f, rest⟩, caller, kind, state, module⟩
  · exact .refl
  · exact .refl
  · simp only
    cases f.chunk.code[f.ip]? with
    | none => exact .refl
    | some byte => exact .single ⟨⟨by rw [h]; rfl, rfl, rfl, rfl, rfl⟩, rfl, rfl⟩

instance : Makes Works readCount := by
  unfold readCount
  exact .parts

instance : Makes Works readName := by
  unfold readName readIndex readShort
  exact .parts

/-- In a machine with this heap the one action, which has the functions of a guarded host, does
the same as the other one; or a call of the host is refused, or it comes last. -/
class Abides (host : HostFunctions) (P : Heap → Heap → Prop) (h : Heap) (x y : Act α) : Prop where
  cases : ∀ m, m.heap = h → x m = y m ∨ (∃ m', x m = .error .dangling m') ∨
    ∃ m₀ m₁, P h m₀.heap ∧ HostRuns host m₀ m₁ ∧ (after x m).heap = m₁.heap

namespace Abides

instance (priority := low) refl (x : Act α) : Abides host P h x x := ⟨fun _ _ => .inl rfl⟩

theorem behind {z : Act α} (hz : ∀ m a m₁, z m = .ok a m₁ → m₁.heap = m.heap)
    (hf : ∀ a, Abides host P h (f a) (g a)) : Abides host P h (z >>= f) (z >>= g) where
  cases m hm := by
    cases hok : z m with
    | error e m₁ => exact .inl (by simp only [bind_apply, hok])
    | ok a m₁ =>
      simp only [bind_apply, after_bind, hok]
      exact (hf a).cases m₁ ((hz m a m₁ hok).trans hm)

theorem bind {z : Act α} [hz : Makes Works z] (hf : ∀ a, Abides host P h (f a) (g a)) :
    Abides host P h (z >>= f) (z >>= g) :=
  behind (fun m _ _ hok => (after_ok hok ▸ works_of_row (hz.row m)).heap) hf

theorem bind_object {f g : Object → Act β}
    (hf : ∀ o, h.get? r = some o → Abides host P h (f o) (g o)) :
    Abides host P h (object r >>= f) (object r >>= g) where
  cases m hm := by
    cases ho : m.heap.get? r with
    | none =>
      have hnone : object r m = .error .dangling m := by
        simp only [object, bind_apply, get_apply, Heap.get, ho, except_apply]
      exact .inl (by simp only [bind_apply, hnone])
    | some o =>
      simp only [bind_apply, after_bind, object_apply ho]
      exact (hf o (hm ▸ ho)).cases m hm

theorem bind_get {f g : Machine → Act β} (hf : ∀ m, Abides host P h (f m) (g m)) :
    Abides host P h (get >>= f) (get >>= g) :=
  behind (fun _ _ _ hok => by cases hok; rfl) hf

/-- What comes last may change operands. -/
theorem last {k : α → OperandStack → Except Fault OperandStack} (hx : Abides host P h x y) :
    Abides host P h (x >>= fun a => changeStack (k a)) (y >>= fun a => changeStack (k a)) where
  cases m hm := by
    obtain hsame | ⟨m', hrefused⟩ | ⟨m₀, m₁, hprepared, hruns, hheap⟩ := hx.cases m hm
    · exact .inl (by simp only [bind_apply, hsame])
    · exact .inr (.inl ⟨m', by simp only [bind_apply, hrefused]⟩)
    · refine .inr (.inr ⟨m₀, m₁, hprepared, hruns, Eq.trans ?_ hheap⟩)
      rw [after_bind]
      cases hok : x m with
      | error e m₂ => rw [after_error hok]
      | ok a m₂ =>
        have hworks : Works m₂ (after (changeStack (k a)) m₂) := works_of_row (Makes.row m₂)
        exact hworks.heap.trans (congrArg heap (after_ok hok).symm)

end Abides

section

variable (hP : P h h)
include hP

theorem abides_callNative {o : Object} {n : Native} {receiver : Option Value}
    (ho : h.get? q = some o) (hb : o.body = .native n) :
    Abides host P h (callNative host.guarded n argc receiver)
      (callNative HostFunctions.none n argc receiver) := by
  unfold callNative
  split
  · infer_instance
  · refine .bind fun given => .last ⟨fun m hm => ?_⟩
    subst hm
    cases hcode : n.code with
    | builtin b => exact .inl (by simp only [runNative, hcode])
    | host id =>
      simp only [runNative, hcode]
      obtain ⟨hs, hargs, hcall⟩ | hcall := guarded_cases host id (receiver.toList ++ given.toList) m
      · refine .inr (.inr ⟨m, _, hP, ⟨⟨o, ho, hb⟩, hcode, hs, hargs, rfl⟩, ?_⟩)
        rw [after, hcall, after]
      · exact .inr (.inl ⟨m, hcall⟩)

end

theorem abides_callConstruct (cls : Handle) (v : Value) (name : Handle) :
    Abides host Eq h (callConstruct host.guarded cls argc v name)
      (callConstruct HostFunctions.none cls argc v name) := by
  unfold callConstruct
  refine .bind_object fun o _ => ?_
  split
  · refine .bind_object fun p hp => ?_
    split
    · infer_instance
    · exact .last (abides_callNative rfl hp (by assumption))
    · infer_instance
  · infer_instance

theorem abides_callClass (cls : Handle) : Abides host Prepares h (callClass host.guarded cls argc)
    (callClass HostFunctions.none cls argc) where
  cases m hm := by
    subst hm
    simp only [callClass_eq, bind_apply, after_bind]
    cases hmade : (liftM (Heap.newInstance cls) : Act Handle) m with
    | error e m' => exact .inl rfl
    | ok s m₁ =>
      obtain ⟨o, -, rfl, rfl⟩ := newInstance_eq_ok hmade
      dsimp only
      cases hpoke : poke argc (.ofHandle (m.heap.alloc (.instanceOf cls .empty)).2)
          { m with heap := withInstance cls o m.heap } with
      | error e m' => exact .inl rfl
      | ok u m₂ =>
        dsimp only
        have hheap : m₂.heap = withInstance cls o m.heap := heap_of_changeStack hpoke
        cases hname : intern "construct" m₂ with
        | error e m' => exact .inl rfl
        | ok name m₃ =>
          obtain ⟨rfl, rfl⟩ := intern_eq hname
          refine ((abides_callConstruct cls _ _).cases _ rfl).imp_right (Or.imp_right ?_)
          rintro ⟨m₀, m₁, hprepared, hruns⟩
          refine ⟨m₀, m₁, ?_, hruns⟩
          rw [← hprepared, hheap]
          exact .construct cls o

theorem abides_callUnbound (r : Handle) : Abides host Prepares h
    (callUnbound host.guarded r argc) (callUnbound HostFunctions.none r argc) := by
  unfold callUnbound
  refine .bind fun _ => .bind_object fun o _ => ?_
  split
  · exact abides_callClass r
  · infer_instance

theorem abides_callBound (receiver : Value) (r : Handle) : Abides host Prepares h
    (callBound host.guarded receiver r argc) (callBound HostFunctions.none receiver r argc) := by
  unfold callBound
  refine .bind_object fun o ho => ?_
  split
  · infer_instance
  · refine .bind_get fun m => ?_
    split <;> exact abides_callNative .nothing ho (by assumption)
  · exact abides_callUnbound r

theorem abides_callValue (callee : Value) : Abides host Prepares h
    (callValue host.guarded callee argc) (callValue HostFunctions.none callee argc) := by
  unfold callValue
  split
  · infer_instance
  · refine .bind_object fun o ho => ?_
    split
    · infer_instance
    · exact abides_callNative .nothing ho (by assumption)
    · exact abides_callClass _
    · exact .bind fun _ => abides_callBound _ _
    · infer_instance

theorem abides_callMethod (receiver method : Value) : Abides host Prepares h
    (callMethod host.guarded receiver method argc)
    (callMethod HostFunctions.none receiver method argc) := by
  unfold callMethod
  split
  · infer_instance
  · refine .bind_object fun o _ => ?_
    split
    · exact abides_callBound receiver _
    · exact abides_callBound receiver _
    · exact .bind fun _ => abides_callValue method

theorem abides_invoke (name : Handle) : Abides host Prepares h
    (invoke host.guarded name argc) (invoke HostFunctions.none name argc) := by
  unfold invoke
  refine .bind fun receiver => ?_
  split
  · infer_instance
  · refine .bind_object fun o _ => .bind_get fun m => ?_
    split
    · refine .bind_get fun m => ?_
      split
      · exact .bind fun _ => abides_callValue _
      · exact abides_callMethod receiver _
    · split
      · exact .bind fun _ => abides_callValue _
      · infer_instance

theorem abides_functions (op : Opcode) : Abides host Prepares h
    (functions host.guarded op) (functions HostFunctions.none op) := by
  unfold functions call callMember
  cases op with
  | call => exact .bind fun argc => .bind fun callee => abides_callValue callee
  | invoke => exact .bind fun name => .bind fun argc => abides_invoke name
  | _ => infer_instance

theorem abides_instruction : Abides host Prepares h
    (instruction host.guarded) (instruction HostFunctions.none) := by
  unfold instruction
  refine .bind fun byte => ?_
  split
  · rename_i op _
    have := @abides_functions host h op
    unfold execute
    cases op <;> infer_instance
  · infer_instance

/-- In a sound machine an instruction does what it would do if the host had no functions, or one of
them runs. -/
theorem Sound.instruction_or_host (hh : host.Careful) (hs : m.Sound)
    (hfit : (after (instruction host) m).room ≤ Heap.slotLimit) :
    instruction host m = instruction HostFunctions.none m ∨ ∃ m₀ m₁, Prepares m.heap m₀.heap ∧
      HostRuns host m₀ m₁ ∧ (after (instruction host) m).heap = m₁.heap := by
  have hguarded := hs.instruction_guarded hh hfit
  obtain hsame | ⟨m', hrefused⟩ | hruns := (@abides_instruction host m.heap).cases m rfl
  · exact .inl (hguarded.symm.trans hsame)
  · have hfit' : (after (instruction host.guarded) m).room ≤ Heap.slotLimit := by
      rwa [after, hguarded]
    exact absurd hrefused
      (ne_dangling_of_agree (agree_instruction hh.guarded.agrees hs.machines) hfit')
  · rw [after, hguarded] at hruns
    exact .inr hruns

/-! ## A host without functions -/

end Machine

namespace HostFunctions

instance (R : Machine → Machine → Prop) (id : Nat) (args : List Value) :
    Makes R (none.call id args) := .throw _

theorem careful_none : none.Careful where
  calls _ _ _ _ _ := .refl
  gives _ _ _ _ _ _ _ h := nomatch h
  faults _ _ _ _ _ _ _ h := nomatch h
  running _ _ := inferInstance
  tends _ _ := inferInstance

theorem harmless_none : none.Harmless where
  calm id args := by
    have hthrows : Throws Fault.NoCrash (none.call id args) := .throw rfl
    infer_instance
  running _ _ := inferInstance
  limits _ _ := inferInstance

theorem failsMildly_none : none.FailsMildly := fun _ _ => inferInstanceAs (Fails _ (throw _))

end HostFunctions

namespace Machine

variable {m m' : Machine}

/-- What fails without the functions of a host leaves everything as it was. -/
theorem Sound.spared_of_none (hs : m.Sound) (hb : m.Bounded) {e : Fault}
    (h : instruction HostFunctions.none m = .error e m') (hfit : m'.room ≤ Heap.slotLimit) :
    Spared m m' := by
  have hrow := mild_of_fails HostFunctions.failsMildly_none
    (hs.fails_instruction HostFunctions.careful_none HostFunctions.harmless_none hb h hfit)
  exact (spared_of_mild hrow hs.heap.toArena hfit).2

end Machine

end FiberMachine
