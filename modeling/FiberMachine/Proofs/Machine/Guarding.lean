import FiberMachine.Proofs.Ties.Reachability

/-!
# Guarded hosts

What a careful host promises of its functions it promises for sound machines and live arguments. A
guarded host refuses every other call, so that the promise holds of it without a condition. A sound
machine never comes to such a call, and an instruction does the same with either host.
-/

namespace FiberMachine

open Machine

open Classical in
/-- The functions of a host, which refuse a call if the machine is not sound or an argument is
dead. -/
noncomputable def HostFunctions.guarded (host : HostFunctions) : HostFunctions where
  call id args m :=
    if m.Sound ∧ ∀ v ∈ args, m.heap.Keeps v then host.call id args m else .error .dangling m

namespace Machine

variable {α β : Type} {host : HostFunctions} {m m' : Machine} {x y : Act α} {f g : α → Act β}

theorem guarded_apply {id : Nat} {args : List Value} (hs : m.Sound)
    (hargs : ∀ v ∈ args, m.heap.Keeps v) : host.guarded.call id args m = host.call id args m :=
  if_pos ⟨hs, hargs⟩

/-- A call of a guarded host is refused, or it is a call with live arguments in a sound machine. -/
theorem guarded_cases (host : HostFunctions) (id : Nat) (args : List Value) (m : Machine) :
    (m.Sound ∧ (∀ v ∈ args, m.heap.Keeps v) ∧
        host.guarded.call id args m = host.call id args m) ∨
      host.guarded.call id args m = .error .dangling m := by
  by_cases h : m.Sound ∧ ∀ v ∈ args, m.heap.Keeps v
  · exact .inl ⟨h.1, h.2, if_pos h⟩
  · exact .inr (if_neg h)

theorem makes_guarded {R : Machine → Machine → Prop}
    (hh : ∀ id args, Makes R (host.call id args)) (id : Nat) (args : List Value) :
    Makes R (host.guarded.call id args) := by
  refine ⟨fun m => ?_⟩
  obtain ⟨-, -, hcall⟩ | hcall := guarded_cases host id args m
  · rw [after, hcall]
    exact (hh id args).row m
  · rw [after_error hcall]

end Machine

theorem HostFunctions.Careful.guarded {host : HostFunctions} (hh : host.Careful) :
    host.guarded.Careful where
  calls id args m hs hargs := by
    rw [after, guarded_apply hs hargs]
    exact hh.calls id args m hs hargs
  gives id args m v m' hs hargs h := by
    rw [guarded_apply hs hargs] at h
    exact hh.gives id args m v m' hs hargs h
  faults id args m m' hs hargs := by
    rw [guarded_apply hs hargs]
    exact hh.faults id args m m' hs hargs
  running := makes_guarded hh.running
  tends := makes_guarded hh.tends

namespace Machine

variable {α β : Type} {host : HostFunctions} {m m' : Machine} {x y : Act α} {f g : α → Act β}

/-! ## Actions with either host -/

/-- The second action does what the first one does, or it meets a dead handle on the way. -/
class Imitates (x y : Act α) : Prop where
  tends : Makes Tends x
  same_or : ∀ m, y m = x m ∨ ∃ m₁, y m = .error .dangling m₁ ∧ m₁.room ≤ (after x m).room

namespace Imitates

instance refl (x : Act α) [hx : Makes Tends x] : Imitates x x := ⟨hx, fun _ => .inl rfl⟩

theorem bind (hx : Imitates x y) (hf : ∀ a, Imitates (f a) (g a)) :
    Imitates (x >>= f) (y >>= g) where
  tends := .bind hx.tends fun a => (hf a).tends
  same_or m := by
    obtain hsame | ⟨m₁, hy, hroom⟩ := hx.same_or m
    · cases hm : x m with
      | ok a m₁ =>
        simp only [bind_apply, after_bind, hsame, hm]
        exact (hf a).same_or m₁
      | error e m₁ => exact .inl (by simp only [bind_apply, hsame, hm])
    · refine .inr ⟨m₁, by simp only [bind_apply, hy], hroom.trans ?_⟩
      rw [after_bind, after]
      cases x m with
      | ok a m₂ =>
        have := (hf a).tends
        exact room_le_after (f a) m₂
      | error e m₂ => exact Nat.le_refl _

/-- Goes through two actions part by part. -/
theorem parts (h : Imitates x y := by
    repeat' first
      | infer_instance
      | with_reducible refine Imitates.bind ?_ fun _ => ?_
      | split
      | dsimp only) : Imitates x y := h

end Imitates

section

variable [hh : ∀ id args, Makes Tends (host.call id args)]

instance (id : Nat) (args : List Value) :
    Imitates (host.call id args) (host.guarded.call id args) where
  tends := hh id args
  same_or m := by
    obtain ⟨-, -, hcall⟩ | hcall := guarded_cases host id args m
    · exact .inl hcall
    · exact .inr ⟨m, hcall, room_le_after (host.call id args) m⟩

instance (n : Native) (args : List Value) :
    Imitates (runNative host n args) (runNative host.guarded n args) := by
  unfold runNative
  exact .parts

instance (n : Native) (argc : Nat) (receiver : Option Value) :
    Imitates (callNative host n argc receiver) (callNative host.guarded n argc receiver) := by
  unfold callNative
  exact .parts

instance (cls : Handle) (argc : Nat) :
    Imitates (callClass host cls argc) (callClass host.guarded cls argc) := by
  unfold callClass
  exact .parts

instance (r : Handle) (argc : Nat) :
    Imitates (callUnbound host r argc) (callUnbound host.guarded r argc) := by
  unfold callUnbound
  exact .parts

instance (receiver : Value) (r : Handle) (argc : Nat) :
    Imitates (callBound host receiver r argc) (callBound host.guarded receiver r argc) := by
  unfold callBound
  exact .parts

instance (callee : Value) (argc : Nat) :
    Imitates (callValue host callee argc) (callValue host.guarded callee argc) := by
  unfold callValue
  exact .parts

instance (receiver method : Value) (argc : Nat) :
    Imitates (callMethod host receiver method argc)
      (callMethod host.guarded receiver method argc) := by
  unfold callMethod
  exact .parts

instance (name : Handle) (argc : Nat) :
    Imitates (invoke host name argc) (invoke host.guarded name argc) := by
  unfold invoke
  exact .parts

instance (op : Opcode) : Imitates (functions host op) (functions host.guarded op) := by
  unfold functions call callMember strange
  exact .parts

instance (op : Opcode) : Imitates (execute host op) (execute host.guarded op) := by
  unfold execute
  exact .parts

instance : Imitates (instruction host) (instruction host.guarded) := by
  unfold instruction
  exact .parts

end

/-- No call of a sound machine is refused. -/
theorem Sound.instruction_guarded (hh : host.Careful) (hs : m.Sound)
    (hfit : (after (instruction host) m).room ≤ Heap.slotLimit) :
    instruction host.guarded m = instruction host m := by
  have := hh.tends
  have hi : Imitates (instruction host) (instruction host.guarded) := inferInstance
  obtain hsame | ⟨m₁, herror, hroom⟩ := hi.same_or m
  · exact hsame
  · have hfit₁ : (after (instruction host.guarded) m).room ≤ Heap.slotLimit := by
      rw [after_error herror]
      exact hroom.trans hfit
    exact absurd herror
      (ne_dangling_of_agree (agree_instruction hh.guarded.agrees hs.machines) hfit₁)

end Machine

end FiberMachine
