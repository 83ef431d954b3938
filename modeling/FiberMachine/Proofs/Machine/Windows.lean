import FiberMachine.Proofs.Machine.Format
import FiberMachine.Proofs.Machine.Returns

/-!
# Operands on top

What an instruction does to the operands on top is seen on the machine with these operands: those
below and the frames under the innermost one stay out of it.
-/

namespace FiberMachine

open Listing (Shown)

namespace Machine

variable {host : HostFunctions} {m m' : Machine} {t : Running} {f : Frame} {rest : List Frame}
  {op : Opcode} {shown : Shown}

theorem AtRow.skip_eq (ha : AtRow op shown f rest t m) (k : Nat) :
    m.skip k = m.withCalls t t.fiber.stack (f.skip k :: rest) := by
  simp only [skip, ha.running, Option.map_some, withCalls, Running.skip, ha.frames,
    List.modifyHead_cons]

section Actions

variable {α β : Type} {x : Act α} {g : α → Act β} {e : Except Fault α} {a : α} {fault : Fault}

theorem bind_of_ok (h : x m = .ok a m') : (x >>= g) m = g a m' := by
  rw [bind_apply, h]

theorem bind_of_error (h : x m = .error fault m') : (x >>= g) m = .error fault m' := by
  rw [bind_apply, h]

theorem liftM_of_ok (h : e = .ok a) : (liftM e : Act α) m = .ok a m := by
  rw [h]
  rfl

theorem liftM_of_error (h : e = .error fault) : (liftM e : Act α) m = .error fault m := by
  rw [h]
  rfl

end Actions

variable {stack : OperandStack} {below : Array Value} {frames : List Frame} {v left right : Value}

theorem peek_withCalls (m : Machine) (t : Running) (frames : List Frame) {d : Nat}
    (h : stack.peek d = .ok v) :
    peek d (m.withCalls t stack frames) = .ok v (m.withCalls t stack frames) := by
  simp only [peek, withCalls, h]

theorem poke_withCalls {d : Nat} {stack' : OperandStack} (h : stack.poke d v = .ok stack') :
    poke d v (m.withCalls t stack frames) = .ok () (m.withCalls t stack' frames) := by
  simp only [poke, changeStack, withCalls, h]

theorem pop_withCalls (h : stack.values = below.push v) :
    pop (m.withCalls t stack frames) = .ok v (m.withCalls t ⟨below, stack.limit⟩ frames) := by
  have hpop : stack.pop = .ok (v, ⟨below, stack.limit⟩) := by
    simp only [OperandStack.pop, h, Array.back?_push, Array.pop_push]
  simp only [pop, withCalls, hpop]

theorem push_withCalls (h : stack.values.size < stack.limit) (v : Value) :
    push v (m.withCalls t stack frames) =
      .ok () (m.withCalls t ⟨stack.values.push v, stack.limit⟩ frames) := by
  have hpush : stack.push v = .ok ⟨stack.values.push v, stack.limit⟩ := if_neg (Nat.not_le.mpr h)
  simp only [push, changeStack, withCalls, hpush]

section Heap

variable {α : Type} {y : Heap.Act α} {a : α} {fault : Fault} {h : Heap}

theorem lift_withCalls_of_ok (hy : y m.heap = .ok a h) : (liftM y : Act α) (m.withCalls t stack frames) =
    .ok a (({ m with heap := h } : Machine).withCalls t stack frames) := by
  have hy : y (m.withCalls t stack frames).heap = .ok a h := hy
  rw [lift_apply, hy]
  rfl

theorem lift_withCalls_of_error (hy : y m.heap = .error fault m.heap) :
    (liftM y : Act α) (m.withCalls t stack frames) = .error fault (m.withCalls t stack frames) := by
  have hy : y (m.withCalls t stack frames).heap = .error fault m.heap := hy
  rw [lift_apply, hy]
  rfl

end Heap

theorem binary_withCalls (h : stack.values = below ++ #[left, right])
    (g : Value → Value → Act Value) : binary g (m.withCalls t stack frames) =
      (g left right >>= push) (m.withCalls t ⟨below, stack.limit⟩ frames) := by
  have h : stack.values = (below.push left).push right := by
    rw [h]
    apply Array.ext'
    simp
  unfold binary
  rw [bind_of_ok (pop_withCalls h), bind_of_ok (pop_withCalls rfl)]

/-- Three operands are taken, the last one first. -/
theorem ternary_withCalls {α : Type} {third : Value}
    (h : stack.values = below ++ #[left, right, third]) (g : Value → Value → Value → Act α) :
    (pop >>= fun c => pop >>= fun b => pop >>= fun a => g a b c) (m.withCalls t stack frames) =
      g left right third (m.withCalls t ⟨below, stack.limit⟩ frames) := by
  have h : stack.values = ((below.push left).push right).push third := by
    rw [h]
    apply Array.ext'
    simp
  rw [bind_of_ok (pop_withCalls h), bind_of_ok (pop_withCalls rfl), bind_of_ok (pop_withCalls rfl)]

end Machine

end FiberMachine
