import FiberMachine.Proofs.Heap.Ledger
import FiberMachine.Proofs.Machine.Growth

/-!
# Machines within limits

Every fiber, at work or parked, keeps to the limits of the configuration. Most actions
change at most operands of the running fiber, which the bound of its stack covers; a call
looks at the number of frames first, and a new fiber begins with one frame.
-/

namespace FiberMachine

open Relation (ReflTransGen)

namespace Heap

variable {good : Fiber → Prop}

theorem fiber_plain (f : Object → Object) [hf : Plain f] (o : Object) (b : Option Fiber) :
    (f o).body = .fiber b → o.body = .fiber b := by
  intro h
  have hkind : o.body.kind = .fiber := by
    have hk := hf.kind o
    simpa [Object.kind, h, Body.kind] using hk.symm
  cases ho : o.body with
  | fiber b' =>
    have hb := hf.fiber o b' ho
    rw [h] at hb
    exact hb.symm
  | _ => simp [ho, Body.kind] at hkind

theorem Move.ledger {h h' : Heap} (hm : Move h h') (hl : h.Ledger good) : h'.Ledger good := by
  cases hm with
  | intern s => exact hl.intern s
  | alloc _ hf =>
    refine hl.alloc fun f hb => absurd ?_ hf
    rw [hb]
    rfl
  | update r f => exact hl.update r fun o b hb => Or.inr (fiber_plain f o _ hb)

theorem row_ledger {h h' : Heap} (hr : ReflTransGen Move h h') (hl : h.Ledger good) :
    h'.Ledger good := by
  induction hr with
  | refl => exact hl
  | tail _ hm ih => exact hm.ledger ih

theorem Ledger.of_get? {h : Heap} (hl : h.Ledger good) {r : Handle} {o : Object} {f : Fiber}
    (ho : h.get? r = some o) (hb : o.body = .fiber (some f)) : good f := by
  obtain ⟨slot, hs, -, hobject⟩ := get?_eq_some_iff.mp ho
  exact hl.fibers slot (Array.mem_of_getElem? hs) o f hobject hb

end Heap

namespace Machine

variable {m m' : Machine}

/-- Every fiber keeps to the limits of the configuration, and the books of the heap are
right. -/
structure Bounded (m : Machine) : Prop where
  running : RunsWithin m.config m
  heap : m.heap.Ledger (Fiber.Within m.config)

/-- The configuration stays, and the machine stays within its limits. -/
structure KeepsLimits (m m' : Machine) : Prop where
  config : m'.config = m.config
  bounded : m.Bounded → m'.Bounded

namespace KeepsLimits

theorem refl (m : Machine) : KeepsLimits m m := ⟨rfl, fun hb => hb⟩

theorem trans {m'' : Machine} (h : KeepsLimits m m') (h' : KeepsLimits m' m'') :
    KeepsLimits m m'' where
  config := h'.config.trans h.config
  bounded hb := h'.bounded (h.bounded hb)

theorem of_row (hr : ReflTransGen KeepsLimits m m') : KeepsLimits m m' := by
  induction hr with
  | refl => exact refl _
  | tail _ h ih => exact ih.trans h

/-- The fiber at work and the heap are all that limits are about. -/
theorem of_eq (hc : m'.config = m.config) (hr : m'.running = m.running) (hh : m'.heap = m.heap) :
    KeepsLimits m m' where
  config := hc
  bounded hb := by
    refine ⟨fun t ht => ?_, by rw [hh, hc]; exact hb.heap⟩
    rw [hc]
    exact hb.running t (hr ▸ ht)

theorem of_heap {h : Heap} (hl : ∀ good, m.heap.Ledger good → h.Ledger good) :
    KeepsLimits m { m with heap := h } :=
  ⟨rfl, fun hb => ⟨hb.running, hl _ hb.heap⟩⟩

end KeepsLimits

theorem keepsLimits_after {α : Type} (x : Act α) [hx : Makes KeepsLimits x] (m : Machine) :
    KeepsLimits m (after x m) := .of_row (hx.row m)

theorem Steady.keepsLimits (hs : Steady m m') : KeepsLimits m m' := by
  cases hs with
  | heap hm => exact .of_heap fun _ => hm.ledger
  | work hh hc _ hw =>
    refine ⟨hc, fun hb => ⟨?_, by rw [hh, hc]; exact hb.heap⟩⟩
    rw [hc]
    exact hw _ hb.running

theorem within_park {c : Config} {f : Fiber} (hf : f.Within c) (state : FiberState) :
    (park state f).Within c := by
  cases state with
  | done =>
    have hempty : Fiber.Within c { f with stack := f.stack.truncate 0, frames := [] } :=
      (hf.withStack (OperandStack.fits_truncate f.stack 0)).withFrames (Nat.zero_le _) nofun
    exact hempty.withLinks _ _ _ _
  | _ => exact hf.withLinks _ _ _ _

theorem keepsGood_withFiber {good : Fiber → Prop} {b : Option Fiber}
    (hb : ∀ f, b = some f → good f) : Heap.KeepsGood good (withFiber b) := by
  intro o f h
  simp only [withFiber] at h
  split at h
  · cases h
    exact Or.inl (hb f rfl)
  · exact Or.inr h

theorem after_change (id : Handle) (f : Object → Object) (m : Machine) :
    after (change id f) m =
      if m.heap.isLive id then { m with heap := m.heap.update id f } else m := by
  simp only [after, change_apply]
  cases m.heap.isLive id <;> rfl

/-- A fiber that is parked was within the limits at work. -/
theorem keepsLimits_leave (state : FiberState) (m : Machine) :
    KeepsLimits m (after (leave state) m) := by
  cases ht : m.running with
  | none =>
    simp only [after, leave, bind_apply, get_apply, ht, pure_apply]
    exact .refl m
  | some t =>
    have hafter : after (leave state) m =
        after (change t.id (withFiber (some (park state t.fiber)))) { m with running := none } := by
      simp only [after, leave, bind_apply, get_apply, ht, modify_apply]
    rw [hafter, after_change]
    split
    · refine ⟨rfl, fun hb => ⟨(fun _ h => by cases h),
        hb.heap.update _ (keepsGood_withFiber fun f hf => ?_)⟩⟩
      cases hf
      exact within_park (hb.running t ht) state
    · exact ⟨rfl, fun hb => ⟨(fun _ h => by cases h), hb.heap⟩⟩

/-- A fiber that is taken out of the heap was within the limits there. -/
theorem keepsLimits_enter (id : Handle) (m : Machine) : KeepsLimits m (after (enter id) m) := by
  simp only [enter, after_bind, get_apply, except_apply, Heap.get]
  cases ho : m.heap.get? id with
  | none => exact .refl m
  | some o =>
    dsimp only
    split
    · rename_i f hbody
      have hlive : m.heap.isLive id := Heap.isLive_iff.mpr ⟨o, ho⟩
      rw [after_bind, change_apply, if_pos hlive]
      refine ⟨rfl, fun hb => ⟨fun t ht => ?_, ?_⟩⟩
      · cases ht
        exact (hb.heap.of_get? ho hbody).withLinks _ _ _ _
      · exact hb.heap.update id (keepsGood_withFiber fun _ hf => by cases hf)
    · exact .refl m

/-- A new fiber has the operands of a call and one frame at the beginning of its code. -/
theorem keepsLimits_newFiber (kind : FiberKind) (function : Handle) (args : List Value)
    (caller module : Option Handle) (m : Machine) :
    KeepsLimits m (after (newFiber kind function args caller module) m) := by
  simp only [newFiber, after_bind, get_apply, except_apply]
  cases m.heap.function function with
  | error fault => exact .refl m
  | ok f =>
    dsimp only
    cases hs : (OperandStack.empty m.config.stackSlots).pushAll (.ofHandle function :: args) with
    | error fault => exact .refl m
    | ok stack =>
      have hfits := OperandStack.fits_pushAll hs
      have hslots : 0 < m.config.stackSlots := OperandStack.limit_pos_of_pushAll hs
      refine ⟨rfl, fun hb => ⟨hb.running, hb.heap.alloc fun g hg => ?_⟩⟩
      cases hg
      refine ⟨hslots, hfits.limit, ?_, Config.maxFrames_pos hslots, ?_⟩
      · exact Nat.le_trans (hfits.size (Nat.zero_le _)) (Nat.le_of_eq hfits.limit)
      · exact List.forall_mem_singleton.mpr (Nat.zero_le _)

/-- What a change of the running fiber keeps. -/
theorem keepsLimits_changeFiber {f : Fiber → Fiber} (m : Machine)
    (hf : ∀ t, m.running = some t → ∀ c, m.config = c → t.fiber.Within c → (f t.fiber).Within c) :
    KeepsLimits m (after (changeFiber f) m) := by
  simp only [after, changeFiber]
  cases ht : m.running with
  | none => exact .refl m
  | some t =>
    refine ⟨rfl, fun hb => ⟨fun t' ht' => ?_, hb.heap⟩⟩
    cases ht'
    exact hf t ht _ rfl (hb.running t ht)

theorem keepsLimits_collected (m : Machine) : KeepsLimits m m.collected :=
  .of_heap fun _ hl => hl.collect m.roots

theorem Effect.keepsLimits (he : Effect KeepsLimits m m') : KeepsLimits m m' := by
  cases he with
  | steady hs => exact hs.keepsLimits
  | queues hh hc hr => exact .of_eq hc hr hh
  | link caller =>
    exact keepsLimits_changeFiber m fun _ _ _ _ hw => hw.withLinks caller _ _ _
  | leave state => exact keepsLimits_leave state m
  | enter id => exact keepsLimits_enter id m
  | newFiber kind function args caller module =>
    exact keepsLimits_newFiber kind function args caller module m
  | pushFrame hip hroom =>
    refine keepsLimits_changeFiber m fun t ht c hc hw => hw.withFrames ?_ ?_
    · exact hc ▸ hroom t ht
    · exact List.forall_mem_cons.mpr ⟨hip, hw.ip⟩
  | collect => exact keepsLimits_collected m
  | host h => exact h

instance (priority := low) {α : Type} (x : Act α) [hx : Makes (Effect KeepsLimits) x] :
    Makes KeepsLimits x := hx.mono fun _ _ => Effect.keepsLimits

end Machine

end FiberMachine
