import FiberMachine.Proofs.Heap.WellFormed

/-!
# Objects that remain

What builds objects and changes none but its own leaves every object as it was that was
there before.
-/

namespace FiberMachine

namespace Heap

variable {h h₁ h' : Heap} {r : Handle} {o : Object}

/-- Every object is there as it was. -/
def Remains (h h' : Heap) : Prop := ∀ r o, h.get? r = some o → h'.get? r = some o

namespace Remains

theorem refl (h : Heap) : Remains h h := fun _ _ ho => ho

theorem trans (hk : Remains h h₁) (hk' : Remains h₁ h') : Remains h h' := fun r o ho =>
  hk' r o (hk r o ho)

theorem alloc (ha : h.Arena) (body : Body) (hfit : (h.alloc body).1.slots.size ≤ slotLimit) :
    Remains h (h.alloc body).1 := fun _ _ ho => (alloc_allocated ha body hfit).get?_of_get? ho

theorem intern (ha : h.Arena) (s : String) (hfit : (h.intern s).1.slots.size ≤ slotLimit) :
    Remains h (h.intern s).1 := fun _ _ ho => get?_intern_of_get? ha hfit ho

/-- An object that is new may be changed. -/
theorem update (hk : Remains h h₁) (hr : h.get? r = none) (f : Object → Object) :
    Remains h (h₁.update r f) := by
  intro s o ho
  rw [get?_update, if_neg fun hs => by simp [hs, hr] at ho]
  exact hk s o ho

theorem isLive (hk : Remains h h') (hr : h.isLive r) : h'.isLive r := by
  obtain ⟨o, ho⟩ := isLive_iff.mp hr
  exact isLive_iff.mpr ⟨o, hk r o ho⟩

end Remains

/-- An object with a body is there. -/
def Holds (h : Heap) (r : Handle) (b : Body) : Prop := ∃ o, h.get? r = some o ∧ o.body = b

theorem Remains.holds {b : Body} (hr : Remains h h') (hb : h.Holds r b) : h'.Holds r b := by
  obtain ⟨o, ho, hbody⟩ := hb
  exact ⟨o, hr r o ho, hbody⟩

end Heap

end FiberMachine
