import FiberMachine.Fault

/-!
# Checked operations

A difference of two sizes, and an item or a stretch of a sequence. Where there is none
the machine has made a mistake, and the operation crashes.
-/

namespace FiberMachine.Checked

variable {α : Type} {xs : Array α} {v : α} {first last i n k : Nat}

@[inline] def minus (n k : Nat) : Except Fault Nat :=
  if k ≤ n then .ok (n - k) else .error (.crash (.underflow n k))

@[inline] def item (xs : Array α) (i : Nat) : Except Fault α :=
  if h : i < xs.size then .ok xs[i] else .error (.crash (.badIndex i xs.size))

@[inline] def setItem (xs : Array α) (i : Nat) (v : α) : Except Fault (Array α) :=
  if i < xs.size then .ok (xs.setIfInBounds i v) else .error (.crash (.badIndex i xs.size))

/-- The items from one place up to and without another. -/
@[inline] def slice (xs : Array α) (first last : Nat) : Except Fault (Array α) :=
  if first ≤ last ∧ last ≤ xs.size then .ok (xs.extract first last)
  else .error (.crash (.badSlice first last xs.size))

theorem minus_of_le (h : k ≤ n) : minus n k = .ok (n - k) := if_pos h

theorem minus_of_lt (h : n < k) : minus n k = .error (.crash (.underflow n k)) :=
  if_neg (Nat.not_le.mpr h)

theorem item_of_lt (h : i < xs.size) : item xs i = .ok xs[i] := dif_pos h

theorem item_of_le (h : xs.size ≤ i) : item xs i = .error (.crash (.badIndex i xs.size)) :=
  dif_neg (Nat.not_lt.mpr h)

theorem setItem_of_lt (h : i < xs.size) : setItem xs i v = .ok (xs.setIfInBounds i v) := if_pos h

theorem slice_of_le (h : first ≤ last) (h' : last ≤ xs.size) :
    slice xs first last = .ok (xs.extract first last) := if_pos ⟨h, h'⟩

end FiberMachine.Checked
