import FiberMachine.Heap.Items
import FiberMachine.Proofs.Object.Rationals

/-!
# Places

A number names a place among n items when it is whole and lies from -n up to and without n: counted
from the start, or from the end when it is negative. Integers are kept in 64 bits here, and one that
lies beyond is moved to the outermost one; that is never taken for a place as long as there are
fewer than `2 ^ 53` items. So a subscript is found exactly where a place is named, and it reads or
writes the item at this place.
-/

namespace FiberMachine

namespace Value

variable {v : Value} {n i : Nat}

/-- The whole number that a value is. -/
def Whole (v : Value) (k : ℤ) : Prop := ∃ x, v.toFloat? = some x ∧ Double.rational? x = some (k : ℚ)

/-- A value names a place among a number of items, from the start or from the end. -/
def Names (v : Value) (n i : Nat) : Prop :=
  ∃ k : ℤ, v.Whole k ∧ -(n : ℤ) ≤ k ∧ k < n ∧ (i : ℤ) = if k < 0 then n + k else k

/-- A value is a bound among a number of items. -/
def Bounds (v : Value) (n i : Nat) : Prop := v.Whole i ∧ i ≤ n

theorem Whole.unique {k k' : ℤ} (h : v.Whole k) (h' : v.Whole k') : k = k' := by
  obtain ⟨x, hx, hk⟩ := h
  obtain ⟨x', hx', hk'⟩ := h'
  obtain rfl : x = x' := Option.some.inj (hx.symm.trans hx')
  exact_mod_cast Option.some.inj (hk.symm.trans hk')

/-- The numbers that name a place are the whole ones from -n up to and without n. -/
theorem exists_names_iff : (∃ i, v.Names n i) ↔ ∃ k, v.Whole k ∧ -(n : ℤ) ≤ k ∧ k < n := by
  constructor
  · rintro ⟨i, k, hk, hle, hlt, -⟩
    exact ⟨k, hk, hle, hlt⟩
  · rintro ⟨k, hk, hle, hlt⟩
    by_cases hneg : k < 0
    · exact ⟨(n + k).toNat, k, hk, hle, hlt, by rw [if_pos hneg]; omega⟩
    · exact ⟨k.toNat, k, hk, hle, hlt, by rw [if_neg hneg]; omega⟩

theorem Names.unique {j : Nat} (hi : v.Names n i) (hj : v.Names n j) : i = j := by
  obtain ⟨k, hk, -, -, hi⟩ := hi
  obtain ⟨k', hk', -, -, hj⟩ := hj
  obtain rfl := hk.unique hk'
  exact_mod_cast hi.trans hj.symm

end Value

namespace Heap

open Value (Whole Names Bounds)

variable {items part : Array Value} {operation : String} {v start stop : Value} {n i : Nat} {k : ℤ}

/-! ## Integers -/

/-- An integer that does not fit in 64 bits counts as the outermost one. -/
def outermost (k : ℤ) : ℤ := max leastInteger (min greatestInteger k)

theorem integer_eq_ok_iff {j : ℤ} :
    integer operation v = .ok j ↔ ∃ k, v.Whole k ∧ j = outermost k := by
  unfold integer
  constructor
  · intro hj
    split at hj
    · cases hj
    · rename_i x hx
      split at hj
      · cases hj
      · rename_i k hk
        cases hj
        exact ⟨k, ⟨x, hx, Double.toInt?_eq_some_iff.mp hk⟩, rfl⟩
  · rintro ⟨k, ⟨x, hx, hk⟩, rfl⟩
    simp only [hx, Double.toInt?_eq_some_iff.mpr hk, outermost]

theorem integer_of_whole (hk : v.Whole k) : integer operation v = .ok (outermost k) :=
  integer_eq_ok_iff.mpr ⟨k, hk, rfl⟩

/-- The place that an integer means, if it is one at all. -/
def resolved (n : Nat) (j : ℤ) : ℤ := if j < 0 then n + j else j

/-- With fewer than `2 ^ 53` items an outermost integer means no place. -/
theorem resolved_iff (hn : n < 2 ^ 53) (k : ℤ) :
    0 ≤ resolved n (outermost k) ∧ resolved n (outermost k) < n ↔ -(n : ℤ) ≤ k ∧ k < n := by
  by_cases hneg : outermost k < 0
  all_goals
    simp only [resolved, hneg, ↓reduceIte]
    simp only [outermost, leastInteger, greatestInteger] at hneg ⊢
    omega

theorem outermost_eq (hn : n < 2 ^ 53) (hle : -(n : ℤ) ≤ k) (hlt : k ≤ n) : outermost k = k := by
  simp only [outermost, leastInteger, greatestInteger]
  omega

theorem place_of_integer {j : ℤ} (hj : integer "subscript" v = .ok j) : place v n =
    if h : 0 ≤ resolved n j ∧ resolved n j < n then .ok ⟨(resolved n j).toNat, by omega⟩
    else .error (.outOfBounds j n) := by
  simp only [place, hj]
  rfl

theorem place_eq_ok_iff (hn : n < 2 ^ 53) {i : Fin n} : place v n = .ok i ↔ v.Names n i := by
  constructor
  · intro hi
    cases hj : integer "subscript" v with
    | error fault => simp [place, hj] at hi
    | ok j =>
      obtain ⟨k, hk, rfl⟩ := integer_eq_ok_iff.mp hj
      rw [place_of_integer hj] at hi
      split at hi
      · rename_i hin
        obtain ⟨hle, hlt⟩ := (resolved_iff hn k).mp hin
        have hkeep : resolved n (outermost k) = resolved n k := by
          rw [outermost_eq hn hle hlt.le]
        cases hi
        exact ⟨k, hk, hle, hlt, (Int.toNat_of_nonneg hin.1).trans hkeep⟩
      · cases hi
  · rintro ⟨k, hk, hle, hlt, hi⟩
    have hin := (resolved_iff hn k).mpr ⟨hle, hlt⟩
    rw [place_of_integer (integer_of_whole hk), dif_pos hin]
    refine congrArg _ (Fin.ext ?_)
    have hresolved : resolved n k = i := hi.symm
    simp only [outermost_eq hn hle hlt.le, hresolved, Int.toNat_natCast]

theorem sliceBound_eq_ok_iff (hn : n < 2 ^ 53) : sliceBound v n = .ok i ↔ v.Bounds n i := by
  constructor
  · intro hi
    cases hj : integer "slice" v with
    | error fault => simp [sliceBound, hj] at hi
    | ok j =>
      obtain ⟨k, hk, rfl⟩ := integer_eq_ok_iff.mp hj
      simp only [sliceBound, hj] at hi
      split at hi
      · rename_i hin
        have hkeep : outermost k = k := by
          simp only [outermost, leastInteger, greatestInteger] at hin ⊢
          omega
        rw [hkeep] at hi hin
        cases hi
        exact ⟨by rwa [Int.toNat_of_nonneg hin.1], Int.toNat_le.mpr hin.2⟩
      · cases hi
  · rintro ⟨hk, hle⟩
    have hkeep := outermost_eq hn (by omega) (Int.ofNat_le.mpr hle)
    simp only [sliceBound, integer_of_whole hk, hkeep, Int.toNat_natCast]
    exact if_pos ⟨Int.natCast_nonneg i, Int.ofNat_le.mpr hle⟩

/-- A slice is cut between two bounds that are in order. -/
theorem sliceOf_eq_ok_iff (hn : items.size < 2 ^ 53) : sliceOf items start stop = .ok part ↔
    ∃ first last, start.Bounds items.size first ∧ stop.Bounds items.size last ∧ first ≤ last ∧
      part = items.extract first last := by
  constructor
  · intro hpart
    cases hfirst : sliceBound start items.size with
    | error fault => simp [sliceOf, hfirst, bind, Except.bind] at hpart
    | ok first =>
      cases hlast : sliceBound stop items.size with
      | error fault => simp [sliceOf, hfirst, hlast, bind, Except.bind] at hpart
      | ok last =>
        have hbounds := (sliceBound_eq_ok_iff hn).mp hlast
        simp only [sliceOf, hfirst, hlast, bind, Except.bind] at hpart
        split at hpart
        · cases hpart
        · rename_i hle
          rw [Checked.slice_of_le (Nat.not_lt.mp hle) hbounds.2] at hpart
          cases hpart
          exact ⟨first, last, (sliceBound_eq_ok_iff hn).mp hfirst, hbounds, Nat.not_lt.mp hle, rfl⟩
  · rintro ⟨first, last, hfirst, hlast, hle, rfl⟩
    simp only [sliceOf, (sliceBound_eq_ok_iff hn).mpr hfirst, (sliceBound_eq_ok_iff hn).mpr hlast,
      bind, Except.bind]
    rw [if_neg (Nat.not_lt.mpr hle)]
    exact Checked.slice_of_le hle hlast.2

end Heap

end FiberMachine
