import FiberMachine.Heap.Basic
import Std.Data.HashSet

/-!
# Equality

Two values are equal when their words are, or when both are arrays whose items
are equal pairwise. Arrays may contain themselves, so a pair of arrays that has
been taken up once counts as equal from then on. A heap has only so many pairs of
objects to be taken up.
-/

namespace FiberMachine

namespace Heap

abbrev Pair := UInt64 × UInt64

/-- The words of two values. -/
def words (a b : Value) : Pair := (a.bits, b.bits)

def pairs (h : Heap) : List (Handle × Handle) :=
  h.handles.flatMap fun r => h.handles.map fun s => (r, s)

/-- The number of pairs of objects that have not been taken up. -/
def unseen (h : Heap) (seen : Std.HashSet Pair) : Nat :=
  (h.pairs.filter fun p => !seen.contains (words (.ofHandle p.1) (.ofHandle p.2))).length

theorem handle_of_arrayOf? {h : Heap} {v : Value} {items : Array Value}
    (hv : h.arrayOf? v = some items) : ∃ r ∈ h.handles, Value.ofHandle r = v := by
  simp only [arrayOf?] at hv
  split at hv
  · rename_i r hr
    refine ⟨r, mem_handles_of_isLive ?_, Value.ofHandle_of_toHandle? hr⟩
    simp only [array, Heap.get] at hv
    simp only [isLive]
    cases ho : h.get? r with
    | none => simp [ho, Except.toOption] at hv
    | some o => rfl
  · cases hv

theorem unseen_insert_lt {h : Heap} {seen : Std.HashSet Pair} {a b : Value} {xs ys : Array Value}
    (hseen : ¬ seen.contains (words a b)) (ha : h.arrayOf? a = some xs)
    (hb : h.arrayOf? b = some ys) : h.unseen (seen.insert (words a b)) < h.unseen seen := by
  obtain ⟨r, hr, rfl⟩ := handle_of_arrayOf? ha
  obtain ⟨s, hs, rfl⟩ := handle_of_arrayOf? hb
  have hmem : (r, s) ∈ h.pairs :=
    List.mem_flatMap.mpr ⟨r, hr, List.mem_map.mpr ⟨s, hs, rfl⟩⟩
  refine length_filter_lt (fun p hp => ?_) hmem (by simpa using hseen) (by simp)
  simp only [Std.HashSet.contains_insert, Bool.not_eq_true', Bool.or_eq_false_iff] at hp
  simp [hp.2]

/-- Whether all pairs are equal, given those taken up before. -/
def equalAll (h : Heap) (pending : List (Value × Value)) (seen : Std.HashSet Pair) : Bool :=
  match pending with
  | [] => true
  | (a, b) :: rest =>
    if a = b then equalAll h rest seen
    else if !(a.isHandle && b.isHandle) then false
    else if _ : seen.contains (words a b) then equalAll h rest seen
    else
      match _ : h.arrayOf? a, _ : h.arrayOf? b with
      | some xs, some ys =>
        if xs.size = ys.size then
          equalAll h ((xs.toList.zip ys.toList) ++ rest) (seen.insert (words a b))
        else false
      | _, _ => false
termination_by (h.unseen seen, pending.length)
decreasing_by
  · exact Prod.Lex.right _ (by simp)
  · exact Prod.Lex.right _ (by simp)
  · exact Prod.Lex.left _ _ (unseen_insert_lt ‹_› ‹_› ‹_›)

theorem equalAll_cons (h : Heap) (a b : Value) (rest : List (Value × Value))
    (seen : Std.HashSet Pair) :
    h.equalAll ((a, b) :: rest) seen =
      if a = b then h.equalAll rest seen
      else if !(a.isHandle && b.isHandle) then false
      else if seen.contains (words a b) then h.equalAll rest seen
      else match h.arrayOf? a, h.arrayOf? b with
        | some xs, some ys =>
          if xs.size = ys.size then
            h.equalAll ((xs.toList.zip ys.toList) ++ rest) (seen.insert (words a b))
          else false
        | _, _ => false := by
  rw [equalAll]
  simp only [dite_eq_ite]
  cases h.arrayOf? a <;> cases h.arrayOf? b <;> rfl

def equal (h : Heap) (a b : Value) : Bool :=
  if a = b then true
  else if !(a.isHandle && b.isHandle) then false
  else equalAll h [(a, b)] ∅

end Heap

end FiberMachine
