import FiberMachine.Heap.Equality
import Mathlib.Algebra.BigOperators.Ring.List
import Mathlib.Algebra.Order.BigOperators.Group.List
import Mathlib.Algebra.Order.Ring.Nat
import Mathlib.Data.List.Forall2
import Mathlib.Logic.Relation

/-!
# Equality is bisimilarity

Arrays may hold themselves and each other, so two values unfold to trees without an end. Equality
decides whether the trees are the same: whether some relation holds of the two values that only
relates values of one word, and arrays of one length with related items. It is the same to say
that no path of positions leads to a difference.

A pair that has been taken up counts as equal from then on. Nothing is lost by that: when all
pairs that are pending have been compared, those that were taken up are such a relation. A pair of
arrays is taken up once, so the number of rounds is bounded by the numbers of objects and items.
-/

namespace FiberMachine
namespace Heap

variable {h : Heap} {R S : Value → Value → Prop} {a b c : Value} {xs ys : Array Value}
variable {pending : List (Value × Value)} {seen : Std.HashSet Pair}

/-! ## Bisimilar values -/

/-- Two values have one word, or they are arrays with items that are related in order. -/
def Matches (h : Heap) (R : Value → Value → Prop) (a b : Value) : Prop :=
  a = b ∨ ∃ xs ys, h.arrayOf? a = some xs ∧ h.arrayOf? b = some ys ∧
    List.Forall₂ R xs.toList ys.toList

def Bisimulation (h : Heap) (R : Value → Value → Prop) : Prop := ∀ a b, R a b → h.Matches R a b

def Bisimilar (h : Heap) (a b : Value) : Prop := ∃ R, h.Bisimulation R ∧ R a b

theorem Matches.mono (hRS : ∀ a b, R a b → S a b) (hm : h.Matches R a b) : h.Matches S a b := by
  rcases hm with heq | ⟨xs, ys, hxs, hys, hitems⟩
  · exact .inl heq
  · exact .inr ⟨xs, ys, hxs, hys, hitems.imp hRS⟩

theorem bisimulation_bisimilar (h : Heap) : h.Bisimulation h.Bisimilar := by
  rintro a b ⟨R, hR, hab⟩
  apply (hR a b hab).mono
  intro x y hxy
  exact ⟨R, hR, hxy⟩

theorem forall₂_comp {l m n : List Value} (hlm : List.Forall₂ R l m) (hmn : List.Forall₂ S m n) :
    List.Forall₂ (Relation.Comp R S) l n := by
  induction hlm generalizing n with
  | nil =>
    cases hmn
    exact .nil
  | cons hxy _ ih =>
    cases hmn with
    | cons hyz hrest => exact .cons ⟨_, hxy, hyz⟩ (ih hrest)

theorem Bisimilar.refl (h : Heap) (a : Value) : h.Bisimilar a a :=
  ⟨Eq, fun _ _ heq => .inl heq, rfl⟩

theorem Bisimilar.symm (hab : h.Bisimilar a b) : h.Bisimilar b a := by
  refine ⟨fun x y => h.Bisimilar y x, ?_, hab⟩
  intro x y hyx
  rcases bisimulation_bisimilar h y x hyx with heq | ⟨ys, xs, hys, hxs, hitems⟩
  · exact .inl heq.symm
  · exact .inr ⟨xs, ys, hxs, hys, hitems.flip⟩

theorem Bisimilar.trans (hab : h.Bisimilar a b) (hbc : h.Bisimilar b c) : h.Bisimilar a c := by
  refine ⟨Relation.Comp h.Bisimilar h.Bisimilar, ?_, b, hab, hbc⟩
  rintro x z ⟨y, hxy, hyz⟩
  rcases bisimulation_bisimilar h x y hxy with rfl | ⟨xs, ys, hxs, hys, hitems⟩
  · exact (bisimulation_bisimilar h x z hyz).mono fun u v huv => ⟨u, .refl h u, huv⟩
  rcases bisimulation_bisimilar h y z hyz with rfl | ⟨ys', zs, hys', hzs, hitems'⟩
  · exact .inr ⟨xs, ys, hxs, hys, hitems.imp fun u v huv => ⟨v, huv, .refl h v⟩⟩
  · obtain rfl := Option.some.inj (hys.symm.trans hys')
    exact .inr ⟨xs, zs, hxs, hzs, forall₂_comp hitems hitems'⟩

/-! ## Paths of positions -/

/-- What stands at the end of a path of positions through arrays. -/
def follow (h : Heap) (v : Value) : List Nat → Option Value
  | [] => some v
  | i :: path => do h.follow (← (← h.arrayOf? v)[i]?) path

/-- Two values differ at once: their words do, and they are no arrays of one length. -/
def Differ (h : Heap) (a b : Value) : Prop :=
  a ≠ b ∧ ∀ xs ys, h.arrayOf? a = some xs → h.arrayOf? b = some ys → xs.size ≠ ys.size

def TellsApart (h : Heap) (path : List Nat) (a b : Value) : Prop :=
  ∃ x y, h.follow a path = some x ∧ h.follow b path = some y ∧ h.Differ x y

theorem follow_cons (ha : h.arrayOf? a = some xs) (i : Nat) (path : List Nat) :
    h.follow a (i :: path) = xs[i]?.bind fun x => h.follow x path := by
  simp [follow, ha]

theorem exists_item {i : Nat} {path : List Nat} {x : Value}
    (hx : h.follow a (i :: path) = some x) :
    ∃ xs item, h.arrayOf? a = some xs ∧ xs[i]? = some item ∧ h.follow item path = some x := by
  cases ha : h.arrayOf? a with
  | none => simp [follow, ha] at hx
  | some xs =>
    rw [follow_cons ha] at hx
    obtain ⟨item, hitem, hx⟩ := Option.bind_eq_some_iff.mp hx
    exact ⟨xs, item, rfl, hitem, hx⟩

theorem Bisimilar.not_differ (hab : h.Bisimilar a b) : ¬ h.Differ a b := by
  rintro ⟨hne, hsize⟩
  rcases bisimulation_bisimilar h a b hab with heq | ⟨xs, ys, hxs, hys, hitems⟩
  · exact hne heq
  · exact hsize xs ys hxs hys hitems.length_eq

theorem Bisimilar.not_tellsApart (hab : h.Bisimilar a b) (path : List Nat) :
    ¬ h.TellsApart path a b := by
  induction path generalizing a b with
  | nil =>
    rintro ⟨x, y, hx, hy, hdiffer⟩
    cases hx
    cases hy
    exact hab.not_differ hdiffer
  | cons i path ih =>
    rintro ⟨x, y, hx, hy, hdiffer⟩
    obtain ⟨xs, u, hxs, hu, hxu⟩ := exists_item hx
    obtain ⟨ys, v, hys, hv, hyv⟩ := exists_item hy
    suffices huv : h.Bisimilar u v from ih huv ⟨x, y, hxu, hyv, hdiffer⟩
    rcases bisimulation_bisimilar h a b hab with rfl | ⟨xs', ys', hxs', hys', hitems⟩
    · obtain rfl := Option.some.inj (hxs.symm.trans hys)
      obtain rfl := Option.some.inj (hu.symm.trans hv)
      exact .refl h u
    · obtain rfl := Option.some.inj (hxs.symm.trans hxs')
      obtain rfl := Option.some.inj (hys.symm.trans hys')
      obtain ⟨hi, rfl⟩ := Array.getElem?_eq_some_iff.mp hu
      obtain ⟨hj, rfl⟩ := Array.getElem?_eq_some_iff.mp hv
      exact hitems.get hi hj

/-- That no path tells values apart is itself a bisimulation. -/
theorem bisimulation_of_paths (h : Heap) :
    h.Bisimulation fun a b => ∀ path, ¬ h.TellsApart path a b := by
  intro a b hpaths
  by_cases heq : a = b
  · exact .inl heq
  have hdiffer : ¬ h.Differ a b := fun hdiffer => hpaths [] ⟨a, b, rfl, rfl, hdiffer⟩
  simp only [Differ, ne_eq, heq, not_false_eq_true, true_and, not_forall, not_not] at hdiffer
  obtain ⟨xs, ys, hxs, hys, hsize⟩ := hdiffer
  refine .inr ⟨xs, ys, hxs, hys, List.forall₂_iff_get.mpr ⟨hsize, ?_⟩⟩
  rintro i hi hj path ⟨x, y, hx, hy, hdiffer⟩
  apply hpaths (i :: path)
  refine ⟨x, y, ?_, ?_, hdiffer⟩
  · rw [follow_cons hxs, Array.getElem?_eq_getElem hi]
    exact hx
  · rw [follow_cons hys, Array.getElem?_eq_getElem hj]
    exact hy

theorem bisimilar_iff_paths : h.Bisimilar a b ↔ ∀ path, ¬ h.TellsApart path a b :=
  ⟨Bisimilar.not_tellsApart, fun hpaths => ⟨_, bisimulation_of_paths h, hpaths⟩⟩

/-! ## Rounds of the comparison -/

/-- The comparison of pending pairs ends with an answer after a number of rounds. -/
inductive Compares (h : Heap) : List (Value × Value) → Std.HashSet Pair → Nat → Bool → Prop
  | done (seen : Std.HashSet Pair) : Compares h [] seen 0 true
  | same {a : Value} {rest : List (Value × Value)} {seen : Std.HashSet Pair} {n : Nat}
      {answer : Bool} : Compares h rest seen n answer →
      Compares h ((a, a) :: rest) seen (n + 1) answer
  | met {a b : Value} {rest : List (Value × Value)} {seen : Std.HashSet Pair} {n : Nat}
      {answer : Bool} : a ≠ b → seen.contains (words a b) → Compares h rest seen n answer →
      Compares h ((a, b) :: rest) seen (n + 1) answer
  | arrays {a b : Value} {rest : List (Value × Value)} {seen : Std.HashSet Pair} {n : Nat}
      {answer : Bool} {xs ys : Array Value} : a ≠ b → ¬ seen.contains (words a b) →
      h.arrayOf? a = some xs → h.arrayOf? b = some ys → xs.size = ys.size →
      Compares h (xs.toList.zip ys.toList ++ rest) (seen.insert (words a b)) n answer →
      Compares h ((a, b) :: rest) seen (n + 1) answer
  | differ {a b : Value} (rest : List (Value × Value)) (seen : Std.HashSet Pair) :
      h.Differ a b → Compares h ((a, b) :: rest) seen 1 false

/-- The number of items of an object; only arrays have any. -/
def itemCount (h : Heap) (r : Handle) : Nat := ((h.arrayOf? (.ofHandle r)).map Array.size).getD 0

/-- The number of items that may still be taken up. -/
def unseenItems (h : Heap) (seen : Std.HashSet Pair) : Nat :=
  ((h.pairs.filter fun p => !seen.contains (words (.ofHandle p.1) (.ofHandle p.2))).map
    fun p => h.itemCount p.1).sum

theorem sum_filter_add_le {α : Type} {p q : α → Bool} {f : α → Nat} {l : List α}
    (hle : ∀ a, p a → q a) {a : α} (ha : a ∈ l) (hq : q a) (hp : ¬ p a) :
    ((l.filter p).map f).sum + f a ≤ ((l.filter q).map f).sum := by
  induction l with
  | nil => cases ha
  | cons b l ih =>
    have hmono : ((l.filter p).map f).sum ≤ ((l.filter q).map f).sum :=
      ((List.monotone_filter_right l hle).map f).sum_le_sum fun _ _ => Nat.zero_le _
    rcases List.mem_cons.mp ha with rfl | hmem
    · rw [List.filter_cons_of_pos hq, List.filter_cons_of_neg hp, List.map_cons, List.sum_cons]
      omega
    · have ih := ih hmem
      by_cases hb : p b
      · rw [List.filter_cons_of_pos hb, List.filter_cons_of_pos (hle b hb), List.map_cons,
          List.map_cons, List.sum_cons, List.sum_cons]
        omega
      · rw [List.filter_cons_of_neg hb]
        by_cases hb' : q b
        · rw [List.filter_cons_of_pos hb', List.map_cons, List.sum_cons]
          omega
        · rw [List.filter_cons_of_neg hb']
          exact ih

theorem unseenItems_insert (hmet : ¬ seen.contains (words a b)) (hxs : h.arrayOf? a = some xs)
    (hys : h.arrayOf? b = some ys) :
    h.unseenItems (seen.insert (words a b)) + xs.size ≤ h.unseenItems seen := by
  obtain ⟨r, hr, rfl⟩ := handle_of_arrayOf? hxs
  obtain ⟨s, hs, rfl⟩ := handle_of_arrayOf? hys
  have hmem : (r, s) ∈ h.pairs := List.mem_flatMap.mpr ⟨r, hr, List.mem_map.mpr ⟨s, hs, rfl⟩⟩
  have hcount : h.itemCount r = xs.size := by rw [itemCount, hxs]; rfl
  rw [← hcount]
  apply sum_filter_add_le (f := fun p => h.itemCount p.1) _ hmem
  · simpa using hmet
  · simp
  · intro p hp
    simp only [Std.HashSet.contains_insert, Bool.not_eq_true', Bool.or_eq_false_iff] at hp
    simp [hp.2]

theorem differ_of_scalar (hne : a ≠ b) (hscalar : !(a.isHandle && b.isHandle)) :
    h.Differ a b := by
  refine ⟨hne, fun xs ys hxs hys => ?_⟩
  obtain ⟨r, -, rfl⟩ := handle_of_arrayOf? hxs
  obtain ⟨s, -, rfl⟩ := handle_of_arrayOf? hys
  simp [Value.isHandle_ofHandle] at hscalar

/-- Each round takes a pair away, and a pair of arrays that is taken up for the first time brings
no more than its items. -/
theorem compares_equalAll (h : Heap) (pending : List (Value × Value)) (seen : Std.HashSet Pair) :
    ∃ n ≤ pending.length + h.unseenItems seen,
      Compares h pending seen n (h.equalAll pending seen) := by
  induction pending, seen using equalAll.induct h with
  | case1 seen =>
    rw [equalAll]
    exact ⟨0, Nat.zero_le _, .done seen⟩
  | case2 seen b rest ih =>
    obtain ⟨n, hn, hrest⟩ := ih
    rw [equalAll_cons, if_pos rfl]
    refine ⟨n + 1, ?_, .same hrest⟩
    rw [List.length_cons]
    omega
  | case3 seen a b rest hne hscalar =>
    rw [equalAll_cons, if_neg hne, if_pos hscalar]
    refine ⟨1, ?_, .differ rest seen (differ_of_scalar hne hscalar)⟩
    rw [List.length_cons]
    omega
  | case4 seen a b rest hne hhandles hmet ih =>
    obtain ⟨n, hn, hrest⟩ := ih
    rw [equalAll_cons, if_neg hne, if_neg hhandles, if_pos hmet]
    refine ⟨n + 1, ?_, .met hne hmet hrest⟩
    rw [List.length_cons]
    omega
  | case5 seen a b rest hne hhandles hmet xs ys hxs hys hsize ih =>
    obtain ⟨n, hn, hpending⟩ := ih
    have hless := unseenItems_insert hmet hxs hys
    simp only [equalAll_cons, if_neg hne, if_neg hhandles, if_neg hmet, hxs, hys, if_pos hsize]
    refine ⟨n + 1, ?_, .arrays hne hmet hxs hys hsize hpending⟩
    simp only [List.length_append, List.length_zip, Array.length_toList, hsize, Nat.min_self,
      List.length_cons] at hn hless ⊢
    omega
  | case6 seen a b rest hne hhandles hmet xs ys hxs hys hsize =>
    simp only [equalAll_cons, if_neg hne, if_neg hhandles, if_neg hmet, hxs, hys, if_neg hsize]
    refine ⟨1, ?_, .differ rest seen ⟨hne, fun xs' ys' hxs' hys' => ?_⟩⟩
    · rw [List.length_cons]
      omega
    · obtain rfl := Option.some.inj (hxs.symm.trans hxs')
      obtain rfl := Option.some.inj (hys.symm.trans hys')
      exact hsize
  | case7 seen a b rest hne hhandles hmet harrays =>
    have hfalse : h.equalAll ((a, b) :: rest) seen = false := by
      rw [equalAll_cons, if_neg hne, if_neg hhandles, if_neg hmet]
      split
      · exact absurd (by assumption) (harrays _ _ (by assumption))
      · rfl
    rw [hfalse]
    refine ⟨1, ?_, .differ rest seen ⟨hne, fun xs ys hxs hys => (harrays xs ys hxs hys).elim⟩⟩
    rw [List.length_cons]
    omega

/-! ## The comparison decides bisimilarity -/

theorem words_inj {x y : Value} (hwords : words a b = words x y) : a = x ∧ b = y := by
  obtain ⟨hx, hy⟩ := Prod.mk.inj hwords
  exact ⟨congrArg Value.mk hx, congrArg Value.mk hy⟩

/-- Pairs that are compared with success leave behind a relation which is a bisimulation, up to
what was assumed at the beginning. -/
theorem Compares.exists_relation {n : Nat} {answer : Bool} (hc : Compares h pending seen n answer)
    (hanswer : answer = true) :
    ∃ S : Value → Value → Prop, (∀ x y, seen.contains (words x y) → S x y) ∧
      (∀ p ∈ pending, p.1 = p.2 ∨ S p.1 p.2) ∧
      ∀ x y, S x y → seen.contains (words x y) ∨ h.Matches (fun u v => u = v ∨ S u v) x y := by
  induction hc with
  | done seen => exact ⟨fun x y => seen.contains (words x y), fun _ _ => id, by simp, fun _ _ => .inl⟩
  | same _ ih =>
    obtain ⟨S, hseen, hrest, hS⟩ := ih hanswer
    exact ⟨S, hseen, List.forall_mem_cons.mpr ⟨.inl rfl, hrest⟩, hS⟩
  | @met a b _ _ _ _ _ hmet _ ih =>
    obtain ⟨S, hseen, hrest, hS⟩ := ih hanswer
    exact ⟨S, hseen, List.forall_mem_cons.mpr ⟨.inr (hseen a b hmet), hrest⟩, hS⟩
  | @arrays a b rest seen n answer xs ys hne hmet hxs hys hsize _ ih =>
    obtain ⟨S, hseen, hpending, hS⟩ := ih hanswer
    obtain ⟨hitems, hrest⟩ := List.forall_mem_append.mp hpending
    have hab : S a b := hseen a b Std.HashSet.contains_insert_self
    refine ⟨S, ?_, List.forall_mem_cons.mpr ⟨.inr hab, hrest⟩, ?_⟩
    · intro x y hxy
      exact hseen x y (by simp [hxy])
    · intro x y hxy
      rcases hS x y hxy with hmem | hmatches
      · rw [Std.HashSet.contains_insert, Bool.or_eq_true, beq_iff_eq] at hmem
        rcases hmem with hwords | hmem
        · -- the pair that is taken up here: its items have been compared
          obtain ⟨rfl, rfl⟩ := words_inj hwords
          refine .inr (.inr ⟨xs, ys, hxs, hys, List.forall₂_iff_zip.mpr ⟨hsize, ?_⟩⟩)
          intro u v huv
          exact hitems (u, v) huv
        · exact .inl hmem
      · exact .inr hmatches
  | differ => cases hanswer

theorem Compares.bisimilar {n : Nat} (hc : Compares h [(a, b)] ∅ n true) : h.Bisimilar a b := by
  obtain ⟨S, -, hpending, hS⟩ := hc.exists_relation rfl
  refine ⟨fun u v => u = v ∨ S u v, ?_, hpending (a, b) (List.mem_singleton_self _)⟩
  rintro x y (heq | hxy)
  · exact .inl heq
  · exact (hS x y hxy).resolve_left (by simp)

/-- Whatever has been taken up, pairs of bisimilar values are compared with success. -/
theorem Compares.answer_of_bisimilar {n : Nat} {answer : Bool}
    (hc : Compares h pending seen n answer) (hall : ∀ p ∈ pending, h.Bisimilar p.1 p.2) :
    answer = true := by
  induction hc with
  | done => rfl
  | same _ ih => exact ih (List.forall_mem_cons.mp hall).2
  | met _ _ _ ih => exact ih (List.forall_mem_cons.mp hall).2
  | @arrays a b rest seen n answer xs ys hne _ hxs hys _ _ ih =>
    obtain ⟨hab, hrest⟩ := List.forall_mem_cons.mp hall
    apply ih
    refine List.forall_mem_append.mpr ⟨?_, hrest⟩
    rcases bisimulation_bisimilar h a b hab with heq | ⟨xs', ys', hxs', hys', hitems⟩
    · exact absurd heq hne
    obtain rfl := Option.some.inj (hxs.symm.trans hxs')
    obtain rfl := Option.some.inj (hys.symm.trans hys')
    rintro ⟨u, v⟩ huv
    exact List.forall₂_zip hitems huv
  | differ _ _ hdiffer => exact absurd hdiffer (List.forall_mem_cons.mp hall).1.not_differ

theorem equal_eq_equalAll (h : Heap) (a b : Value) : h.equal a b = h.equalAll [(a, b)] ∅ := by
  simp only [equal]
  split
  · rename_i heq
    rw [equalAll_cons, if_pos heq, equalAll]
  · rename_i hne
    split
    · rename_i hscalar
      rw [equalAll_cons, if_neg hne, if_pos hscalar]
    · rfl

theorem equal_iff_bisimilar : h.equal a b = true ↔ h.Bisimilar a b := by
  obtain ⟨n, -, hc⟩ := compares_equalAll h [(a, b)] ∅
  rw [equal_eq_equalAll]
  constructor
  · intro htrue
    rw [htrue] at hc
    exact hc.bisimilar
  · intro hab
    exact hc.answer_of_bisimilar (by simpa using hab)

theorem unseenItems_empty (h : Heap) :
    h.unseenItems ∅ = h.handles.length * (h.handles.map h.itemCount).sum := by
  simp [unseenItems, pairs, Function.comp_def, List.flatMap_def, List.sum_flatten,
    List.sum_map_mul_left]

/-- What equality comes to, on any heap. The comparison ends, and it takes up no more pairs than
the first one and an item for each object and each item of the heap. Two values are equal when
they are bisimilar, which is when no path of positions leads to a difference. So equality is an
equivalence. -/
structure EqualityGuarantees (h : Heap) : Prop where
  ends : ∀ a b, ∃ n ≤ 1 + h.handles.length * (h.handles.map h.itemCount).sum,
    Compares h [(a, b)] ∅ n (h.equal a b)
  bisimilar : ∀ a b, h.equal a b = true ↔ h.Bisimilar a b
  paths : ∀ a b, h.equal a b = true ↔ ∀ path, ¬ h.TellsApart path a b
  equivalence : Equivalence fun a b => h.equal a b = true

theorem equalityGuarantees (h : Heap) : EqualityGuarantees h where
  ends a b := by
    obtain ⟨n, hn, hc⟩ := compares_equalAll h [(a, b)] ∅
    rw [unseenItems_empty] at hn
    exact ⟨n, hn, equal_eq_equalAll h a b ▸ hc⟩
  bisimilar _ _ := equal_iff_bisimilar
  paths _ _ := equal_iff_bisimilar.trans bisimilar_iff_paths
  equivalence := by
    simp only [equal_iff_bisimilar]
    exact ⟨.refl h, .symm, .trans⟩

end Heap
end FiberMachine
