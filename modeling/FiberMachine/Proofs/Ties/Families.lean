import Mathlib.Data.List.Basic
import FiberMachine.Table

/-!
# Families

A family has a member for each of several machines that run side by side. Lists,
options and tables that agree in shape are one list, option or table of families, and
the operations on them keep it so as long as they look at nothing that differs.
-/

namespace FiberMachine

variable {ι α β κ : Type}

/-- All members are one and the same. -/
def Same (x : ι → α) : Prop := ∃ a, ∀ i, x i = a

def Maybe (R : (ι → α) → Prop) (x : ι → Option α) : Prop :=
  ∃ o : Option (ι → α), (∀ a ∈ o, R a) ∧ ∀ i, x i = o.map (· i)

def Each (R : (ι → α) → Prop) (xs : ι → List α) : Prop :=
  ∃ l : List (ι → α), (∀ a ∈ l, R a) ∧ ∀ i, xs i = l.map (· i)

/-- Two families that meet anywhere are equal. -/
def Apart (R : (ι → α) → Prop) : Prop := ∀ a b, R a → R b → ∀ i, a i = b i → a = b

theorem Same.const (a : α) : Same fun _ : ι => a := ⟨a, fun _ => rfl⟩

theorem Same.map {x : ι → α} (hx : Same x) (f : α → β) : Same fun i => f (x i) := by
  obtain ⟨a, ha⟩ := hx
  exact ⟨f a, fun i => congrArg f (ha i)⟩

theorem Same.map₂ {x : ι → α} {y : ι → β} (hx : Same x) (hy : Same y) (f : α → β → κ) :
    Same fun i => f (x i) (y i) := by
  obtain ⟨a, ha⟩ := hx
  obtain ⟨b, hb⟩ := hy
  exact ⟨f a b, fun i => congrArg₂ f (ha i) (hb i)⟩

theorem Same.eq {x : ι → α} (hx : Same x) (i j : ι) : x i = x j := by
  obtain ⟨a, ha⟩ := hx
  exact (ha i).trans (ha j).symm

/-! ## Options -/

variable {R S : (ι → α) → Prop}

theorem Maybe.none : Maybe R fun _ => none := ⟨Option.none, nofun, fun _ => rfl⟩

theorem Maybe.some {a : ι → α} (ha : R a) : Maybe R fun i => some (a i) := by
  refine ⟨Option.some a, fun b hb => ?_, fun _ => rfl⟩
  cases hb
  exact ha

theorem Maybe.cases {x : ι → Option α} (hx : Maybe R x) :
    (∀ i, x i = Option.none) ∨ ∃ a, R a ∧ ∀ i, x i = Option.some (a i) := by
  obtain ⟨o, ho, hx⟩ := hx
  cases o with
  | none => exact Or.inl hx
  | some a => exact Or.inr ⟨a, ho a rfl, hx⟩

theorem Maybe.imp {x : ι → Option α} (hx : Maybe R x)
    (h : ∀ a, (∀ i, x i = Option.some (a i)) → R a → S a) : Maybe S x := by
  obtain ⟨o, ho, hx⟩ := hx
  refine ⟨o, fun a ha => h a (fun i => ?_) (ho a ha), hx⟩
  cases ha
  exact hx i

theorem Maybe.isSome {x : ι → Option α} (hx : Maybe R x) : Same fun i => (x i).isSome := by
  obtain ⟨o, -, hx⟩ := hx
  simp only [hx]
  exact ⟨o.isSome, fun i => Option.isSome_map⟩

theorem Maybe.map {T : (ι → β) → Prop} {x : ι → Option α} (hx : Maybe R x) (f : ι → α → β)
    (h : ∀ a, R a → T fun i => f i (a i)) : Maybe T fun i => (x i).map (f i) := by
  rcases hx.cases with hx | ⟨a, ha, hx⟩
  · simp only [hx, Option.map_none]
    exact .none
  · simp only [hx, Option.map_some]
    exact .some (h a ha)

theorem Maybe.bind {T : (ι → β) → Prop} {x : ι → Option α} (hx : Maybe R x)
    (f : ι → α → Option β) (h : ∀ a, R a → Maybe T fun i => f i (a i)) :
    Maybe T fun i => (x i).bind (f i) := by
  rcases hx.cases with hx | ⟨a, ha, hx⟩
  · simp only [hx, Option.bind_none]
    exact .none
  · simp only [hx, Option.bind_some]
    exact h a ha

theorem Maybe.getD {x : ι → Option α} (hx : Maybe R x) {a : ι → α} (ha : R a) :
    R fun i => (x i).getD (a i) := by
  rcases hx.cases with hx | ⟨b, hb, hx⟩
  · simpa only [hx, Option.getD_none] using ha
  · simpa only [hx, Option.getD_some] using hb

theorem Maybe.filter {x : ι → Option α} (hx : Maybe R x) {p : ι → α → Bool}
    (h : ∀ a, R a → Same fun i => p i (a i)) : Maybe R fun i => (x i).filter (p i) := by
  rcases hx.cases with hx | ⟨a, ha, hx⟩
  · simp only [hx, Option.filter_none]
    exact .none
  · obtain ⟨b, hb⟩ := h a ha
    simp only [hx, Option.filter_some, hb]
    cases b with
    | true => exact .some ha
    | false => exact .none

/-! ## Lists -/

theorem Each.nil : Each R fun _ => [] := ⟨[], nofun, fun _ => rfl⟩

theorem Each.cons {a : ι → α} {xs : ι → List α} (ha : R a) (hxs : Each R xs) :
    Each R fun i => a i :: xs i := by
  obtain ⟨l, hl, hxs⟩ := hxs
  refine ⟨a :: l, fun b hb => ?_, fun i => by simp only [hxs, List.map_cons]⟩
  rcases List.mem_cons.mp hb with rfl | hb
  · exact ha
  · exact hl b hb

theorem Each.singleton {a : ι → α} (ha : R a) : Each R fun i => [a i] := .cons ha .nil

theorem Each.const {l : List α} (h : ∀ a ∈ l, R fun _ => a) : Each R fun _ => l := by
  refine ⟨l.map fun a _ => a, fun b hb => ?_, fun _ => by simp [Function.comp_def]⟩
  obtain ⟨a, ha, rfl⟩ := List.mem_map.mp hb
  exact h a ha

theorem Maybe.toList {x : ι → Option α} (hx : Maybe R x) : Each R fun i => (x i).toList := by
  rcases hx.cases with hx | ⟨a, ha, hx⟩
  · simp only [hx, Option.toList_none]
    exact .nil
  · simp only [hx, Option.toList_some]
    exact .singleton ha

theorem Each.append {xs ys : ι → List α} (hxs : Each R xs) (hys : Each R ys) :
    Each R fun i => xs i ++ ys i := by
  obtain ⟨k, hk, hxs⟩ := hxs
  obtain ⟨l, hl, hys⟩ := hys
  refine ⟨k ++ l, fun a ha => ?_, fun i => by simp only [hxs, hys, List.map_append]⟩
  exact (List.mem_append.mp ha).elim (hk a) (hl a)

theorem Each.cases {xs : ι → List α} (hxs : Each R xs) :
    (∀ i, xs i = []) ∨ ∃ a l, R a ∧ Each R l ∧ ∀ i, xs i = a i :: l i := by
  obtain ⟨l, hl, hxs⟩ := hxs
  cases l with
  | nil => exact Or.inl hxs
  | cons a l =>
    have hrest : Each R fun i => l.map (· i) :=
      ⟨l, fun b hb => hl b (List.mem_cons_of_mem _ hb), fun _ => rfl⟩
    exact Or.inr ⟨a, _, hl a (List.mem_cons_self ..), hrest, hxs⟩

theorem Each.imp {xs : ι → List α} (hxs : Each R xs) (h : ∀ a, (∀ i, a i ∈ xs i) → R a → S a) :
    Each S xs := by
  obtain ⟨l, hl, hxs⟩ := hxs
  refine ⟨l, fun a ha => h a (fun i => ?_) (hl a ha), hxs⟩
  rw [hxs]
  exact List.mem_map.mpr ⟨a, ha, rfl⟩

theorem Each.map {T : (ι → β) → Prop} {xs : ι → List α} (hxs : Each R xs) (f : ι → α → β)
    (h : ∀ a, R a → T fun i => f i (a i)) : Each T fun i => (xs i).map (f i) := by
  obtain ⟨l, hl, hxs⟩ := hxs
  refine ⟨l.map fun a i => f i (a i), fun b hb => ?_, fun i => by simp [hxs]⟩
  obtain ⟨a, ha, rfl⟩ := List.mem_map.mp hb
  exact h a (hl a ha)

theorem Each.filter {xs : ι → List α} (hxs : Each R xs) {p : ι → α → Bool}
    (h : ∀ a, R a → Same fun i => p i (a i)) : Each R fun i => (xs i).filter (p i) := by
  obtain ⟨l, hl, hxs⟩ := hxs
  simp only [hxs]
  clear hxs
  induction l with
  | nil => exact .nil
  | cons a l ih =>
    obtain ⟨b, hb⟩ := h a (hl a (List.mem_cons_self ..))
    have hrest := ih fun c hc => hl c (List.mem_cons_of_mem _ hc)
    cases b with
    | true =>
      simp only [List.map_cons, List.filter_cons, hb, ↓reduceIte]
      exact .cons (hl a (List.mem_cons_self ..)) hrest
    | false => simpa only [List.map_cons, List.filter_cons, hb, Bool.false_eq_true, ↓reduceIte]

theorem Each.length {xs : ι → List α} (hxs : Each R xs) : Same fun i => (xs i).length := by
  obtain ⟨l, -, hxs⟩ := hxs
  exact ⟨l.length, fun i => by simp only [hxs, List.length_map]⟩

/-- A list of families whose members are the same is the same list for all. -/
theorem Each.same {xs : ι → List α} (hxs : Each Same xs) : Same xs := by
  obtain ⟨l, hl, hxs⟩ := hxs
  simp only [Same, hxs]
  clear hxs
  induction l with
  | nil => exact ⟨[], fun _ => rfl⟩
  | cons a l ih =>
    obtain ⟨b, hb⟩ := hl a (List.mem_cons_self ..)
    obtain ⟨rest, hrest⟩ := ih fun c hc => hl c (List.mem_cons_of_mem _ hc)
    exact ⟨b :: rest, fun i => by simp only [List.map_cons, hb, hrest]⟩

theorem Each.mem (hR : Apart R) {xs : ι → List α} (hxs : Each R xs) {a : ι → α} (ha : R a) :
    (∀ i, a i ∈ xs i) ∨ ∀ i, a i ∉ xs i := by
  obtain ⟨l, hl, hxs⟩ := hxs
  simp only [hxs, List.mem_map]
  by_cases hal : a ∈ l
  · exact Or.inl fun i => ⟨a, hal, rfl⟩
  · refine Or.inr fun i hi => hal ?_
    obtain ⟨b, hb, hbi⟩ := hi
    exact hR b a (hl b hb) ha i hbi ▸ hb

theorem Each.getElem? {xs : ι → List α} (hxs : Each R xs) (n : Nat) :
    Maybe R fun i => (xs i)[n]? := by
  obtain ⟨l, hl, hxs⟩ := hxs
  refine ⟨l[n]?, fun a ha => hl a (List.mem_of_getElem? ha), fun i => ?_⟩
  simp only [hxs, List.getElem?_map]

/-- A function that only takes members away or puts them elsewhere. -/
theorem Each.rearrange {xs : ι → List α} (hxs : Each R xs) (f : (γ : Type) → List γ → List γ)
    (hsub : ∀ (l : List (ι → α)), f (ι → α) l ⊆ l)
    (hmap : ∀ (l : List (ι → α)) i, f α (l.map (· i)) = (f (ι → α) l).map (· i)) :
    Each R fun i => f α (xs i) := by
  obtain ⟨l, hl, hxs⟩ := hxs
  exact ⟨f _ l, fun a ha => hl a (hsub l ha), fun i => by simp only [hxs, hmap]⟩

theorem Each.take {xs : ι → List α} (hxs : Each R xs) (n : Nat) : Each R fun i => (xs i).take n :=
  hxs.rearrange (fun _ => List.take n) (List.take_subset n) fun _ _ => List.map_take.symm

theorem Each.drop {xs : ι → List α} (hxs : Each R xs) (n : Nat) : Each R fun i => (xs i).drop n :=
  hxs.rearrange (fun _ => List.drop n) (List.drop_subset n) fun _ _ => List.map_drop.symm

theorem Each.dropLast {xs : ι → List α} (hxs : Each R xs) : Each R fun i => (xs i).dropLast :=
  hxs.rearrange (fun _ => List.dropLast) List.dropLast_subset fun _ _ => List.map_dropLast.symm

theorem Each.tail {xs : ι → List α} (hxs : Each R xs) : Each R fun i => (xs i).tail :=
  hxs.rearrange (fun _ => List.tail) (fun _ _ => List.mem_of_mem_tail) fun _ _ => List.map_tail.symm

theorem Each.set {xs : ι → List α} (hxs : Each R xs) (n : Nat) {a : ι → α} (ha : R a) :
    Each R fun i => (xs i).set n (a i) := by
  obtain ⟨l, hl, hxs⟩ := hxs
  refine ⟨l.set n a, fun b hb => ?_, fun i => by simp only [hxs, List.map_set]⟩
  rcases List.mem_or_eq_of_mem_set hb with hb | rfl
  · exact hl b hb
  · exact ha

theorem Each.zip {T : (ι → β) → Prop} {xs : ι → List α} {ys : ι → List β} (hxs : Each R xs)
    (hys : Each T ys) :
    Each (fun p => R (fun i => (p i).1) ∧ T fun i => (p i).2) fun i => (xs i).zip (ys i) := by
  obtain ⟨k, hk, hxs⟩ := hxs
  obtain ⟨l, hl, hys⟩ := hys
  refine ⟨List.zipWith (fun a b i => (a i, b i)) k l, fun p hp => ?_, fun i => ?_⟩
  · rw [← List.map_uncurry_zip_eq_zipWith] at hp
    obtain ⟨⟨a, b⟩, hab, rfl⟩ := List.mem_map.mp hp
    exact ⟨hk a (List.of_mem_zip hab).1, hl b (List.of_mem_zip hab).2⟩
  · simp only [hxs, hys]
    rw [List.map_zipWith, ← List.map_uncurry_zip_eq_zipWith, List.zip_map]
    rfl

/-- A sort by something that is the same for all. -/
theorem Each.mergeSort [Inhabited ι] {xs : ι → List α} (hxs : Each R xs) (le : α → α → Bool)
    (h : ∀ a b, R a → R b → Same fun i => le (a i) (b i)) :
    Each R fun i => (xs i).mergeSort le := by
  obtain ⟨l, hl, hxs⟩ := hxs
  refine ⟨l.mergeSort fun a b => le (a default) (b default), fun a ha => hl a ?_, fun i => ?_⟩
  · exact (List.mergeSort_perm l _).mem_iff.mp ha
  · simp only [hxs]
    refine (List.map_mergeSort fun a ha b hb => ?_).symm
    exact (h a b (hl a ha) (hl b hb)).eq default i

/-! ## Tables -/

/-- Tables with the same rows in the same order. -/
def Rows (K : (ι → κ) → Prop) (V : (ι → α) → Prop) (t : ι → Table κ α) : Prop :=
  Each (fun e => K (fun i => (e i).1) ∧ V fun i => (e i).2) fun i => (t i).entries

variable {K : (ι → κ) → Prop} {V W : (ι → α) → Prop} {t : ι → Table κ α}

theorem Rows.empty : Rows K V fun _ => .empty := Each.nil

theorem Rows.size (ht : Rows K V t) : Same fun i => (t i).size := ht.length

theorem Rows.keys (ht : Rows K V t) : Each K fun i => (t i).keys :=
  ht.map (fun _ e => e.1) fun _ he => he.1

theorem Rows.filter (ht : Rows K V t) {p : ι → κ → α → Bool}
    (h : ∀ k a, K k → V a → Same fun i => p i (k i) (a i)) :
    Rows K V fun i => (t i).filter (p i) :=
  Each.filter ht fun _ he => h _ _ he.1 he.2

variable [DecidableEq κ]

theorem Rows.find? (ht : Rows K V t) (hK : Apart K) {k : ι → κ} (hk : K k) :
    Maybe V fun i => (t i).find? (k i) := by
  obtain ⟨l, hl, ht⟩ := ht
  simp only [Table.find?, ht]
  clear ht
  induction l with
  | nil => exact .none
  | cons e l ih =>
    have he := hl e (List.mem_cons_self ..)
    by_cases hek : (fun i => (e i).1) = k
    · have hfind : ∀ i, Table.find (k i) ((e :: l).map (· i)) = some (e i).2 := by
        intro i
        simp only [List.map_cons, Table.find, if_pos (congrFun hek i)]
      simp only [hfind]
      exact .some he.2
    · have hne : ∀ i, (e i).1 ≠ k i := fun i hi => hek (hK _ _ he.1 hk i hi)
      simp only [List.map_cons, Table.find, hne, ↓reduceIte]
      exact ih fun a ha => hl a (List.mem_cons_of_mem _ ha)

theorem Rows.contains (ht : Rows K V t) (hK : Apart K) {k : ι → κ} (hk : K k) :
    Same fun i => (t i).contains (k i) := (ht.find? hK hk).isSome

theorem entries_insert (t : Table κ α) (k : κ) (a : α) :
    (t.insert k a).entries = match Table.find k t.entries with
      | some _ => Table.replace k a t.entries
      | none => (k, a) :: t.entries := by
  unfold Table.insert
  split <;> simp [*]

theorem rows_replace (hK : Apart K) {k : ι → κ} (hk : K k) {a : ι → α} (ha : V a)
    {l : List (ι → κ × α)} (hl : ∀ e ∈ l, K (fun i => (e i).1) ∧ V fun i => (e i).2) :
    Each (fun e => K (fun i => (e i).1) ∧ V fun i => (e i).2)
      fun i => Table.replace (k i) (a i) (l.map (· i)) := by
  induction l with
  | nil => exact .nil
  | cons e l ih =>
    have he := hl e (List.mem_cons_self ..)
    have hrest := fun b hb => hl b (List.mem_cons_of_mem _ hb)
    by_cases hek : (fun i => (e i).1) = k
    · have hmap : ∀ i, Table.replace (k i) (a i) ((e :: l).map (· i)) =
          (k i, a i) :: l.map (· i) := by
        intro i
        simp only [List.map_cons, Table.replace, if_pos (congrFun hek i)]
        exact congrArg (fun key => (key, a i) :: _) (congrFun hek i)
      simp only [hmap]
      exact .cons ⟨hk, ha⟩ ⟨l, hrest, fun _ => rfl⟩
    · have hne : ∀ i, (e i).1 ≠ k i := fun i hi => hek (hK _ _ he.1 hk i hi)
      simp only [List.map_cons, Table.replace, hne, ↓reduceIte]
      exact .cons he (ih hrest)

theorem Rows.insert (ht : Rows K V t) (hK : Apart K) {k : ι → κ} (hk : K k) {a : ι → α}
    (ha : V a) : Rows K V fun i => (t i).insert (k i) (a i) := by
  have hfind := (ht.find? hK hk).cases
  simp only [Rows, entries_insert]
  simp only [Table.find?] at hfind
  rcases hfind with hfind | ⟨b, -, hfind⟩
  · simp only [hfind]
    exact .cons ⟨hk, ha⟩ ht
  · obtain ⟨l, hl, ht⟩ := ht
    simp only [hfind]
    simp only [ht]
    exact rows_replace hK hk ha hl

theorem Rows.erase (ht : Rows K V t) (hK : Apart K) {k : ι → κ} (hk : K k) :
    Rows K V fun i => (t i).erase (k i) := by
  refine ht.filter fun l a hl _ => ?_
  by_cases hlk : l = k
  · exact ⟨false, fun i => by simp [hlk]⟩
  · exact ⟨true, fun i => by simpa using fun hi => hlk (hK _ _ hl hk i hi)⟩

end FiberMachine
