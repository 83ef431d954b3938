import FiberMachine.Heap.Display
import FiberMachine.Heap.Equality
import FiberMachine.Proofs.Ties.Reading

/-!
# What can be seen of tied values

Tied values have the same text, and two tied pairs are equal or different in all heaps.
A key of a dictionary is shown by itself; the dictionaries on the way to it are tied, so
the search for a way back ends in all heaps at once.
-/

namespace FiberMachine

variable {ι : Type} {T : Ties ι} {h : ι → Heap} {k : Kind} {v w : ι → Value}

namespace Ties

theorem Heaps.className (hT : T.Heaps h) {cls : ι → Handle} (hc : T.handles .classObject cls) :
    Same fun i => (h i).className (cls i) := by
  obtain ⟨o, ho, hget⟩ := hT.object hc
  cases ho with
  | mk _ hb =>
    cases hb with
    | classObject hn =>
      simp only [Heap.className, hget]
      exact hT.nameText hn "?"

theorem Heaps.displayScalar (hT : T.Heaps h) {object : ι → Handle → Object → String}
    (hobject : ∀ k r o, T.handles k r → T.Objects k o → Same fun i => object i (r i) (o i))
    (hv : T.Values v) : Same fun i => (h i).displayScalar (object i) (v i) := by
  obtain ⟨x, hx⟩ := hv.toFloat?
  obtain ⟨b, hb⟩ := hv.toBool?
  simp only [Heap.displayScalar, hx, hb]
  cases x with
  | some x => exact .const _
  | none =>
    cases b with
    | some b => exact .const _
    | none =>
      rcases hv.handle with hs | ⟨k, r, hr, hv⟩
      · simp only [hs]
        exact .const _
      · obtain ⟨o, ho, hget⟩ := hT.object hr
        simp only [hv, hget]
        exact hobject k r o hr ho

/-! ## Texts of values -/

section

variable [Inhabited ι]

theorem Heaps.displayBody (hT : T.Heaps h) {b : ι → Body} (hb : T.Bodies k b)
    {key item : ι → Value → String} (hkey : ∀ v, T.Values v → Same fun i => key i (v i))
    (hitem : ∀ v, T.Values v → Same fun i => item i (v i)) :
    Same fun i => (h i).displayBody (key i) (item i) (b i) := by
  cases hb with
  | text s => exact .const s
  | array hi =>
    have hitems := (Each.map (T := Same) hi item hitem).same
    exact hitems.map fun texts => "[" ++ Heap.commaSeparated texts ++ "]"
  | span s => exact .const _
  | dictionary he =>
    have hrows := Each.map (T := fun p => Same (fun i => (p i).1) ∧ T.Values fun i => (p i).2) he
      (fun i e => (key i e.1, e.2)) fun _ hp => ⟨hkey _ hp.1, hp.2⟩
    have hsorted := hrows.mergeSort (fun a b => decide (a.1 ≤ b.1)) fun a b ha hb =>
      ha.1.map₂ hb.1 fun s t => decide (s ≤ t)
    have htexts := (Each.map (T := Same) hsorted (fun i e => e.1 ++ ": " ++ item i e.2)
      fun p hp => hp.1.map₂ (hitem _ hp.2) fun s t => s ++ ": " ++ t).same
    exact htexts.map fun texts => "\x7b" ++ Heap.commaSeparated texts ++ "\x7d"
  | function hf =>
    cases hf with
    | mk hn _ _ => exact (hT.nameText hn "?").map fun name => "<fn " ++ name ++ ">"
  | native n => exact .const _
  | classObject hn => exact hT.nameText hn "?"
  | instanceOf hc _ => exact (hT.className hc).map fun name => name ++ " instance"
  | boundMethod _ hm => exact hm.elim (fun hm => hitem _ (.object hm)) fun hm => hitem _ (.object hm)
  | module hn _ => exact (hT.nameText hn "?").map fun name => "<module " ++ name ++ ">"
  | fiber _ => exact .const _
  | userData _ => exact .const _

theorem Heaps.displayBelow (hT : T.Heaps h) {key : ι → Handle → Value → String}
    (hkey : ∀ k r v, T.handles k r → T.Values v → Same fun i => key i (r i) (v i)) (room : Nat)
    (hv : T.Values v) : Same fun i => (h i).displayBelow (key i) room (v i) := by
  induction room generalizing v with
  | zero => exact hT.displayScalar (fun _ _ _ _ _ => .const _) hv
  | succ room ih =>
    refine hT.displayScalar (fun k r o hr ho => ?_) hv
    cases ho with
    | mk _ hb => exact hT.displayBody hb (fun v hv => hkey k r v hr hv) fun v hv => ih hv

theorem Heaps.displayNested (hT : T.Heaps h) {path : ι → List Handle}
    (hpath : Each T.Handled path) (hv : T.Values v) :
    Same fun i => (h i).displayNested (path i) (v i) := by
  -- The dictionaries that one of the heaps has left bound how often a key is taken up.
  generalize hn : ((h default).handles.filter (· ∉ path default)).length = n
  induction n using Nat.strongRecOn generalizing path v with
  | ind n ih =>
    have hunfold : ∀ i, (h i).displayNested (path i) = (h i).displayBelow (fun r key =>
        if _ : (h i).isLive r ∧ r ∉ path i then (h i).displayNested (r :: path i) key else "...")
        Heap.displayDepth := fun i => by rw [Heap.displayNested]
    simp only [hunfold]
    refine hT.displayBelow (fun k r v hr hv => ?_) _ hv
    rcases Each.mem hT.apart_handled hpath ⟨k, hr⟩ with hmem | hmem
    · exact ⟨"...", fun i => dif_neg fun hl => hl.2 (hmem i)⟩
    · simp only [hT.isLive hr, hmem, not_false_eq_true, and_self, ↓reduceDIte]
      refine ih _ (hn ▸ ?_) (.cons ⟨k, hr⟩ hpath) hv rfl
      refine Heap.length_filter_lt (fun s hs => ?_)
        (Heap.mem_handles_of_isLive (hT.isLive hr default)) ?_ ?_
      · simp only [List.mem_cons, not_or, decide_eq_true_eq] at hs
        simpa using hs.2
      · simpa using hmem default
      · simp

theorem Heaps.display (hT : T.Heaps h) (hv : T.Values v) : Same fun i => (h i).display (v i) :=
  hT.displayNested .nil hv

end

/-! ## Equality of values -/

open Heap (words)

theorem words_eq_iff {a b c d : Value} : words a b = words c d ↔ a = c ∧ b = d := by
  obtain ⟨a⟩ := a
  obtain ⟨b⟩ := b
  obtain ⟨c⟩ := c
  obtain ⟨d⟩ := d
  simp [words]

theorem Heaps.same_insert (hT : T.Heaps h) {seen : ι → Std.HashSet Heap.Pair}
    (hseen : ∀ a b, T.Values a → T.Values b → Same fun i => (seen i).contains (words (a i) (b i)))
    (hv : T.Values v) (hw : T.Values w) {a b : ι → Value} (ha : T.Values a) (hb : T.Values b) :
    Same fun i => ((seen i).insert (words (v i) (w i))).contains (words (a i) (b i)) := by
  simp only [Std.HashSet.contains_insert, beq_eq_decide, words_eq_iff]
  rcases hv.eq_or_ne hT ha with hva | hva
  · rcases hw.eq_or_ne hT hb with hwb | hwb
    · exact ⟨true, fun i => by simp [hva i, hwb i]⟩
    · simpa [hwb] using hseen a b ha hb
  · simpa [hva] using hseen a b ha hb

variable [Inhabited ι]

/-- All searches take the same pairs up in the same order. -/
theorem Heaps.equalAll (hT : T.Heaps h) {pending : ι → List (Value × Value)}
    (hpending : Each (fun p => T.Values (fun i => (p i).1) ∧ T.Values fun i => (p i).2) pending)
    {seen : ι → Std.HashSet Heap.Pair}
    (hseen : ∀ a b, T.Values a → T.Values b →
      Same fun i => (seen i).contains (words (a i) (b i))) :
    Same fun i => (h i).equalAll (pending i) (seen i) := by
  rcases hpending.cases with hnil | ⟨p, rest, ⟨ha, hb⟩, hrest, hcons⟩
  · simp only [hnil, Heap.equalAll]
    exact .const true
  · have hunfold := fun i => (congrArg (fun l => (h i).equalAll l (seen i)) (hcons i)).trans
      (Heap.equalAll_cons (h i) (p i).1 (p i).2 (rest i) (seen i))
    have hlength : (rest default).length < (pending default).length := by
      rw [hcons]
      exact Nat.lt_succ_self _
    obtain ⟨handles, hhandles⟩ := ha.isHandle
    obtain ⟨handles', hhandles'⟩ := hb.isHandle
    obtain ⟨known, hknown⟩ := hseen _ _ ha hb
    simp only [hunfold, hhandles, hhandles', hknown]
    rcases ha.eq_or_ne hT hb with he | he
    · simp only [he, ↓reduceIte]
      exact hT.equalAll hrest hseen
    · simp only [he, ↓reduceIte]
      cases handles && handles' with
      | false => exact .const false
      | true =>
        cases known with
        | true => exact hT.equalAll hrest hseen
        | false =>
          rcases (hT.arrayOf? ha).cases with hxs | ⟨xs, hxs, hx⟩
          · simp only [hxs]
            exact .const false
          · rcases (hT.arrayOf? hb).cases with hys | ⟨ys, hys, hy⟩
            · simp only [hx, hys]
              exact .const false
            · obtain ⟨n, hn⟩ := Each.length hxs
              obtain ⟨m, hm⟩ := Each.length hys
              simp only [Array.length_toList] at hn hm
              have hdecrease := Heap.unseen_insert_lt (by simpa using hknown default) (hx default)
                (hy default)
              simp only [hx, hy, hn, hm]
              by_cases hnm : n = m
              · simp only [hnm, ↓reduceIte]
                exact hT.equalAll (Each.append (Each.zip hxs hys) hrest) fun _ _ ha' hb' =>
                  hT.same_insert hseen ha hb ha' hb'
              · simp only [hnm, ↓reduceIte]
                exact .const false
termination_by ((h default).unseen (seen default), (pending default).length)

theorem Heaps.equal (hT : T.Heaps h) (hv : T.Values v) (hw : T.Values w) :
    Same fun i => (h i).equal (v i) (w i) := by
  obtain ⟨handles, hhandles⟩ := hv.isHandle
  obtain ⟨handles', hhandles'⟩ := hw.isHandle
  have hall : Same fun i => (h i).equalAll [(v i, w i)] ∅ := by
    refine hT.equalAll (.singleton ⟨hv, hw⟩) fun a b _ _ => ?_
    simp only [Std.HashSet.contains_empty]
    exact .const false
  simp only [Heap.equal, hhandles, hhandles']
  rcases hv.eq_or_ne hT hw with he | he
  · simp only [he, ↓reduceIte]
    exact .const true
  · simp only [he, ↓reduceIte]
    cases handles && handles' with
    | false => exact .const false
    | true => exact hall

end Ties
end FiberMachine
