import FiberMachine.Native.Run
import FiberMachine.Proofs.Ties.Containers

/-!
# Built-in functions side by side

The functions of containers, of JSON and of numbers look at nothing that differs
between tied heaps.
-/

namespace FiberMachine

variable {ι : Type} {T : Ties ι} {h : ι → Heap} {k : Kind} {r : ι → Handle} {v w : ι → Value}

open Ties

/-! ## Arguments -/

/-- Calls of one function with tied arguments. -/
def Ties.Calls (T : Ties ι) (c : ι → NativeCall) : Prop :=
  ∃ name args, Each T.Values args ∧ ∀ i, c i = ⟨name, args i⟩

namespace NativeCall

variable {c : ι → NativeCall}

theorem settled_value (hc : T.Calls c) (n : Nat) : Settled T.Values fun i => (c i).value n := by
  obtain ⟨name, args, hargs, hc⟩ := hc
  obtain ⟨size, hsize⟩ := hargs.length
  simp only [hc, value, hsize]
  rcases (hargs.getElem? n).cases with hnone | ⟨v, hv, hsome⟩
  · simp only [hnone]
    exact .error (by simp)
  · simp only [hsome]
    exact .ok hv

theorem same_mismatch (hT : T.Heaps h) (hc : T.Calls c) (expected : String) (hv : T.Values v) :
    ∃ e : Fault, e ≠ .dangling ∧ ∀ i, (c i).mismatch (h i) expected (v i) = e := by
  obtain ⟨name, args, -, hc⟩ := hc
  obtain ⟨found, hfound⟩ := hT.typeName hv
  exact ⟨.typeMismatch name expected found, nofun, fun i => by simp only [hc, mismatch, hfound]⟩

theorem agree_number (hT : T.Heaps h) (hc : T.Calls c) (n : Nat) :
    Agree h (fun i => (c i).number n) (Stays T Same) := by
  refine (agree_settled hT (settled_value hc n)).nextBy
    (fun _ _ => by split <;> infer_instance) fun v h₁ hT₁ hv => ?_
  obtain ⟨x, hx⟩ := hv.toFloat?
  simp only [hx]
  cases x with
  | none =>
    obtain ⟨e, he, hmismatch⟩ := same_mismatch hT₁ hc "number" hv
    refine agree_get ?_
    simp only [hmismatch]
    exact agree_throw hT₁ he
  | some x => exact agree_pure hT₁ ⟨rfl, .const x⟩

theorem agree_text (hT : T.Heaps h) (hc : T.Calls c) (n : Nat) :
    Agree h (fun i => (c i).text n) (Stays T Same) := by
  refine (agree_settled hT (settled_value hc n)).nextBy
    (fun _ _ => .andThen fun _ => by split <;> infer_instance) fun v h₁ hT₁ hv => ?_
  refine agree_get ?_
  obtain ⟨s, hs⟩ := Heaps.textOf? hT₁ hv
  simp only [hs]
  cases s with
  | none =>
    obtain ⟨e, he, hmismatch⟩ := same_mismatch hT₁ hc "string" hv
    simp only [hmismatch]
    exact agree_throw hT₁ he
  | some s => exact agree_pure hT₁ ⟨rfl, .const s⟩

theorem agree_object (hT : T.Heaps h) (hc : T.Calls c) (n : Nat) (kind : Kind) :
    Agree h (fun i => (c i).object n kind) (Stays T (T.handles kind)) := by
  refine (agree_settled hT (settled_value hc n)).nextBy
    (fun _ _ => .andThen fun _ => by split <;> infer_instance) fun v h₁ hT₁ hv => ?_
  obtain ⟨e, he, hmismatch⟩ := same_mismatch hT₁ hc kind.name hv
  refine agree_get ?_
  simp only [hmismatch]
  rcases hv.handle with hs | ⟨k, r, hr, hv'⟩
  · simp only [hs]
    exact agree_throw hT₁ he
  · simp only [hv']
    refine (agree_settled hT₁ (Heaps.get hT₁ hr)).next fun o h₂ hT₂ ho => ?_
    simp only [ho.kind]
    by_cases hk : k = kind
    · subst hk
      simp only [↓reduceIte]
      exact agree_pure hT₂ ⟨rfl, hr⟩
    · simp only [hk, ↓reduceIte]
      exact agree_throw hT₂ he

end NativeCall

/-! ## Containers -/

/-- The post-condition of what yields a value. -/
abbrev Ties.Yields {σ : Type} (T : Ties ι) : Post ι σ Value := Grown T fun T' v => T'.Values v

theorem agree_yield {σ : Type} [Store σ] {s : ι → σ} (hs : Store.Tied T s) (hv : T.Values v) :
    Agree s (fun i => pure (v i)) T.Yields := agree_pure hs ⟨.refl T, hv⟩

theorem Span.valuesFrom_ne_dangling (s : Span) (room : Nat) (cursor : Float) (seen : Array Float) :
    s.valuesFrom room cursor seen ≠ .error .dangling := by
  induction room generalizing cursor seen with
  | zero =>
    simp only [valuesFrom]
    split <;> simp [tooLong]
  | succ room ih =>
    simp only [valuesFrom]
    split
    · cases hn : s.advance cursor with
      | error fault =>
        intro he
        cases he
        exact s.advance_ne_dangling cursor hn
      | ok next => exact ih next _
    · simp

theorem Span.values_ne_dangling (s : Span) : s.values ≠ .error .dangling := by
  simp only [values]
  split
  · rename_i fault hlength
    simp only [length] at hlength
    split at hlength
    · cases hlength
    · split at hlength
      · cases hlength
      · split at hlength
        · cases hlength
          simp [tooLong]
        · cases hlength
  · simp
  · exact s.valuesFrom_ne_dangling _ _ _

namespace NativeCall

variable {c : ι → NativeCall}

theorem agree_arrayLength (hT : T.Heaps h) (hc : T.Calls c) :
    Agree h (fun i => (c i).arrayLength) T.Yields := by
  refine (agree_object hT hc 0 .array).next fun r h₁ (hT₁ : T.Heaps h₁) hr => ?_
  refine agree_get ((agree_settled hT₁ (hT₁.array hr)).next fun items h₂ hT₂ hi => ?_)
  obtain ⟨n, hn⟩ := hi.size
  simp only [hn]
  exact agree_yield hT₂ (values_ofFloat _)

theorem agree_arrayAppend (hT : T.Heaps h) (hc : T.Calls c) :
    Agree h (fun i => (c i).arrayAppend) T.Yields := by
  refine (agree_object hT hc 0 .array).next fun r h₁ hT₁ hr => ?_
  refine (agree_settled hT₁ (settled_value hc 1)).next fun v h₂ hT₂ hv => ?_
  exact (agree_pushItem hT₂ hr hv).next fun _ h₃ hT₃ _ => agree_yield hT₃ values_nil

theorem agree_arrayPop (hT : T.Heaps h) (hc : T.Calls c) :
    Agree h (fun i => (c i).arrayPop) T.Yields := by
  refine (agree_object hT hc 0 .array).next fun r h₁ (hT₁ : T.Heaps h₁) hr => ?_
  refine agree_get ((agree_settled hT₁ (hT₁.array hr)).next fun items h₂ hT₂ hi => ?_)
  refine (agree_change hT₂ hr nofun nofun fun o ho =>
    objects_changeArray (fun _ items => items.pop) (fun _ hi => hi.pop) ho).next
      fun _ h₃ hT₃ _ => ?_
  have hlast : Maybe T.Values fun i => (items i).back? := by
    obtain ⟨n, hn⟩ := hi.size
    simp only [Array.back?, hn]
    exact hi.getElem? (n - 1)
  exact agree_yield hT₃ (hlast.getD values_nil)

theorem agree_spanExpand (hT : T.Heaps h) (hc : T.Calls c) :
    Agree h (fun i => (c i).spanExpand) T.Yields := by
  refine (agree_object hT hc 0 .span).next fun r h₁ (hT₁ : T.Heaps h₁) hr => ?_
  refine agree_get ((agree_settled hT₁ (hT₁.span hr)).next fun s h₂ hT₂ hs => ?_)
  obtain ⟨s, hs⟩ := hs
  simp only [hs]
  refine (agree_settled hT₂ (.of_same s.values_ne_dangling)).next fun xs h₃ hT₃ hxs => ?_
  obtain ⟨xs, hxs⟩ := hxs
  simp only [hxs]
  have hvalues : T.Arrays fun _ => xs.map .ofFloat := by
    refine .const fun v hv => ?_
    obtain ⟨x, -, rfl⟩ : ∃ x ∈ xs, Value.ofFloat x = v := by simpa using hv
    exact values_ofFloat x
  refine (agree_alloc hT₃ hvalues.body nofun).grow fun T' r h₄ _ hT₄ hr => ?_
  exact agree_yield hT₄ (.object hr)

theorem agree_spanStep (hT : T.Heaps h) (hc : T.Calls c) :
    Agree h (fun i => (c i).spanStep) T.Yields := by
  refine (agree_object hT hc 0 .span).nextBy
    (fun _ _ => .andThen fun _ => by dsimp only; infer_instance) fun r h₁ hT₁ hr => ?_
  refine (agree_number hT₁ hc 1).next fun step h₂ (hT₂ : T.Heaps h₂) hstep => ?_
  obtain ⟨step, hstep⟩ := hstep
  simp only [hstep]
  have hrest : Agree h₂ (fun i => get >>= fun h => liftM (h.span (r i)) >>= fun s => do
      return .ofHandle (← Heap.run (·.alloc (.span { s with step })))) T.Yields := by
    refine agree_get ((agree_settled hT₂ (hT₂.span hr)).next fun s h₃ hT₃ hs => ?_)
    obtain ⟨s, hs⟩ := hs
    simp only [hs]
    refine (agree_alloc hT₃ (.span _) nofun).grow fun T' r h₄ _ hT₄ hr => ?_
    exact agree_yield hT₄ (.object hr)
  split
  · exact agree_throw hT₂ nofun
  · exact hrest

theorem agree_dictPut (hT : T.Heaps h) (hc : T.Calls c) :
    Agree h (fun i => (c i).dictPut) T.Yields := by
  refine (agree_object hT hc 0 .dictionary).next fun r h₁ hT₁ hr => ?_
  refine (agree_settled hT₁ (settled_value hc 1)).next fun key h₂ hT₂ hk => ?_
  refine (agree_settled hT₂ (settled_value hc 2)).next fun v h₃ (hT₃ : T.Heaps h₃) hv => ?_
  refine (agree_change hT₃ hr nofun nofun fun o ho => objects_changeDictionary
    (fun i entries => entries.insert (key i) (v i))
    (fun _ he => he.insert hT₃.apart_values hk hv) ho).next fun _ h₄ hT₄ _ => ?_
  exact agree_yield hT₄ values_nil

theorem agree_dictGet [Inhabited ι] (hT : T.Heaps h) (hc : T.Calls c) :
    Agree h (fun i => (c i).dictGet) T.Yields := by
  refine (agree_object hT hc 0 .dictionary).nextBy (fun _ _ => .parts) fun r h₁ hT₁ hr => ?_
  refine (agree_settled hT₁ (settled_value hc 1)).nextBy (fun _ _ => .parts)
    fun key h₂ (hT₂ : T.Heaps h₂) hk => ?_
  refine agree_get ((agree_settled hT₂ (hT₂.dictionary hr)).nextBy
    (fun _ _ => .parts) fun entries h₃ (hT₃ : T.Heaps h₃) he => ?_)
  rcases (he.find? hT₃.apart_values hk).cases with hnone | ⟨v, hv, hsome⟩
  · obtain ⟨text, htext⟩ := hT₂.display hk
    simp only [hnone, htext]
    exact agree_throw hT₃ (by simp)
  · simp only [hsome]
    exact agree_yield hT₃ hv

theorem agree_dictHas (hT : T.Heaps h) (hc : T.Calls c) :
    Agree h (fun i => (c i).dictHas) T.Yields := by
  refine (agree_object hT hc 0 .dictionary).next fun r h₁ hT₁ hr => ?_
  refine (agree_settled hT₁ (settled_value hc 1)).next fun key h₂ (hT₂ : T.Heaps h₂) hk => ?_
  refine agree_get ((agree_settled hT₂ (hT₂.dictionary hr)).next
    fun entries h₃ (hT₃ : T.Heaps h₃) he => ?_)
  obtain ⟨found, hfound⟩ := he.contains hT₃.apart_values hk
  simp only [hfound]
  exact agree_yield hT₃ (values_ofBool found)

theorem agree_dictRemove (hT : T.Heaps h) (hc : T.Calls c) :
    Agree h (fun i => (c i).dictRemove) T.Yields := by
  refine (agree_object hT hc 0 .dictionary).next fun r h₁ hT₁ hr => ?_
  refine (agree_settled hT₁ (settled_value hc 1)).next fun key h₂ (hT₂ : T.Heaps h₂) hk => ?_
  refine agree_get ((agree_settled hT₂ (hT₂.dictionary hr)).next
    fun entries h₃ (hT₃ : T.Heaps h₃) he => ?_)
  refine (agree_change hT₃ hr nofun nofun fun o ho => objects_changeDictionary
    (fun i entries => entries.erase (key i))
    (fun _ he => he.erase hT₃.apart_values hk) ho).next fun _ h₄ hT₄ _ => ?_
  exact agree_yield hT₄ ((he.find? hT₃.apart_values hk).getD values_nil)

theorem agree_dictSize (hT : T.Heaps h) (hc : T.Calls c) :
    Agree h (fun i => (c i).dictSize) T.Yields := by
  refine (agree_object hT hc 0 .dictionary).next fun r h₁ (hT₁ : T.Heaps h₁) hr => ?_
  refine agree_get ((agree_settled hT₁ (hT₁.dictionary hr)).next fun entries h₂ hT₂ he => ?_)
  obtain ⟨n, hn⟩ := he.size
  simp only [hn]
  exact agree_yield hT₂ (values_ofFloat _)

theorem agree_dictKeys [Inhabited ι] (hT : T.Heaps h) (hc : T.Calls c) :
    Agree h (fun i => (c i).dictKeys) T.Yields := by
  refine (agree_object hT hc 0 .dictionary).next fun r h₁ (hT₁ : T.Heaps h₁) hr => ?_
  refine agree_get ((agree_settled hT₁ (hT₁.dictionary hr)).next fun entries h₂ hT₂ he => ?_)
  have hrows := Each.map (T := fun p => Same (fun i => (p i).1) ∧ T.Values fun i => (p i).2) he.keys
    (fun i key => ((h₁ i).display key, key)) fun _ hk => ⟨hT₁.display hk, hk⟩
  have hsorted := hrows.mergeSort (fun a b => decide (a.1 ≤ b.1)) fun a b ha hb =>
    ha.1.map₂ hb.1 fun s t => decide (s ≤ t)
  have hkeys := Each.map (T := T.Values) hsorted (fun _ p => p.2) fun _ hp => hp.2
  refine (agree_alloc hT₂ (.array hkeys) nofun).grow fun T' r h₃ _ hT₃ hr => ?_
  exact agree_yield hT₃ (.object hr)

theorem agree_textLength (hT : T.Heaps h) (hc : T.Calls c) :
    Agree h (fun i => (c i).textLength) T.Yields := by
  refine (agree_object hT hc 0 .text).next fun r h₁ (hT₁ : T.Heaps h₁) hr => ?_
  refine agree_get ((agree_settled hT₁ (hT₁.text hr)).next fun s h₂ hT₂ hs => ?_)
  obtain ⟨s, hs⟩ := hs
  simp only [hs]
  exact agree_yield hT₂ (values_ofFloat _)

end NativeCall

end FiberMachine
