import FiberMachine.Arithmetic
import FiberMachine.Proofs.Ties.Agreement

/-!
# Reading side by side

Numbers in tied values are the same for all heaps, and so is all arithmetic. Reading
through tied handles gives tied objects, and what a fault says about them is the same.
-/

namespace FiberMachine

variable {ι : Type}

namespace Ties

variable {T : Ties ι} {h : ι → Heap} {k : Kind} {r : ι → Handle} {v w : ι → Value}

/-! ## Values -/

theorem values_ofFloat (x : Float) : T.Values fun _ => .ofFloat x :=
  .scalar (Value.toHandle?_ofFloat x)

theorem values_ofBool (b : Bool) : T.Values fun _ => .ofBool b :=
  .scalar (Value.toHandle?_ofBool b)

theorem values_nil : T.Values fun _ => .nil := .scalar Value.toHandle?_nil

theorem Values.toFloat? (hv : T.Values v) : Same fun i => (v i).toFloat? := by
  cases hv with
  | scalar _ => exact .const _
  | object _ => exact ⟨none, fun i => Value.toFloat?_ofHandle _⟩

theorem Values.toBool? (hv : T.Values v) : Same fun i => (v i).toBool? := by
  cases hv with
  | scalar _ => exact .const _
  | object _ => exact ⟨none, fun i => Value.toBool?_ofHandle _⟩

theorem Values.isFalsey (hv : T.Values v) : Same fun i => (v i).isFalsey := by
  cases hv with
  | scalar _ => exact .const _
  | object _ => exact ⟨false, fun i => Value.isFalsey_ofHandle _⟩

theorem Values.scalarKind (hv : T.Values v) : Same fun i => (v i).scalarKind := by
  cases hv with
  | scalar _ => exact .const _
  | object _ => exact ⟨"object", fun i => Value.scalarKind_ofHandle _⟩

theorem Values.isHandle (hv : T.Values v) : Same fun i => (v i).isHandle := by
  cases hv with
  | scalar _ => exact .const _
  | object _ => exact ⟨true, fun i => Value.isHandle_ofHandle _⟩

/-- Either no member is a handle, or all of them are tied ones. -/
theorem Values.handle (hv : T.Values v) :
    (∀ i, (v i).toHandle? = none) ∨
      ∃ k r, T.handles k r ∧ ∀ i, (v i).toHandle? = some (r i) := by
  cases hv with
  | scalar hs => exact Or.inl fun _ => hs
  | object hr => exact Or.inr ⟨_, _, hr, fun i => Value.toHandle?_ofHandle _⟩

theorem Values.eq_or_ne (hT : T.Heaps h) (hv : T.Values v) (hw : T.Values w) :
    (∀ i, v i = w i) ∨ ∀ i, v i ≠ w i := by
  by_cases he : v = w
  · exact Or.inl (congrFun he)
  · exact Or.inr fun i hi => he (hT.apart_values _ _ hv hw i hi)

/-- Handles that are tied, whatever they are handles of. -/
def Handled (T : Ties ι) (r : ι → Handle) : Prop := ∃ k, T.handles k r

theorem Values.toHandle? (hv : T.Values v) : Maybe T.Handled fun i => (v i).toHandle? := by
  rcases hv.handle with hs | ⟨k, r, hr, hv⟩
  · simp only [hs]
    exact .none
  · simp only [hv]
    exact .some ⟨k, hr⟩

theorem Heaps.apart_handled (hT : T.Heaps h) : Apart T.Handled := by
  intro r s ⟨k, hr⟩ ⟨l, hs⟩ i hi
  exact (hT.apart hr hs i hi).2

/-! ## Arithmetic -/

theorem settled_bothNumbers (hv : T.Values v) (hw : T.Values w) (operation : String) :
    Settled Same fun i => Value.bothNumbers operation (v i) (w i) := by
  obtain ⟨x, hx⟩ := hv.toFloat?
  obtain ⟨y, hy⟩ := hw.toFloat?
  obtain ⟨a, ha⟩ := hv.scalarKind
  obtain ⟨b, hb⟩ := hw.scalarKind
  simp only [Value.bothNumbers, hx, hy, ha, hb]
  cases x with
  | none => exact .error (by simp)
  | some x =>
    cases y with
    | none => exact .error (by simp)
    | some y => exact .ok (.const (x, y))

theorem settled_combine (hv : T.Values v) (hw : T.Values w) (operation : String)
    (f : Float → Float → Float) :
    Settled T.Values fun i => Value.combine operation f (v i) (w i) := by
  rcases settled_bothNumbers hv hw operation with ⟨p, ⟨q, hq⟩, hok⟩ | ⟨fault, hfault, herr⟩
  · simp only [Value.combine, hok, hq]
    exact .ok (values_ofFloat _)
  · simp only [Value.combine, herr]
    exact .error hfault

theorem settled_compare (hv : T.Values v) (hw : T.Values w) (f : Float → Float → Bool) :
    Settled T.Values fun i => Value.compare f (v i) (w i) := by
  rcases settled_bothNumbers hv hw "comparison" with ⟨p, ⟨q, hq⟩, hok⟩ | ⟨fault, hfault, herr⟩
  · simp only [Value.compare, hok, hq]
    exact .ok (values_ofBool _)
  · simp only [Value.compare, herr]
    exact .error hfault

theorem settled_change (hv : T.Values v) (operation : String) (f : Float → Float) :
    Settled T.Values fun i => Value.change operation f (v i) := by
  obtain ⟨x, hx⟩ := hv.toFloat?
  obtain ⟨a, ha⟩ := hv.scalarKind
  simp only [Value.change, hx, ha]
  cases x with
  | none => exact .error (by simp)
  | some x => exact .ok (values_ofFloat _)

/-! ## Reading -/

theorem Bodies.kindName {b : ι → Body} (hb : T.Bodies k b) : Same fun i => (b i).kind.name :=
  ⟨k.name, fun i => congrArg Kind.name (hb.kind i)⟩

theorem Heaps.get (hT : T.Heaps h) (hr : T.handles k r) :
    Settled (T.Objects k) fun i => (h i).get (r i) := by
  obtain ⟨o, ho, hget⟩ := hT.object hr
  simp only [Heap.get, hget]
  exact .ok ho

theorem Heaps.kindOf?_handle (hT : T.Heaps h) (hr : T.handles k r)
    (hv : ∀ i, (v i).toHandle? = some (r i)) (i : ι) : (h i).kindOf? (v i) = some k := by
  obtain ⟨o, ho, hget⟩ := hT.object hr
  simp only [Heap.kindOf?, hv, Option.bind_some, hget, Option.map_some, ho.kind]

theorem Heaps.kindOf? (hT : T.Heaps h) (hv : T.Values v) :
    Same fun i => (h i).kindOf? (v i) := by
  rcases hv.handle with hs | ⟨k, r, hr, hv⟩
  · simp only [Heap.kindOf?, hs]
    exact .const none
  · exact ⟨_, hT.kindOf?_handle hr hv⟩

theorem Heaps.typeName (hT : T.Heaps h) (hv : T.Values v) : Same fun i => (h i).typeName (v i) := by
  obtain ⟨kind, hkind⟩ := hT.kindOf? hv
  obtain ⟨name, hname⟩ := hv.scalarKind
  simp only [Heap.typeName, hkind, hname]
  exact .const _

theorem Heaps.text (hT : T.Heaps h) (hr : T.handles k r) :
    Settled Same fun i => (h i).text (r i) := by
  obtain ⟨o, ho, hget⟩ := hT.object hr
  cases ho with
  | mk _ hb =>
    have hn := hb.kindName
    simp only [Heap.text, Heap.get, hget]
    cases hb with
    | text s => exact .ok (.const s)
    | _ => exact .mismatch hn

theorem Heaps.nameText (hT : T.Heaps h) (hr : T.handles k r) (unknown : String) :
    Same fun i => (h i).nameText (r i) unknown := by
  rcases hT.text hr with ⟨s, hs, hok⟩ | ⟨fault, -, herr⟩
  · simp only [Heap.nameText, hok]
    exact hs
  · simp only [Heap.nameText, herr]
    exact .const unknown

theorem Heaps.textOf? (hT : T.Heaps h) (hv : T.Values v) : Same fun i => (h i).textOf? (v i) := by
  rcases hv.handle with hs | ⟨k, r, hr, hv⟩
  · simp only [Heap.textOf?, hs]
    exact .const none
  · simp only [Heap.textOf?, hv]
    rcases hT.text hr with ⟨s, hs, hok⟩ | ⟨fault, -, herr⟩
    · simp only [hok]
      exact hs.map some
    · simp only [herr]
      exact .const none

def Arrays (T : Ties ι) (items : ι → Array Value) : Prop :=
  Each T.Values fun i => (items i).toList

theorem Arrays.body {items : ι → Array Value} (hi : T.Arrays items) :
    T.Bodies .array fun i => .array (items i) := by
  simpa only [Array.toArray_toList] using Bodies.array hi

theorem Heaps.array (hT : T.Heaps h) (hr : T.handles k r) :
    Settled T.Arrays fun i => (h i).array (r i) := by
  obtain ⟨o, ho, hget⟩ := hT.object hr
  cases ho with
  | mk _ hb =>
    have hn := hb.kindName
    simp only [Heap.array, Heap.get, hget]
    cases hb with
    | array hi => exact .ok hi
    | _ => exact .mismatch hn

theorem Heaps.arrayOf? (hT : T.Heaps h) (hv : T.Values v) :
    Maybe T.Arrays fun i => (h i).arrayOf? (v i) := by
  rcases hv.handle with hs | ⟨k, r, hr, hv⟩
  · simp only [Heap.arrayOf?, hs]
    exact .none
  · simp only [Heap.arrayOf?, hv]
    rcases hT.array hr with ⟨items, hitems, hok⟩ | ⟨fault, -, herr⟩
    · simp only [hok]
      exact .some hitems
    · simp only [herr]
      exact .none

theorem Heaps.span (hT : T.Heaps h) (hr : T.handles k r) :
    Settled Same fun i => (h i).span (r i) := by
  obtain ⟨o, ho, hget⟩ := hT.object hr
  cases ho with
  | mk _ hb =>
    have hn := hb.kindName
    simp only [Heap.span, Heap.get, hget]
    cases hb with
    | span s => exact .ok (.const s)
    | _ => exact .mismatch hn

theorem Heaps.dictionary (hT : T.Heaps h) (hr : T.handles k r) :
    Settled (Rows T.Values T.Values) fun i => (h i).dictionary (r i) := by
  obtain ⟨o, ho, hget⟩ := hT.object hr
  cases ho with
  | mk _ hb =>
    have hn := hb.kindName
    simp only [Heap.dictionary, Heap.get, hget]
    cases hb with
    | dictionary he => exact .ok he
    | _ => exact .mismatch hn

/-- A function is tied along with its code. -/
theorem Heaps.function (hT : T.Heaps h) (hr : T.handles k r) :
    Settled (fun f => k = .function ∧ T.Functions f ∧ T.chunks r fun i => (f i).chunk)
      fun i => (h i).function (r i) := by
  obtain ⟨o, ho, hget⟩ := hT.object hr
  cases ho with
  | mk _ hb =>
    have hn := hb.kindName
    simp only [Heap.function, Heap.get, hget]
    cases hb with
    | function hf =>
      refine .ok ⟨rfl, hf, (hT.chunk _ _).mpr ⟨hr, fun i => ?_⟩⟩
      simp only [Heap.chunk?, hget, Option.bind_some, Body.chunk?]
    | _ => exact .mismatch hn

theorem Heaps.module (hT : T.Heaps h) (hr : T.handles k r) :
    Settled (fun m => T.handles .text (fun i => (m i).1) ∧ Maybe (T.handles .module) fun i => (m i).2)
      fun i => (h i).module (r i) := by
  obtain ⟨o, ho, hget⟩ := hT.object hr
  cases ho with
  | mk _ hb =>
    have hn := hb.kindName
    simp only [Heap.module, Heap.get, hget]
    cases hb with
    | module hname hc => exact Or.inl ⟨fun i => (_, _), ⟨hname, hc⟩, fun _ => rfl⟩
    | _ => exact .mismatch hn

end Ties
end FiberMachine
