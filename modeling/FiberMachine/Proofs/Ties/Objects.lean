import FiberMachine.Object.Basic
import FiberMachine.Proofs.Ties.Families

/-!
# Objects side by side

Several heaps hold the same objects under handles of their own. Ties say which handles
name one object in all of them, and of which kind it is; everything that is built from
handles is tied when the handles in it are and all else is the same. Where an object
has to be of a certain kind, the ties ask for that kind. The code of a frame is tied to
its function, since the handles among its constants are kept alive by the function only.
-/

namespace FiberMachine

variable {ι : Type}

structure Ties (ι : Type) where
  handles : Kind → (ι → Handle) → Prop
  chunks : (ι → Handle) → (ι → Chunk) → Prop

namespace Ties

variable (T : Ties ι)

inductive Values : (ι → Value) → Prop
  | scalar {v : Value} : v.toHandle? = none → Values fun _ => v
  | object {k : Kind} {r : ι → Handle} : T.handles k r → Values fun i => .ofHandle (r i)

def Fields (t : ι → Members) : Prop := Rows (T.handles .text) T.Values t

inductive Stacks : (ι → OperandStack) → Prop
  | mk {values : ι → List Value} {limit : Nat} : Each T.Values values →
      Stacks fun i => ⟨(values i).toArray, limit⟩

inductive Frames : (ι → Frame) → Prop
  | mk {function : ι → Handle} {chunk : ι → Chunk} {ip base : Nat} {scope : ι → Option Handle}
      {constructs : Bool} : T.handles .function function → T.chunks function chunk →
      Maybe (T.handles .module) scope →
      Frames fun i => ⟨function i, chunk i, ip, base, scope i, constructs⟩

inductive Fibers : (ι → Fiber) → Prop
  | mk {stack : ι → OperandStack} {frames : ι → List Frame} {caller module : ι → Option Handle}
      {kind : FiberKind} {state : FiberState} : T.Stacks stack → Each T.Frames frames →
      Maybe (T.handles .fiber) caller → Maybe (T.handles .module) module →
      Fibers fun i => ⟨stack i, frames i, caller i, kind, state, module i⟩

inductive Functions : (ι → Function) → Prop
  | mk {name : ι → Handle} {arity : UInt8} {isAsync : Bool} {code : Array UInt8}
      {constants : ι → List Value} {lines : Array UInt32} {module : ι → Option Handle} :
      T.handles .text name → Each T.Values constants → Maybe (T.handles .module) module →
      Functions fun i => ⟨name i, arity, isAsync, ⟨code, (constants i).toArray, lines⟩, module i⟩

inductive Bodies : Kind → (ι → Body) → Prop
  | text (s : String) : Bodies .text fun _ => .text s
  | array {items : ι → List Value} : Each T.Values items →
      Bodies .array fun i => .array (items i).toArray
  | span (s : Span) : Bodies .span fun _ => .span s
  | dictionary {entries : ι → Table Value Value} : Rows T.Values T.Values entries →
      Bodies .dictionary fun i => .dictionary (entries i)
  | function {f : ι → Function} : T.Functions f → Bodies .function fun i => .function (f i)
  | native (n : Native) : Bodies .native fun _ => .native n
  | classObject {name : ι → Handle} : T.handles .text name →
      Bodies .classObject fun i => .classObject (name i)
  | instanceOf {cls : ι → Handle} {fields : ι → Members} : T.handles .classObject cls →
      T.Fields fields → Bodies .instanceOf fun i => .instanceOf (cls i) (fields i)
  | boundMethod {receiver : ι → Value} {method : ι → Handle} : T.Values receiver →
      T.handles .function method ∨ T.handles .native method →
      Bodies .boundMethod fun i => .boundMethod (receiver i) (method i)
  | module {name : ι → Handle} {caller : ι → Option Handle} : T.handles .text name →
      Maybe (T.handles .module) caller → Bodies .module fun i => .module (name i) (caller i)
  | fiber {body : ι → Option Fiber} : Maybe T.Fibers body → Bodies .fiber fun i => .fiber (body i)
  | userData (data : UserData) : Bodies .userData fun _ => .userData data

inductive Objects (k : Kind) : (ι → Object) → Prop
  | mk {members : ι → Members} {body : ι → Body} : T.Fields members → T.Bodies k body →
      Objects k fun i => ⟨false, members i, body i⟩

variable {T}

theorem Bodies.kind {k : Kind} {b : ι → Body} (hb : T.Bodies k b) (i : ι) : (b i).kind = k := by
  cases hb <;> rfl

theorem Objects.kind {k : Kind} {o : ι → Object} (ho : T.Objects k o) (i : ι) :
    (o i).kind = k := by
  obtain ⟨-, hb⟩ := ho
  exact hb.kind i

theorem Objects.marked {k : Kind} {o : ι → Object} (ho : T.Objects k o) (i : ι) :
    (o i).marked = false := by
  cases ho
  rfl

theorem Objects.members {k : Kind} {o : ι → Object} (ho : T.Objects k o) :
    T.Fields fun i => (o i).members := by
  cases ho with
  | mk hm _ => exact hm

theorem Objects.body {k : Kind} {o : ι → Object} (ho : T.Objects k o) :
    T.Bodies k fun i => (o i).body := by
  cases ho with
  | mk _ hb => exact hb

theorem Functions.name {f : ι → Function} (hf : T.Functions f) :
    T.handles .text fun i => (f i).name := by
  cases hf with
  | mk hn _ _ => exact hn

theorem Functions.module {f : ι → Function} (hf : T.Functions f) :
    Maybe (T.handles .module) fun i => (f i).module := by
  cases hf with
  | mk _ _ hm => exact hm

theorem Functions.arity {f : ι → Function} (hf : T.Functions f) : Same fun i => (f i).arity := by
  cases hf
  exact .const _

theorem Functions.isAsync {f : ι → Function} (hf : T.Functions f) :
    Same fun i => (f i).isAsync := by
  cases hf
  exact .const _

/-! ## Ties that pass over -/

variable {T' : Ties ι}

/-- The ties between handles of some lists pass over to other ties. -/
structure Pass (T T' : Ties ι) (refs : ι → List Handle) : Prop where
  handles : ∀ k r, T.handles k r → (∀ i, r i ∈ refs i) → T'.handles k r
  chunks : ∀ r c, T.chunks r c → (∀ i, r i ∈ refs i) → T'.chunks r c

/-- More is tied than before. -/
structure Within (T T' : Ties ι) : Prop where
  handles : ∀ {k r}, T.handles k r → T'.handles k r
  chunks : ∀ {r c}, T.chunks r c → T'.chunks r c

theorem Within.refl (T : Ties ι) : Within T T := ⟨id, id⟩

theorem Within.trans {T'' : Ties ι} (h : Within T T') (h' : Within T' T'') : Within T T'' :=
  ⟨fun hr => h'.handles (h.handles hr), fun hc => h'.chunks (h.chunks hc)⟩

theorem Within.pass (h : Within T T') (refs : ι → List Handle) : Pass T T' refs :=
  ⟨fun _ _ hr _ => h.handles hr, fun _ _ hc _ => h.chunks hc⟩

theorem Pass.sub {refs refs' : ι → List Handle} (h : Pass T T' refs)
    (hsub : ∀ i, refs' i ⊆ refs i) : Pass T T' refs' :=
  ⟨fun k r hr hm => h.handles k r hr fun i => hsub i (hm i),
    fun r c hc hm => h.chunks r c hc fun i => hsub i (hm i)⟩

theorem Pass.handle {refs : ι → List Handle} (h : Pass T T' refs) {k : Kind} {r : ι → Handle}
    (hr : T.handles k r) (hm : ∀ i, r i ∈ refs i) : T'.handles k r := h.handles k r hr hm

theorem Pass.maybe {refs : ι → List Handle} (h : Pass T T' refs) {k : Kind}
    {r : ι → Option Handle} (hr : Maybe (T.handles k) r) (hm : ∀ i, (r i).toList ⊆ refs i) :
    Maybe (T'.handles k) r :=
  hr.imp fun a ha hk => h.handle hk fun i => hm i (by simp [ha i])

theorem Pass.each {refs : ι → List Handle} (h : Pass T T' refs) {k : Kind}
    {rs : ι → List Handle} (hr : Each (T.handles k) rs) (hm : ∀ i, rs i ⊆ refs i) :
    Each (T'.handles k) rs :=
  hr.imp fun _ ha hk => h.handle hk fun i => hm i (ha i)

theorem Values.pass {v : ι → Value} (hv : T.Values v)
    (h : Pass T T' fun i => (v i).toHandle?.toList) : T'.Values v := by
  cases hv with
  | scalar hs => exact .scalar hs
  | object hr => exact .object (h.handle hr fun i => by simp [Value.toHandle?_ofHandle])

theorem pass_values {vs : ι → List Value} (hvs : Each T.Values vs)
    (h : Pass T T' fun i => Body.valueHandles (vs i)) : Each T'.Values vs := by
  refine hvs.imp fun v hm hv => hv.pass (h.sub fun i r hr => ?_)
  exact List.mem_filterMap.mpr ⟨v i, hm i, Option.mem_toList.mp hr⟩

theorem Fields.pass {t : ι → Members} (ht : T.Fields t)
    (h : Pass T T' fun i => Body.memberHandles (t i)) : T'.Fields t := by
  refine Each.imp ht fun e hm he => ⟨h.handle he.1 fun i => ?_, he.2.pass (h.sub fun i r hr => ?_)⟩
  · exact List.mem_flatMap.mpr ⟨e i, hm i, List.mem_cons_self ..⟩
  · exact List.mem_flatMap.mpr ⟨e i, hm i, List.mem_cons_of_mem _ hr⟩

theorem pass_entries {t : ι → Table Value Value} (ht : Rows T.Values T.Values t)
    (h : Pass T T' fun i => (Body.dictionary (t i)).references) :
    Rows T'.Values T'.Values t := by
  refine Each.imp ht fun e hm he => ⟨he.1.pass (h.sub fun i r hr => ?_),
    he.2.pass (h.sub fun i r hr => ?_)⟩
  · refine List.mem_filterMap.mpr ⟨(e i).1, ?_, Option.mem_toList.mp hr⟩
    exact List.mem_flatMap.mpr ⟨e i, hm i, List.mem_cons_self ..⟩
  · refine List.mem_filterMap.mpr ⟨(e i).2, ?_, Option.mem_toList.mp hr⟩
    exact List.mem_flatMap.mpr ⟨e i, hm i, by simp⟩

theorem Stacks.pass {s : ι → OperandStack} (hs : T.Stacks s)
    (h : Pass T T' fun i => Body.valueHandles (s i).values.toList) : T'.Stacks s := by
  cases hs with
  | mk hv => exact .mk (pass_values hv h)

theorem Frames.pass {f : ι → Frame} (hf : T.Frames f)
    (h : Pass T T' fun i => (f i).function :: (f i).scope.toList) : T'.Frames f := by
  cases hf with
  | mk hr hc hs =>
    refine .mk (h.handle hr fun i => ?_) (h.chunks _ _ hc fun i => ?_) (h.maybe hs fun i => ?_)
    · exact List.mem_cons_self ..
    · exact List.mem_cons_self ..
    · exact List.subset_cons_self ..

theorem Fibers.pass {f : ι → Fiber} (hf : T.Fibers f)
    (h : Pass T T' fun i => (f i).references) : T'.Fibers f := by
  cases hf with
  | mk hs hframes hc hm =>
    refine .mk (hs.pass (h.sub fun i r hr => ?_)) (hframes.imp fun f hf ht =>
      ht.pass (h.sub fun i r hr => ?_)) (h.maybe hc fun i r hr => ?_) (h.maybe hm fun i r hr => ?_)
    · exact List.mem_append_left _ (List.mem_append_right _ hr)
    · exact List.mem_append_right _ (List.mem_flatMap.mpr ⟨f i, hf i, hr⟩)
    · simp only [Fiber.references, List.mem_append, hr, true_or]
    · simp only [Fiber.references, List.mem_append, hr, true_or, or_true]

theorem Functions.pass {f : ι → Function} (hf : T.Functions f)
    (h : Pass T T' fun i => (Body.function (f i)).references) : T'.Functions f := by
  cases hf with
  | mk hn hv hm =>
    refine .mk (h.handle hn fun i => ?_) (pass_values hv (h.sub fun i r hr => ?_))
      (h.maybe hm fun i r hr => ?_)
    · simp [Body.references]
    · simp [Body.references, hr]
    · exact List.mem_append_right _ hr

theorem Bodies.pass {k : Kind} {b : ι → Body} (hb : T.Bodies k b)
    (h : Pass T T' fun i => (b i).references) : T'.Bodies k b := by
  cases hb with
  | text s => exact .text s
  | array hi => exact .array (pass_values hi h)
  | span s => exact .span s
  | dictionary he => exact .dictionary (pass_entries he h)
  | function hf => exact .function (hf.pass h)
  | native n => exact .native n
  | classObject hn => exact .classObject (h.handle hn fun i => List.mem_cons_self ..)
  | instanceOf hc hf =>
    refine .instanceOf (h.handle hc fun i => List.mem_cons_self ..) (hf.pass (h.sub fun i => ?_))
    exact List.subset_cons_self ..
  | boundMethod hr hm =>
    refine .boundMethod (hr.pass (h.sub fun i => List.subset_append_left ..)) ?_
    refine hm.imp (fun hm => h.handle hm fun i => ?_) fun hm => h.handle hm fun i => ?_
    · simp [Body.references]
    · simp [Body.references]
  | module hn hc =>
    refine .module (h.handle hn fun i => List.mem_cons_self ..) (h.maybe hc fun i => ?_)
    exact List.subset_cons_self ..
  | fiber hf =>
    refine .fiber (hf.imp fun f hb hf => hf.pass (h.sub fun i => ?_))
    simp only [hb i]
    exact List.Subset.refl _
  | userData data => exact .userData data

theorem Objects.pass {k : Kind} {o : ι → Object} (ho : T.Objects k o)
    (h : Pass T T' fun i => (o i).references) : T'.Objects k o := by
  cases ho with
  | mk hm hb =>
    exact .mk (hm.pass (h.sub fun i => List.subset_append_left ..))
      (hb.pass (h.sub fun i => List.subset_append_right ..))

/-! ## More ties -/

variable (h : Within T T')
include h

theorem Values.mono {v : ι → Value} (hv : T.Values v) : T'.Values v := hv.pass (h.pass _)

theorem Fields.mono {t : ι → Members} (ht : T.Fields t) : T'.Fields t := ht.pass (h.pass _)

theorem Objects.mono {k : Kind} {o : ι → Object} (ho : T.Objects k o) : T'.Objects k o :=
  ho.pass (h.pass _)

theorem Within.each {vs : ι → List Value} (hvs : Each T.Values vs) : Each T'.Values vs :=
  hvs.imp fun _ _ hv => hv.mono h

theorem Within.maybe {k : Kind} {r : ι → Option Handle} (hr : Maybe (T.handles k) r) :
    Maybe (T'.handles k) r := hr.imp fun _ _ hk => h.handles hk

end Ties
end FiberMachine
