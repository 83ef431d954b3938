import FiberMachine.Proofs.Ties.Machines

/-!
# Sound machines

In a sound machine every handle that is stored anywhere names a live object, and one of the
kind that its place asks for: names are texts, the function of a frame is a function, a
caller is a fiber, and so on. A machine is sound if and only if it is tied to itself alone,
so whatever tied machines agree on keeps a single machine sound.
-/

namespace FiberMachine

namespace Heap

/-- A handle of a live object of a kind. -/
def Has (h : Heap) (k : Kind) (r : Handle) : Prop := ∃ o, h.get? r = some o ∧ o.kind = k

/-- If a value is a handle, its object is live. -/
def Keeps (h : Heap) (v : Value) : Prop := ∀ r, v.toHandle? = some r → h.isLive r

theorem keeps_scalar {h : Heap} {v : Value} (hv : v.toHandle? = none) : h.Keeps v := by
  intro r hr
  rw [hv] at hr
  cases hr

def KeepsMembers (h : Heap) (members : Members) : Prop :=
  ∀ e ∈ members.toList, h.Has .text e.1 ∧ h.Keeps e.2

/-- The code of a frame is that of its function, which keeps the constants. -/
structure KeepsFrame (h : Heap) (f : Frame) : Prop where
  function : h.Has .function f.function
  chunk : h.chunk? f.function = some f.chunk
  scope : ∀ r ∈ f.scope, h.Has .module r

structure KeepsFiber (h : Heap) (f : Fiber) : Prop where
  stack : ∀ v ∈ f.stack.values.toList, h.Keeps v
  frames : ∀ frame ∈ f.frames, h.KeepsFrame frame
  caller : ∀ r ∈ f.caller, h.Has .fiber r
  module : ∀ r ∈ f.module, h.Has .module r

structure KeepsFunction (h : Heap) (f : Function) : Prop where
  name : h.Has .text f.name
  constants : ∀ v ∈ f.chunk.constants.toList, h.Keeps v
  module : ∀ r ∈ f.module, h.Has .module r

def KeepsBody (h : Heap) : Body → Prop
  | .text _ | .span _ | .native _ | .userData _ => True
  | .array items => ∀ v ∈ items.toList, h.Keeps v
  | .dictionary entries => ∀ e ∈ entries.toList, h.Keeps e.1 ∧ h.Keeps e.2
  | .function f => h.KeepsFunction f
  | .classObject name => h.Has .text name
  | .instanceOf cls fields => h.Has .classObject cls ∧ h.KeepsMembers fields
  | .boundMethod receiver method =>
    h.Keeps receiver ∧ (h.Has .function method ∨ h.Has .native method)
  | .module name caller => h.Has .text name ∧ ∀ r ∈ caller, h.Has .module r
  | .fiber body => ∀ f ∈ body, h.KeepsFiber f

/-- A text has no members: nothing in the machine gives it any. -/
structure KeepsObject (h : Heap) (o : Object) : Prop where
  members : h.KeepsMembers o.members
  body : h.KeepsBody o.body
  bare : o.kind = .text → o.members = .empty

end Heap

namespace Machine

structure Sound (m : Machine) : Prop where
  heap : m.heap.WellFormed
  objects : ∀ r o, m.heap.get? r = some o → m.heap.KeepsObject o
  texts : ∀ s r, m.heap.texts.find? s = some r → m.heap.Has .text r
  running : ∀ t, m.running = some t → m.heap.Has .fiber t.id ∧ m.heap.KeepsFiber t.fiber
  globals : m.heap.KeepsMembers m.globals
  modules : m.heap.KeepsMembers m.modules
  methods : ∀ e ∈ m.methods.toList, m.heap.KeepsMembers e.2
  loading : ∀ r ∈ m.loading, m.heap.Has .module r
  root : ∀ r ∈ m.root, m.heap.Has .fiber r
  ready : ∀ r ∈ m.ready, m.heap.Has .fiber r
  timers : ∀ r ∈ m.timers.fibers, m.heap.Has .fiber r
  events : ∀ e ∈ m.events, ∀ r ∈ e.fiber?, m.heap.isLive r

end Machine

namespace Ties

/-! ## What is tied is sound -/

section

variable {ι α : Type} {T : Ties ι} {h : ι → Heap} {i : ι}

theorem mem_maybe {R : (ι → α) → Prop} {x : ι → Option α} (hx : Maybe R x) {a : α}
    (ha : a ∈ x i) : ∃ f, R f ∧ f i = a := by
  obtain ⟨o, ho, hx⟩ := hx
  rw [hx, Option.mem_def, Option.map_eq_some_iff] at ha
  obtain ⟨f, hf, rfl⟩ := ha
  exact ⟨f, ho f hf, rfl⟩

theorem mem_each {R : (ι → α) → Prop} {xs : ι → List α} (hxs : Each R xs) {a : α}
    (ha : a ∈ xs i) : ∃ f, R f ∧ f i = a := by
  obtain ⟨l, hl, hxs⟩ := hxs
  rw [hxs, List.mem_map] at ha
  obtain ⟨f, hf, rfl⟩ := ha
  exact ⟨f, hl f hf, rfl⟩

variable (hT : T.Heaps h)
include hT

theorem Heaps.has {k : Kind} {r : ι → Handle} (hr : T.handles k r) : (h i).Has k (r i) := by
  obtain ⟨o, ho, hget⟩ := hT.object hr
  exact ⟨o i, hget i, ho.kind i⟩

theorem Heaps.has_maybe {k : Kind} {r : ι → Option Handle} (hr : Maybe (T.handles k) r) :
    ∀ q ∈ r i, (h i).Has k q := by
  intro q hq
  obtain ⟨r, hr, rfl⟩ := mem_maybe hr hq
  exact hT.has hr

theorem Heaps.has_each {k : Kind} {rs : ι → List Handle} (hrs : Each (T.handles k) rs) :
    ∀ q ∈ rs i, (h i).Has k q := by
  intro q hq
  obtain ⟨r, hr, rfl⟩ := mem_each hrs hq
  exact hT.has hr

theorem Heaps.keeps {v : ι → Value} (hv : T.Values v) : (h i).Keeps (v i) := by
  intro q hq
  rcases hv.handle with hs | ⟨k, r, hr, hv⟩
  · rw [hs] at hq
    cases hq
  · rw [hv, Option.some.injEq] at hq
    exact hq ▸ hT.isLive hr i

theorem Heaps.keeps_each {vs : ι → List Value} (hvs : Each T.Values vs) :
    ∀ v ∈ vs i, (h i).Keeps v := by
  intro v hmem
  obtain ⟨v, hv, rfl⟩ := mem_each hvs hmem
  exact hT.keeps hv

theorem Heaps.keepsMembers {t : ι → Members} (ht : T.Fields t) : (h i).KeepsMembers (t i) := by
  intro e he
  obtain ⟨e, ⟨hk, hv⟩, rfl⟩ := mem_each ht he
  exact ⟨hT.has hk, hT.keeps hv⟩

theorem Heaps.keepsFrame {f : ι → Frame} (hf : T.Frames f) : (h i).KeepsFrame (f i) := by
  cases hf with
  | mk hr hc hs =>
    exact ⟨hT.has hr, ((hT.chunk _ _).mp hc).2 i, hT.has_maybe hs⟩

theorem Heaps.keepsFiber {f : ι → Fiber} (hf : T.Fibers f) : (h i).KeepsFiber (f i) := by
  cases hf with
  | mk hs hframes hc hm =>
    cases hs with
    | mk hvalues =>
      refine ⟨hT.keeps_each hvalues, fun frame hframe => ?_, hT.has_maybe hc, hT.has_maybe hm⟩
      obtain ⟨frame, hf, rfl⟩ := mem_each hframes hframe
      exact hT.keepsFrame hf

theorem Heaps.keepsBody {k : Kind} {b : ι → Body} (hb : T.Bodies k b) : (h i).KeepsBody (b i) := by
  cases hb with
  | text s => trivial
  | array hi => exact hT.keeps_each hi
  | span s => trivial
  | dictionary he =>
    intro e hmem
    obtain ⟨e, ⟨hk, hv⟩, rfl⟩ := mem_each he hmem
    exact ⟨hT.keeps hk, hT.keeps hv⟩
  | function hf =>
    cases hf with
    | mk hn hc hm => exact ⟨hT.has hn, hT.keeps_each hc, hT.has_maybe hm⟩
  | native n => trivial
  | classObject hn => exact hT.has hn
  | instanceOf hc hf => exact ⟨hT.has hc, hT.keepsMembers hf⟩
  | boundMethod hr hm => exact ⟨hT.keeps hr, hm.imp hT.has hT.has⟩
  | module hn hc => exact ⟨hT.has hn, hT.has_maybe hc⟩
  | fiber hf =>
    intro f hmem
    obtain ⟨f, hf, rfl⟩ := mem_maybe hf hmem
    exact hT.keepsFiber hf
  | userData data => trivial

theorem Heaps.keepsObject [Subsingleton ι] {r : Handle} {o : Object} (ho : (h i).get? r = some o) :
    (h i).KeepsObject o := by
  obtain ⟨k, r, hr, rfl⟩ := hT.covers inferInstance i r (Heap.isLive_iff.mpr ⟨o, ho⟩)
  obtain ⟨p, hp, hget⟩ := hT.object hr
  rw [hget, Option.some.injEq] at ho
  subst ho
  refine ⟨hT.keepsMembers hp.members, hT.keepsBody hp.body, fun hk => ?_⟩
  obtain ⟨s, hs⟩ : ∃ s, (p i).body = .text s := by
    cases hb : (p i).body with
    | text s => exact ⟨s, rfl⟩
    | _ => simp [Object.kind, Body.kind, hb] at hk
  exact hT.bare i (r i) (p i) s (hget i) hs

end

theorem Machines.sound {ι : Type} [Subsingleton ι] {T : Ties ι} {m : ι → Machine}
    (hm : T.Machines m) (i : ι) : (m i).Sound where
  heap := hm.heap.wellFormed i
  objects r o ho := hm.heap.keepsObject ho
  texts s r hr := by
    obtain ⟨o, ho, hb⟩ := ((hm.heap.wellFormed i).find_text s r).mp hr
    exact ⟨o, ho, by rw [Object.kind, hb, Body.kind]⟩
  running t ht := by
    obtain ⟨t, hr, rfl⟩ := mem_maybe hm.outside.running ht
    cases hr with
    | mk hid hf => exact ⟨hm.heap.has hid, hm.heap.keepsFiber hf⟩
  globals := hm.heap.keepsMembers hm.outside.globals
  modules := hm.heap.keepsMembers hm.outside.modules
  methods e he := by
    obtain ⟨e, ⟨-, hfields⟩, rfl⟩ := mem_each hm.outside.methods he
    exact hm.heap.keepsMembers hfields
  loading := hm.heap.has_each hm.outside.loading
  root := hm.heap.has_maybe hm.outside.root
  ready := hm.heap.has_each hm.outside.ready
  timers := by
    intro r hr
    obtain ⟨t, ht, rfl⟩ := List.mem_map.mp hr
    obtain ⟨t, ha, rfl⟩ := mem_each hm.outside.timers.pending ht
    cases ha with
    | mk hf => exact hm.heap.has hf
  events e he r hr := by
    obtain ⟨e, ht, rfl⟩ := mem_each hm.outside.events he
    cases ht with
    | resume hq =>
      obtain ⟨k, hq⟩ := hq
      cases hr
      exact hm.heap.isLive hq i
    | collect => cases hr

/-! ## What is sound is tied to itself -/

/-- The ties of a heap by itself. -/
def alone (h : Heap) : Ties Unit where
  handles k r := h.Has k (r ())
  chunks r c := h.Has .function (r ()) ∧ h.chunk? (r ()) = some (c ())

variable {h : Heap}

theorem has_unique {k l : Kind} {r : Handle} (hk : h.Has k r) (hl : h.Has l r) : k = l := by
  obtain ⟨o, ho, rfl⟩ := hk
  obtain ⟨p, hp, rfl⟩ := hl
  rw [ho, Option.some.injEq] at hp
  rw [hp]

theorem alone_maybe {k : Kind} {r : Option Handle} (hr : ∀ q ∈ r, h.Has k q) :
    Maybe ((alone h).handles k) fun _ => r := by
  cases r with
  | none => exact .none
  | some r => exact .some (a := fun _ => r) (hr r rfl)

theorem alone_values {v : Value} (hv : h.Keeps v) : (alone h).Values fun _ => v := by
  cases hh : v.toHandle? with
  | none => exact .scalar hh
  | some r =>
    obtain ⟨o, ho⟩ := Heap.isLive_iff.mp (hv r hh)
    have hr : (alone h).handles o.kind fun _ => r := ⟨o, ho, rfl⟩
    exact Value.ofHandle_of_toHandle? hh ▸ .object hr

theorem alone_each {vs : List Value} (hvs : ∀ v ∈ vs, h.Keeps v) :
    Each (alone h).Values fun _ => vs := .const fun v hv => alone_values (hvs v hv)

theorem alone_fields {t : Members} (ht : h.KeepsMembers t) : (alone h).Fields fun _ => t :=
  Each.const fun e he => ⟨(ht e he).1, alone_values (ht e he).2⟩

theorem alone_frames {f : Frame} (hf : h.KeepsFrame f) : (alone h).Frames fun _ => f := by
  have hr : (alone h).handles .function fun _ => f.function := hf.function
  have hc : (alone h).chunks (fun _ => f.function) fun _ => f.chunk := ⟨hf.function, hf.chunk⟩
  exact .mk hr hc (alone_maybe hf.scope)

theorem alone_fibers {f : Fiber} (hf : h.KeepsFiber f) : (alone h).Fibers fun _ => f := by
  obtain ⟨⟨values, limit⟩, frames, caller, kind, state, module⟩ := f
  refine .mk ?_ (.const fun frame hframe => alone_frames (hf.frames frame hframe))
    (alone_maybe hf.caller) (alone_maybe hf.module)
  have hvalues := alone_each hf.stack
  exact .mk hvalues

theorem alone_bodies {b : Body} (hb : h.KeepsBody b) : (alone h).Bodies b.kind fun _ => b := by
  cases b with
  | text s => exact .text s
  | array items =>
    have hitems := alone_each hb
    exact .array hitems
  | span s => exact .span s
  | dictionary entries =>
    exact .dictionary (Each.const fun e he => ⟨alone_values (hb e he).1, alone_values (hb e he).2⟩)
  | function f =>
    obtain ⟨name, arity, isAsync, ⟨code, constants, lines⟩, module⟩ := f
    have hname : (alone h).handles .text fun _ => name := hb.name
    have hconstants := alone_each hb.constants
    exact .function (.mk hname hconstants (alone_maybe hb.module))
  | native n => exact .native n
  | classObject name =>
    have hname : (alone h).handles .text fun _ => name := hb
    exact .classObject hname
  | instanceOf cls fields =>
    have hcls : (alone h).handles .classObject fun _ => cls := hb.1
    exact .instanceOf hcls (alone_fields hb.2)
  | boundMethod receiver method =>
    have hmethod : (alone h).handles .function (fun _ => method) ∨
        (alone h).handles .native fun _ => method := hb.2
    exact .boundMethod (alone_values hb.1) hmethod
  | module name caller =>
    have hname : (alone h).handles .text fun _ => name := hb.1
    exact .module hname (alone_maybe hb.2)
  | fiber body =>
    refine .fiber ?_
    cases body with
    | none => exact .none
    | some f => exact .some (a := fun _ => f) (alone_fibers (hb f rfl))
  | userData data => exact .userData data

theorem alone_heaps (hw : h.WellFormed) (ho : ∀ r o, h.get? r = some o → h.KeepsObject o) :
    (alone h).Heaps fun _ => h where
  wellFormed _ := hw
  apart {k l r s} hr hs _ hi := by
    obtain rfl : r = s := funext fun _ => hi
    exact ⟨has_unique hr hs, rfl⟩
  object {k r} hr := by
    obtain ⟨⟨marked, members, body⟩, hget, rfl⟩ := hr
    obtain rfl : marked = false := hw.unmarked _ _ hget
    refine ⟨fun _ => _, .mk (alone_fields (ho _ _ hget).members) ?_, fun _ => hget⟩
    exact alone_bodies (ho _ _ hget).body
  chunk r c := and_congr_right fun _ => ⟨fun hc _ => hc, fun hc => hc ()⟩
  bare _ r o s hget hb := (ho r o hget).bare (by rw [Object.kind, hb, Body.kind])
  covers _ _ r hr := by
    obtain ⟨o, hget⟩ := Heap.isLive_iff.mp hr
    exact ⟨o.kind, fun _ => r, ⟨o, hget, rfl⟩, rfl⟩

end Ties

namespace Machine

open Ties

theorem Sound.machines {m : Machine} (hm : m.Sound) : (alone m.heap).Machines fun _ => m where
  heap := alone_heaps hm.heap hm.objects
  outside := {
    config := .const _
    globals := alone_fields hm.globals
    modules := alone_fields hm.modules
    methods := Each.const fun e he => ⟨.const _, alone_fields (hm.methods e he)⟩
    loading := .const hm.loading
    running := by
      cases ht : m.running with
      | none => exact .none
      | some t =>
        obtain ⟨hid, hf⟩ := hm.running t ht
        have hr : (alone m.heap).handles .fiber fun _ => t.id := hid
        exact .some (.mk hr (alone_fibers hf))
    root := alone_maybe hm.root
    ready := .const hm.ready
    events := .const fun e he => by
      cases e with
      | resume r =>
        obtain ⟨o, ho⟩ := Heap.isLive_iff.mp (hm.events _ he r rfl)
        exact .resume (r := fun _ => r) ⟨o.kind, o, ho, rfl⟩
      | collect => exact .collect
    timers := by
      refine ⟨.const _, .const _, .const fun t ht => ?_⟩
      have hr : (alone m.heap).handles .fiber fun _ => t.fiber :=
        hm.timers _ (List.mem_map_of_mem ht)
      exact .mk hr
    host := .const _
    library := .const _
    exported := .const _ }

theorem sound_iff (m : Machine) : m.Sound ↔ ∃ T : Ties Unit, T.Machines fun _ => m :=
  ⟨fun hm => ⟨_, hm.machines⟩, fun ⟨_, hm⟩ => hm.sound ()⟩

end Machine
end FiberMachine
