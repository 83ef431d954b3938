import FiberMachine.Proofs.Ties.Soundness
import FiberMachine.Proofs.Ties.Twins

/-!
# Copies

A machine that is tied to itself alone is tied to any number of copies of itself, each
handle to its own copies. One copy may hold garbage that the others do not.
-/

namespace FiberMachine

variable {ι α β κ : Type} {R : (Unit → α) → Prop} {S : (ι → α) → Prop}

theorem Same.copies {x : Unit → α} (_ : Same x) : Same fun _ : ι => x () := .const _

theorem Maybe.copies {x : Unit → Option α} (hx : Maybe R x)
    (h : ∀ a, R a → S fun _ => a ()) : Maybe S fun _ => x () := by
  rcases hx.cases with hx | ⟨a, ha, hx⟩
  · rw [hx]
    exact .none
  · rw [hx]
    exact .some (h a ha)

theorem Each.copies {x : Unit → List α} (hx : Each R x)
    (h : ∀ a, R a → S fun _ => a ()) : Each S fun _ => x () := by
  obtain ⟨l, hl, hx⟩ := hx
  refine ⟨l.map fun a _ => a (), fun b hb => ?_, fun _ => ?_⟩
  · obtain ⟨a, ha, rfl⟩ := List.mem_map.mp hb
    exact h a (hl a ha)
  · rw [hx, List.map_map]
    rfl

theorem Rows.copies {K : (Unit → κ) → Prop} {L : (ι → κ) → Prop} {t : Unit → Table κ α}
    (ht : Rows K R t) (hk : ∀ a, K a → L fun _ => a ()) (hv : ∀ a, R a → S fun _ => a ()) :
    Rows L S fun _ => t () :=
  Each.copies ht fun _ he => ⟨hk _ he.1, hv _ he.2⟩

namespace Ties

/-- The ties between copies of what is tied alone. -/
def copies (ι : Type) (T : Ties Unit) : Ties ι where
  handles k r := ∃ q, T.handles k q ∧ r = fun _ => q ()
  chunks r c := ∃ q d, T.chunks q d ∧ (r = fun _ => q ()) ∧ c = fun _ => d ()

variable {T : Ties Unit}

theorem copies_handles {k : Kind} {q : Unit → Handle} (hq : T.handles k q) :
    (copies ι T).handles k fun _ => q () := ⟨q, hq, rfl⟩

theorem Values.copies {v : Unit → Value} (hv : T.Values v) :
    (copies ι T).Values fun _ => v () := by
  cases hv with
  | scalar hv => exact .scalar hv
  | object hr => exact .object (copies_handles hr)

theorem Fields.copies {t : Unit → Members} (ht : T.Fields t) : (copies ι T).Fields fun _ => t () :=
  Rows.copies ht (fun _ => copies_handles) fun _ => Values.copies

theorem Frames.copies {f : Unit → Frame} (hf : T.Frames f) : (copies ι T).Frames fun _ => f () := by
  obtain ⟨hr, hc, hs⟩ := hf
  have hr' : (Ties.copies ι T).handles .function _ := copies_handles hr
  exact .mk hr' ⟨_, _, hc, rfl, rfl⟩ (hs.copies fun _ => copies_handles)

theorem Fibers.copies {f : Unit → Fiber} (hf : T.Fibers f) : (copies ι T).Fibers fun _ => f () := by
  obtain ⟨@⟨_, limit, hvalues⟩, hframes, hcaller, hmodule⟩ := hf
  have hvalues' : Each (Ties.copies ι T).Values _ := hvalues.copies fun _ => Values.copies
  have hstack : (Ties.copies ι T).Stacks fun _ => ⟨_, limit⟩ := .mk hvalues'
  exact .mk hstack (hframes.copies fun _ => Frames.copies)
    (hcaller.copies fun _ => copies_handles) (hmodule.copies fun _ => copies_handles)

theorem Bodies.copies {k : Kind} {b : Unit → Body} (hb : T.Bodies k b) :
    (copies ι T).Bodies k fun _ => b () := by
  cases hb with
  | text s => exact .text s
  | array hitems =>
    have hitems' : Each (Ties.copies ι T).Values _ := hitems.copies fun _ => Values.copies
    exact .array hitems'
  | span s => exact .span s
  | dictionary hentries =>
    exact .dictionary (Rows.copies hentries (fun _ => Values.copies) fun _ => Values.copies)
  | function hf =>
    obtain ⟨hname, hconstants, hmodule⟩ := hf
    have hname' : (Ties.copies ι T).handles .text _ := copies_handles hname
    have hconstants' : Each (Ties.copies ι T).Values _ := hconstants.copies fun _ => Values.copies
    exact .function (.mk hname' hconstants' (hmodule.copies fun _ => copies_handles))
  | native n => exact .native n
  | classObject hname =>
    have hname' : (Ties.copies ι T).handles .text _ := copies_handles hname
    exact .classObject hname'
  | instanceOf hcls hfields =>
    have hcls' : (Ties.copies ι T).handles .classObject _ := copies_handles hcls
    exact .instanceOf hcls' hfields.copies
  | boundMethod hreceiver hmethod =>
    have hmethod' : (Ties.copies ι T).handles .function _ ∨ (Ties.copies ι T).handles .native _ :=
      hmethod.imp copies_handles copies_handles
    exact .boundMethod hreceiver.copies hmethod'
  | module hname hcaller =>
    have hname' : (Ties.copies ι T).handles .text _ := copies_handles hname
    exact .module hname' (hcaller.copies fun _ => copies_handles)
  | fiber hbody => exact .fiber (hbody.copies fun _ => Fibers.copies)
  | userData data => exact .userData data

theorem Objects.copies {k : Kind} {o : Unit → Object} (ho : T.Objects k o) :
    (copies ι T).Objects k fun _ => o () := by
  obtain ⟨hmembers, hbody⟩ := ho
  exact .mk hmembers.copies hbody.copies

theorem copies_values {h : Heap} {v : Value} (hv : h.Keeps v) :
    (copies ι (alone h)).Values fun _ => v := (alone_values hv).copies

theorem copies_has {h : Heap} {k : Kind} {r : Handle} (hr : h.Has k r) :
    (copies ι (alone h)).handles k fun _ => r := ⟨fun _ => r, hr, rfl⟩

/-- Two copies at least: with one there would have to be ties for all that is alive. -/
theorem Heaps.copies [Nontrivial ι] {h : Unit → Heap} (hT : T.Heaps h) :
    (copies ι T).Heaps fun _ => h () where
  wellFormed _ := hT.wellFormed ()
  apart := by
    rintro k l r s ⟨q, hq, rfl⟩ ⟨p, hp, rfl⟩ i he
    obtain ⟨rfl, rfl⟩ := hT.apart hq hp () he
    exact ⟨rfl, rfl⟩
  object := by
    rintro k r ⟨q, hq, rfl⟩
    obtain ⟨o, ho, hget⟩ := hT.object hq
    exact ⟨fun _ => o (), ho.copies, fun _ => hget ()⟩
  chunk r c := by
    constructor
    · rintro ⟨q, d, hc, rfl, rfl⟩
      obtain ⟨hq, hd⟩ := (hT.chunk q d).mp hc
      exact ⟨copies_handles hq, fun _ => hd ()⟩
    · rintro ⟨⟨q, hq, rfl⟩, hc⟩
      obtain ⟨i⟩ : Nonempty ι := inferInstance
      have hi := hc i
      refine ⟨q, fun _ => c i, (hT.chunk q _).mpr ⟨hq, fun _ => hi⟩, rfl, funext fun j => ?_⟩
      exact Option.some.inj ((hc j).symm.trans hi)
  bare _ r o s := hT.bare () r o s
  covers hι := absurd hι (not_subsingleton ι)

theorem Machines.copies [Nontrivial ι] {m : Unit → Machine} (hm : T.Machines m) :
    (copies ι T).Machines fun _ => m () where
  heap := hm.heap.copies
  outside := {
    config := .const _
    globals := hm.outside.globals.copies
    modules := hm.outside.modules.copies
    methods := Rows.copies hm.outside.methods (fun _ => Same.copies) fun _ => Fields.copies
    loading := hm.outside.loading.copies fun _ => copies_handles
    running := hm.outside.running.copies fun _ ht => by
      obtain ⟨hid, hf⟩ := ht
      have hid' : (Ties.copies ι T).handles .fiber _ := copies_handles hid
      exact .mk hid' hf.copies
    root := hm.outside.root.copies fun _ => copies_handles
    ready := hm.outside.ready.copies fun _ => copies_handles
    events := hm.outside.events.copies fun _ he => by
      cases he with
      | resume hr =>
        obtain ⟨k, hk⟩ := hr
        have hr' : (Ties.copies ι T).Handled _ := ⟨k, copies_handles hk⟩
        exact .resume hr'
      | collect => exact .collect
    timers := {
      now := .const _
      sequence := .const _
      pending := hm.outside.timers.pending.copies fun _ ht => by
        obtain ⟨hr⟩ := ht
        have hr' : (Ties.copies ι T).handles .fiber _ := copies_handles hr
        exact .mk hr' }
    host := .const _
    library := .const _
    exported := .const _ }

/-! ## One object more -/

variable {U : Ties ι} {h : ι → Heap}

/-- Heaps stay tied when each of them may get objects that are not tied to any other. -/
theorem Heaps.more [Nontrivial ι] (hU : U.Heaps h) {h' : ι → Heap}
    (hw : ∀ i, (h' i).WellFormed) (hold : ∀ i r o, (h i).get? r = some o → (h' i).get? r = some o)
    (hbare : ∀ i r o s, (h' i).get? r = some o → o.body = .text s → o.members = .empty) :
    U.Heaps h' where
  wellFormed := hw
  apart := hU.apart
  object hr := by
    obtain ⟨o, ho, hget⟩ := hU.object hr
    exact ⟨o, ho, fun i => hold i _ _ (hget i)⟩
  chunk r c := by
    rw [hU.chunk]
    refine and_congr_right fun hr => forall_congr' fun i => ?_
    obtain ⟨o, -, hget⟩ := hU.object hr
    simp only [Heap.chunk?, hget i, hold i _ _ (hget i)]
  bare := hbare
  covers hι := absurd hι (not_subsingleton ι)

end Ties

namespace Machine

open Ties

variable {m : Machine} {b : Body}

/-- The machine with one more object, which nothing refers to. -/
def withObject (b : Body) (m : Machine) : Machine := { m with heap := (m.heap.alloc b).1 }

/-- Garbage makes no difference. -/
theorem Sound.machines_withObject (hm : m.Sound) (hb : ∀ s, b ≠ .text s)
    (hfit : (m.withObject b).room ≤ Heap.slotLimit) :
    (copies Bool (alone m.heap)).Machines (both m (m.withObject b)) := by
  have hcopies : (copies Bool (alone m.heap)).Machines fun _ => m := hm.machines.copies
  have hallocated := Heap.alloc_allocated hm.heap.toArena b hfit
  have hmore : (copies Bool (alone m.heap)).Heaps fun second =>
      if second then (m.heap.alloc b).1 else m.heap := by
    refine hcopies.heap.more (fun i => ?_) (fun i r o ho => ?_) fun i r o s ho hs => ?_
    · cases i
      · exact hm.heap
      · exact hm.heap.alloc hb hfit
    · cases i
      · exact ho
      · exact hallocated.get?_of_get? ho
    · have hold := hcopies.heap.bare i r o s
      cases i
      · exact hold ho hs
      · simp only [↓reduceIte, hallocated.get?] at ho
        split at ho
        · cases ho
          exact absurd hs (hb s)
        · exact hold ho hs
  have hwith := hcopies.withHeap (.refl _) hmore
  have hboth : both m (m.withObject b) = fun second : Bool =>
      { m with heap := if second then (m.heap.alloc b).1 else m.heap } := by
    funext second
    cases second <;> rfl
  exact hboth ▸ hwith

theorem Sound.machines_self (hm : m.Sound) : (copies Bool (alone m.heap)).Machines (both m m) := by
  have hboth : both m m = fun _ : Bool => m := by
    funext second
    cases second <;> rfl
  exact hboth ▸ hm.machines.copies

end Machine

end FiberMachine
