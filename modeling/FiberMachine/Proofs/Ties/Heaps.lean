import FiberMachine.Proofs.Heap.Collection
import FiberMachine.Proofs.Ties.Objects

/-!
# Heaps side by side

Tied handles name live objects that are tied themselves, and a handle is tied once at
most. What is not tied is garbage that some of the heaps still hold and others do not;
a single heap has none of it, so there everything alive is tied to itself.
-/

namespace FiberMachine

def Body.chunk? : Body → Option Chunk
  | .function f => some f.chunk
  | _ => none

namespace Heap

/-- The code of a function. -/
def chunk? (h : Heap) (r : Handle) : Option Chunk := (h.get? r).bind fun o => o.body.chunk?

end Heap

variable {ι : Type}

namespace Ties

structure Heaps (T : Ties ι) (h : ι → Heap) : Prop where
  wellFormed : ∀ i, (h i).WellFormed
  apart : ∀ {k l r s}, T.handles k r → T.handles l s → ∀ i, r i = s i → k = l ∧ r = s
  object : ∀ {k r}, T.handles k r → ∃ o, T.Objects k o ∧ ∀ i, (h i).get? (r i) = some (o i)
  chunk : ∀ r c, T.chunks r c ↔ T.handles .function r ∧ ∀ i, (h i).chunk? (r i) = some (c i)
  /-- A text that some heap forgot and others did not can be tied again. -/
  bare : ∀ i r o s, (h i).get? r = some o → o.body = .text s → o.members = .empty
  covers : Subsingleton ι → ∀ i r, (h i).isLive r → ∃ k t, T.handles k t ∧ t i = r

variable {T : Ties ι} {h h' : ι → Heap} {k : Kind} {r : ι → Handle}

theorem Heaps.isLive (hT : T.Heaps h) (hr : T.handles k r) (i : ι) : (h i).isLive (r i) := by
  obtain ⟨o, -, ho⟩ := hT.object hr
  exact Heap.isLive_iff.mpr ⟨_, ho i⟩

theorem Heaps.apart_handles (hT : T.Heaps h) (k : Kind) : Apart (T.handles k) :=
  fun _ _ hr hs i hi => (hT.apart hr hs i hi).2

theorem Heaps.apart_values (hT : T.Heaps h) : Apart T.Values := by
  intro v w hv hw i hi
  cases hv with
  | scalar hv =>
    cases hw with
    | scalar hw => exact funext fun _ => hi
    | object hr => simp [hi, Value.toHandle?_ofHandle] at hv
  | @object k r hr =>
    cases hw with
    | scalar hw => simp [← hi, Value.toHandle?_ofHandle] at hw
    | @object l s hs =>
      have hrs : r i = s i := by
        have h := congrArg Value.toHandle? hi
        simpa only [Value.toHandle?_ofHandle, Option.some.injEq] using h
      rw [(hT.apart hr hs i hrs).2]

/-- A handle is the same as a tied one everywhere or nowhere. -/
theorem Heaps.same_ne (hT : T.Heaps h) {l : Kind} {s : ι → Handle} (hr : T.handles k r)
    (hs : T.handles l s) : Same fun i => r i != s i := by
  by_cases he : r = s
  · exact ⟨false, fun i => by simp [he]⟩
  · have hne := fun i hi => he (hT.apart hr hs i hi).2
    exact ⟨true, fun i => by simpa using hne i⟩

theorem Objects.text_eq {o : ι → Object} (ho : T.Objects k o) {i : ι} {s : String}
    (hb : (o i).body = .text s) : k = .text ∧ ∀ j, (o j).body = .text s := by
  cases ho with
  | mk _ hbody =>
    cases hbody with
    | text t =>
      cases hb
      exact ⟨rfl, fun _ => rfl⟩
    | _ => cases hb

/-! ## New ties -/

/-- Objects that are not tied yet, new ones above all, can be tied. -/
theorem Heaps.tie (hT : T.Heaps h) {o : ι → Object} (hw : ∀ i, (h' i).WellFormed)
    (ho : T.Objects k o) (hnew : ∀ i, (h' i).get? (r i) = some (o i))
    (hfree : ∀ l s, T.handles l s → ∀ i, s i ≠ r i)
    (hold : ∀ i s, s ≠ r i → (h' i).get? s = (h i).get? s)
    (hbare : ∀ i s, (o i).body = .text s → (o i).members = .empty) :
    ∃ T', T.Within T' ∧ T'.Heaps h' ∧ T'.handles k r := by
  let handles := fun l s => T.handles l s ∨ l = k ∧ s = r
  let T' : Ties ι := ⟨handles, fun s c => handles .function s ∧
    ∀ i, (h' i).chunk? (s i) = some (c i)⟩
  have hget : ∀ {l s}, T.handles l s → ∀ i, (h' i).get? (s i) = (h i).get? (s i) :=
    fun hs i => hold i _ (hfree _ _ hs i)
  have hwithin : T.Within T' := by
    refine ⟨Or.inl, fun {s c} hc => ?_⟩
    obtain ⟨hs, hc⟩ := (hT.chunk s c).mp hc
    refine ⟨Or.inl hs, fun i => ?_⟩
    rw [Heap.chunk?, hget hs]
    exact hc i
  refine ⟨T', hwithin, ⟨hw, ?_, ?_, fun _ _ => Iff.rfl, ?_, ?_⟩, Or.inr ⟨rfl, rfl⟩⟩
  · intro l l' s t hs ht i hi
    rcases hs with hs | ⟨rfl, rfl⟩
    · rcases ht with ht | ⟨-, rfl⟩
      · exact hT.apart hs ht i hi
      · exact absurd hi (hfree _ _ hs i)
    · rcases ht with ht | ⟨rfl, rfl⟩
      · exact absurd hi.symm (hfree _ _ ht i)
      · exact ⟨rfl, rfl⟩
  · intro l s hs
    rcases hs with hs | ⟨rfl, rfl⟩
    · obtain ⟨p, hp, hps⟩ := hT.object hs
      exact ⟨p, hp.mono hwithin, fun i => (hget hs i).trans (hps i)⟩
    · exact ⟨o, ho.mono hwithin, hnew⟩
  · intro i s p t hp hb
    by_cases hs : s = r i
    · subst hs
      rw [hnew, Option.some.injEq] at hp
      subst hp
      exact hbare i t hb
    · rw [hold i s hs] at hp
      exact hT.bare i s p t hp hb
  · intro hι i s hs
    by_cases hsr : s = r i
    · exact ⟨k, r, Or.inr ⟨rfl, rfl⟩, hsr.symm⟩
    · rw [Heap.isLive, hold i s hsr] at hs
      obtain ⟨l, t, ht, hti⟩ := hT.covers hι i s hs
      exact ⟨l, t, Or.inl ht, hti⟩

theorem Heaps.alloc (hT : T.Heaps h) {b : ι → Body} (hb : T.Bodies k b) (hk : k ≠ .text)
    (hfit : ∀ i, ((h i).alloc (b i)).1.slots.size ≤ Heap.slotLimit) :
    ∃ T', T.Within T' ∧ T'.Heaps (fun i => ((h i).alloc (b i)).1) ∧
      T'.handles k fun i => ((h i).alloc (b i)).2 := by
  have hnot : ∀ i s, b i ≠ .text s := by
    intro i s he
    refine hk ?_
    rw [← hb.kind i, he]
    rfl
  have ha := fun i => Heap.alloc_allocated (hT.wellFormed i).toArena (b i) (hfit i)
  refine hT.tie (fun i => (hT.wellFormed i).alloc (hnot i) (hfit i)) (.mk .empty hb)
    (fun i => (ha i).get?_self) (fun l s hs i he => ?_) (fun i s hs => ?_)
    fun i s he => absurd he (hnot i s)
  · have hl := hT.isLive hs i
    rw [he, Heap.isLive, (ha i).fresh] at hl
    cases hl
  · rw [(ha i).get?, if_neg hs]

/-! ## Texts -/

/-- All there is to say about a text. -/
theorem Heaps.text_object (hT : T.Heaps h) {i : ι} {q : Handle} {s : String}
    (hq : (h i).texts.find? s = some q) : (h i).get? q = some ⟨false, .empty, .text s⟩ := by
  obtain ⟨o, ho, hb⟩ := ((hT.wellFormed i).find_text s q).mp hq
  obtain ⟨marked, members, body⟩ := o
  have hm : marked = false := (hT.wellFormed i).unmarked q _ ho
  have hempty : members = .empty := hT.bare i q _ s ho hb
  subst hm hempty
  simp only at hb
  rw [ho, hb]

theorem Heaps.find_text (hT : T.Heaps h) (hr : T.handles .text r) :
    ∃ s, ∀ i, (h i).texts.find? s = some (r i) := by
  obtain ⟨o, ho, hget⟩ := hT.object hr
  cases ho with
  | mk _ hb =>
    cases hb with
    | text s => exact ⟨s, fun i => ((hT.wellFormed i).find_text s _).mpr ⟨_, hget i, rfl⟩⟩

theorem Heaps.intern (hT : T.Heaps h) (s : String)
    (hfit : ∀ i, ((h i).intern s).1.slots.size ≤ Heap.slotLimit) :
    ∃ T', T.Within T' ∧ T'.Heaps (fun i => ((h i).intern s).1) ∧
      T'.handles .text fun i => ((h i).intern s).2 := by
  by_cases hthere : ∃ r, T.handles .text r ∧ ∀ i, (h i).texts.find? s = some (r i)
  · obtain ⟨r, hr, hfind⟩ := hthere
    simp only [Heap.intern_old (hfind _)]
    exact ⟨T, .refl T, hT, hr⟩
  · have hobject : ∀ i, ((h i).intern s).1.get? ((h i).intern s).2 =
        some ⟨false, .empty, .text s⟩ := by
      intro i
      cases hf : (h i).texts.find? s with
      | some q =>
        rw [Heap.intern_old hf]
        exact hT.text_object hf
      | none =>
        exact (Heap.intern_allocated (hT.wellFormed i).toArena hf (hfit i)).1.get?_self
    refine hT.tie (fun i => (hT.wellFormed i).intern (hfit i)) (.mk .empty (.text s)) hobject
      (fun l q hq i he => ?_) (fun i q hq => ?_) fun _ _ _ => rfl
    · cases hf : (h i).texts.find? s with
      | some p =>
        rw [Heap.intern_old hf] at he
        obtain ⟨o, ho, hget⟩ := hT.object hq
        have hoi : (o i).body = .text s := by
          have hp := hget i
          rw [he, hT.text_object hf, Option.some.injEq] at hp
          rw [← hp]
        obtain ⟨rfl, hb⟩ := ho.text_eq hoi
        exact hthere ⟨q, hq, fun j => ((hT.wellFormed j).find_text s _).mpr ⟨_, hget j, hb j⟩⟩
      | none =>
        have hl := hT.isLive hq i
        have hfresh := (Heap.intern_allocated (hT.wellFormed i).toArena hf (hfit i)).1.fresh
        rw [he, Heap.isLive, hfresh] at hl
        cases hl
    · cases hf : (h i).texts.find? s with
      | some p => rw [Heap.intern_old hf]
      | none =>
        have ha := (Heap.intern_allocated (hT.wellFormed i).toArena hf (hfit i)).1
        exact (ha.get? q).trans (if_neg hq)

/-! ## Changed objects -/

theorem Heaps.update (hT : T.Heaps h) (hr : T.handles k r) (htext : k ≠ .text)
    (hfunction : k ≠ .function) {f : ι → Object → Object}
    (hf : ∀ o, T.Objects k o → T.Objects k fun i => f i (o i)) :
    T.Heaps fun i => (h i).update (r i) (f i) := by
  obtain ⟨o, ho, hget⟩ := hT.object hr
  have hfo := hf o ho
  have hat : ∀ i, ((h i).update (r i) (f i)).get? (r i) = some (f i (o i)) := by
    intro i
    rw [Heap.get?_update, if_pos rfl, hget]
    rfl
  have hback : ∀ i s, s ≠ r i → ((h i).update (r i) (f i)).get? s = (h i).get? s := by
    intro i s hs
    rw [Heap.get?_update, if_neg hs]
  have htied : ∀ {l s}, T.handles l s → (k = l ∧ r = s) ∨ ∀ i, s i ≠ r i := by
    intro l s hs
    by_cases he : ∃ i, r i = s i
    · obtain ⟨i, hi⟩ := he
      exact Or.inl (hT.apart hr hs i hi)
    · exact Or.inr fun i hi => he ⟨i, hi.symm⟩
  refine ⟨fun i => (hT.wellFormed i).update (fun p hp => ?_) fun p hp s => ?_, hT.apart,
    fun {l s} hs => ?_, fun s c => ?_, fun i s p t hp hb => ?_, fun hι i s hs => ?_⟩
  · rw [hget, Option.some.injEq] at hp
    rw [← hp, ho.marked, hfo.marked]
  · rw [hget, Option.some.injEq] at hp
    rw [← hp]
    exact iff_of_false (fun hs => htext (hfo.text_eq hs).1) fun hs => htext (ho.text_eq hs).1
  · rcases htied hs with ⟨rfl, rfl⟩ | hne
    · exact ⟨_, hfo, hat⟩
    · obtain ⟨p, hp, hps⟩ := hT.object hs
      exact ⟨p, hp, fun i => (hback i _ (hne i)).trans (hps i)⟩
  · rw [hT.chunk]
    refine and_congr_right fun hs => forall_congr' fun i => ?_
    have hne := (htied hs).resolve_left fun he => hfunction he.1
    rw [Heap.chunk?, Heap.chunk?, hback i _ (hne i)]
  · by_cases hs : s = r i
    · subst hs
      rw [hat, Option.some.injEq] at hp
      subst hp
      exact absurd (hfo.text_eq hb).1 htext
    · rw [hback i s hs] at hp
      exact hT.bare i s p t hp hb
  · refine hT.covers hι i s ?_
    rw [Heap.isLive] at hs ⊢
    rw [Heap.get?_update] at hs
    split at hs
    · rename_i hsr
      rw [hsr, hget]
      rfl
    · exact hs

/-! ## Fewer objects -/

/-- The ties between handles that are live in some heaps. -/
def within (T : Ties ι) (h : ι → Heap) : Ties ι where
  handles k r := T.handles k r ∧ ∀ i, (h i).isLive (r i)
  chunks r c := T.chunks r c ∧ ∀ i, (h i).isLive (r i)

/-- Heaps that lose objects, but none that others refer to, are tied as before. -/
theorem Heaps.lose (hT : T.Heaps h) (hw : ∀ i, (h' i).WellFormed)
    (hold : ∀ i r o, (h' i).get? r = some o → (h i).get? r = some o)
    (hrefs : ∀ i r o, (h' i).get? r = some o → ∀ s ∈ o.references, (h i).isLive s →
      (h' i).isLive s) : (T.within h').Heaps h' := by
  have hget : ∀ i s, (h' i).isLive s → (h' i).get? s = (h i).get? s := by
    intro i s hs
    obtain ⟨o, ho⟩ := Heap.isLive_iff.mp hs
    rw [ho, hold i s o ho]
  refine ⟨hw, fun hr hs => hT.apart hr.1 hs.1, fun {k r} hr => ?_, fun r c => ?_,
    fun i r o s ho => hT.bare i r o s (hold i r o ho), fun hι i r hr => ?_⟩
  · obtain ⟨o, ho, hro⟩ := hT.object hr.1
    have hro' := fun i => (hget i _ (hr.2 i)).trans (hro i)
    refine ⟨o, ho.pass ⟨fun l s hs hm => ⟨hs, fun i => ?_⟩, fun s c hc hm => ⟨hc, fun i => ?_⟩⟩,
      hro'⟩
    · exact hrefs i _ _ (hro' i) _ (hm i) (hT.isLive hs i)
    · exact hrefs i _ _ (hro' i) _ (hm i) (hT.isLive ((hT.chunk s c).mp hc).1 i)
  · simp only [within, hT.chunk, and_assoc, and_congr_right_iff]
    intro _
    rw [and_comm]
    refine and_congr_right fun hl => forall_congr' fun i => ?_
    rw [Heap.chunk?, Heap.chunk?, hget i _ (hl i)]
  · obtain ⟨o, ho⟩ := Heap.isLive_iff.mp hr
    obtain ⟨k, t, ht, rfl⟩ := hT.covers hι i r (Heap.isLive_iff.mpr ⟨o, hold i r o ho⟩)
    refine ⟨k, t, ⟨ht, fun j => ?_⟩, rfl⟩
    rwa [hι.elim j i]

end Ties
end FiberMachine
