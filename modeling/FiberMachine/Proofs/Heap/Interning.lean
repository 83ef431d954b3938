import FiberMachine.Proofs.Heap.Operations

/-!
# The table of texts

A text comes into the heap only when it is interned. As long as that is so, and no change
takes a text away or makes one, the table holds the texts of the heap, each once, whatever is
made, changed and collected in between. Equal texts then have equal handles.
-/

namespace FiberMachine
namespace Heap

variable {h h' : Heap} {op : Operation} {ops : List Operation} {r r' : Handle} {s s' : String}

theorem text_eq_ok : h.text r = .ok s ↔ ∃ o, h.get? r = some o ∧ o.body = .text s := by
  simp only [text, Heap.get]
  cases h.get? r with
  | none => simp
  | some o => cases hb : o.body <;> simp [hb]

theorem text_isOk : (h.text r).isOk ↔ ∃ s, h.text r = .ok s := by
  cases h.text r <;> simp [Except.isOk, Except.toBool]

/-- An operation that leaves texts to the table: none is made but by interning, a change keeps
what is a text and makes none of anything else, and slots are emptied by collections alone. -/
def Operation.SparesTexts : Operation → Prop
  | .intern _ | .collect _ => True
  | .alloc body => ∀ s, body ≠ .text s
  | .modify _ f | .update _ f => ∀ members body s, (f members body).2 = .text s ↔ body = .text s
  | .release _ => False

/-! ## Well-formed heaps stay well-formed -/

theorem WellFormed.modify (hw : h.WellFormed) {f : Mutation}
    (hf : ∀ members body s, (f members body).2 = .text s ↔ body = .text s) :
    (h.modify r f.apply).WellFormed where
  toArena := hw.toArena.congr (sameSlots_modify h r f.apply).map_isOccupied rfl rfl
  unmarked t o ho := by
    rw [get?_modify] at ho
    split at ho
    · obtain ⟨p, hp, rfl⟩ := Option.map_eq_some_iff.mp ho
      exact hw.unmarked r p hp
    · exact hw.unmarked t o ho
  find_text s t := by
    refine (hw.find_text s t).trans ?_
    rw [get?_modify]
    split
    · rename_i ht
      subst ht
      cases h.get? t <;> simp [Mutation.apply, hf]
    · rfl

theorem WellFormed.perform (hw : h.WellFormed) (hop : op.SparesTexts)
    (hfit : (h.perform op).slots.size ≤ slotLimit) : (h.perform op).WellFormed := by
  cases op with
  | intern s => exact hw.intern hfit
  | alloc body => exact hw.alloc hop hfit
  | modify r f => exact hw.modify hop
  | update r f => exact hw.update (fun _ _ => rfl) fun o _ s => hop o.members o.body s
  | release r => exact hop.elim
  | collect roots => exact hw.collect roots

theorem WellFormed.performAll (hw : h.WellFormed) (hops : ∀ op ∈ ops, op.SparesTexts)
    (hfit : (h.performAll ops).slots.size ≤ slotLimit) : (h.performAll ops).WellFormed := by
  induction ops generalizing h with
  | nil => exact hw
  | cons op rest ih =>
    obtain ⟨hop, hrest⟩ := List.forall_mem_cons.mp hops
    exact ih (hw.perform hop ((size_le_performAll _ rest).trans hfit)) hrest hfit

/-! ## Texts stay texts -/

theorem text_perform (hw : h.WellFormed) (hop : op.SparesTexts)
    (hfit : (h.perform op).slots.size ≤ slotLimit) (ht : h.text r = .ok s)
    (hl : (h.perform op).isLive r) : (h.perform op).text r = .ok s := by
  obtain ⟨o, ho, hb⟩ := text_eq_ok.mp ht
  refine text_eq_ok.mpr ?_
  cases op with
  | intern t => exact ⟨o, get?_intern_of_get? hw.toArena hfit ho, hb⟩
  | alloc body => exact ⟨o, (alloc_allocated hw.toArena body hfit).get?_of_get? ho, hb⟩
  | modify t f =>
    by_cases hr : r = t
    · subst hr
      exact ⟨f.apply o, by rw [perform, get?_modify, if_pos rfl, ho]; rfl, (hop ..).mpr hb⟩
    · exact ⟨o, by rw [perform, get?_modify, if_neg hr, ho], hb⟩
  | update t f =>
    by_cases hr : r = t
    · subst hr
      exact ⟨f.apply o, by rw [perform, get?_update, if_pos rfl, ho]; rfl, (hop ..).mpr hb⟩
    · exact ⟨o, by rw [perform, get?_update, if_neg hr, ho], hb⟩
  | release r => exact hop.elim
  | collect roots =>
    obtain ⟨o', ho'⟩ := isLive_iff.mp hl
    obtain rfl : o' = o := Option.some.inj ((get?_of_get?_collect hw ho').symm.trans ho)
    exact ⟨o', ho', hb⟩

/-- A handle belongs to a text for as long as it finds something. -/
theorem text_performAll (hw : h.WellFormed) (hops : ∀ op ∈ ops, op.SparesTexts)
    (hfit : (h.performAll ops).slots.size ≤ slotLimit) (ht : h.text r = .ok s)
    (hl : ∀ part, part <+: ops → (h.performAll part).isLive r) :
    (h.performAll ops).text r = .ok s := by
  induction ops generalizing h with
  | nil => exact ht
  | cons op rest ih =>
    obtain ⟨hop, hrest⟩ := List.forall_mem_cons.mp hops
    have hfit' := (size_le_performAll _ rest).trans hfit
    have hfirst := text_perform hw hop hfit' ht (hl [op] (by simp))
    exact ih (hw.perform hop hfit') hrest hfit hfirst fun part hpart =>
      hl (op :: part) ((List.prefix_cons_inj op).mpr hpart)

/-! ## The table and the texts -/

theorem WellFormed.findText_eq_some (hw : h.WellFormed) :
    h.findText? s = some r ↔ h.text r = .ok s :=
  (hw.find_text s r).trans text_eq_ok.symm

theorem WellFormed.intern_of_text (hw : h.WellFormed) (ht : h.text r = .ok s) :
    h.intern s = (h, r) :=
  intern_old (hw.findText_eq_some.mpr ht)

theorem WellFormed.eq_iff_of_text (hw : h.WellFormed) (ht : h.text r = .ok s)
    (ht' : h.text r' = .ok s') : r = r' ↔ s = s' := by
  constructor
  · rintro rfl
    exact Except.ok.inj (ht.symm.trans ht')
  · rintro rfl
    have hr := hw.findText_eq_some.mpr ht
    exact Option.some.inj (hr.symm.trans (hw.findText_eq_some.mpr ht'))

/-- The handles in the table are those of the texts, and each stands there once. -/
theorem WellFormed.texts_perm (hw : h.WellFormed) :
    (h.texts.toList.map Prod.snd).Perm (h.handles.filter fun r => (h.text r).isOk) := by
  refine (List.perm_ext_iff_of_nodup ?_ ((nodup_handles hw.size_le).filter _)).mpr fun r => ?_
  · refine List.Nodup.map_on ?_ (List.Nodup.of_map _ h.texts.nodup)
    rintro ⟨s, r⟩ he ⟨s', r'⟩ he' (rfl : r = r')
    have ht := hw.findText_eq_some.mp (Table.find?_eq_some_iff.mpr he)
    have ht' := hw.findText_eq_some.mp (Table.find?_eq_some_iff.mpr he')
    exact Prod.ext ((hw.eq_iff_of_text ht ht').mp rfl) rfl
  · simp only [List.mem_map, List.mem_filter, mem_handles hw.size_le, text_isOk]
    constructor
    · rintro ⟨⟨s, r⟩, he, rfl⟩
      have ht := hw.findText_eq_some.mp (Table.find?_eq_some_iff.mpr he)
      obtain ⟨o, ho, -⟩ := text_eq_ok.mp ht
      exact ⟨isLive_iff.mpr ⟨o, ho⟩, s, ht⟩
    · rintro ⟨-, s, ht⟩
      exact ⟨(s, r), Table.find?_eq_some_iff.mp (hw.findText_eq_some.mpr ht), rfl⟩

/-! ## What is guaranteed -/

/-- The table of texts after a row of operations. It holds each text of the heap once, under
the handle of the text, and nothing else, so that handles of texts are equal when the texts
are. A text that is interned is found again under the same handle until a collection takes
it, and is then no longer in the table. -/
structure InterningGuarantees (begun : Heap) (ops : List Operation) (h : Heap) : Prop where
  entries : ∀ s r, h.findText? s = some r ↔ ∃ o, h.get? r = some o ∧ o.body = .text s
  handles : (h.texts.toList.map Prod.snd).Perm (h.handles.filter fun r => (h.text r).isOk)
  distinct : ∀ r r' s s', h.text r = .ok s → h.text r' = .ok s' → (r = r' ↔ s = s')
  interned : ∀ s, (h.intern s).1.slots.size ≤ slotLimit →
    (h.intern s).1.text (h.intern s).2 = .ok s
  collected : ∀ roots r s, h.text r = .ok s → (h.collect roots).1.isLive r →
    h.intern s = (h, r) ∧ (h.collect roots).1.intern s = ((h.collect roots).1, r)
  forgotten : ∀ roots r s, h.text r = .ok s → ¬ (h.collect roots).1.isLive r →
    (h.collect roots).1.findText? s = none
  stays : ∀ before rest r s, ops = before ++ rest → (begun.performAll before).text r = .ok s →
    (∀ part, part <+: rest → (begun.performAll (before ++ part)).isLive r) →
    h.intern s = (h, r)

theorem interningGuarantees (threshold growth : UInt64) (ops : List Operation)
    (hops : ∀ op ∈ ops, op.SparesTexts)
    (hfit : ((withThreshold threshold growth).performAll ops).slots.size ≤ slotLimit) :
    InterningGuarantees (withThreshold threshold growth) ops
      ((withThreshold threshold growth).performAll ops) := by
  have hbegun := withThreshold_wellFormed threshold growth
  have hw := hbegun.performAll hops hfit
  refine ⟨hw.find_text, hw.texts_perm, fun r r' s s' ht ht' => hw.eq_iff_of_text ht ht',
    fun s hs => (hw.intern hs).findText_eq_some.mp (find_text_intern hw.toArena hs),
    fun roots r s ht hl => ⟨hw.intern_of_text ht, ?_⟩, fun roots r s ht hl => ?_, ?_⟩
  · have hkept := @text_perform _ (.collect roots) r s hw trivial
      ((size_collect _ roots).trans_le hfit) ht hl
    exact (hw.collect roots).intern_of_text hkept
  · refine Option.eq_none_iff_forall_ne_some.mpr fun r' hr' => hl ?_
    obtain ⟨hold, hreached⟩ := (find_text_collect hw roots s r').mp hr'
    obtain rfl := (hw.eq_iff_of_text ht (hw.findText_eq_some.mp hold)).mpr rfl
    exact (isLive_collect hw roots r).mpr hreached
  · rintro before rest r s rfl ht hl
    obtain ⟨hbefore, hrest⟩ := List.forall_mem_append.mp hops
    simp only [performAll_append] at hfit hl ⊢
    have hmid := hbegun.performAll hbefore ((size_le_performAll _ rest).trans hfit)
    rw [performAll_append] at hw
    exact hw.intern_of_text (text_performAll hmid hrest hfit ht hl)

/-- A text and an array that holds it outlive a collection; another text does not, and is
interned again. -/
theorem interningGuarantees_keptText :
    (∀ op ∈ [.intern "kept", .intern "lost", .alloc (.array #[.ofHandle ⟨0, .zero⟩]),
      .modify ⟨2, .zero⟩ fun members body => (members, body), .collect [⟨2, .zero⟩],
      .intern "lost"], Operation.SparesTexts op) ∧
    ((withThreshold 64 2).performAll [.intern "kept", .intern "lost",
      .alloc (.array #[.ofHandle ⟨0, .zero⟩]), .modify ⟨2, .zero⟩ fun members body => (members, body),
      .collect [⟨2, .zero⟩], .intern "lost"]).slots.size ≤ slotLimit ∧
    InterningGuarantees (withThreshold 64 2) [.intern "kept", .intern "lost",
      .alloc (.array #[.ofHandle ⟨0, .zero⟩]), .modify ⟨2, .zero⟩ fun members body => (members, body),
      .collect [⟨2, .zero⟩], .intern "lost"]
      ((withThreshold 64 2).performAll [.intern "kept", .intern "lost",
        .alloc (.array #[.ofHandle ⟨0, .zero⟩]),
        .modify ⟨2, .zero⟩ fun members body => (members, body), .collect [⟨2, .zero⟩],
        .intern "lost"]) :=
  have hops : ∀ op ∈ [.intern "kept", .intern "lost", .alloc (.array #[.ofHandle ⟨0, .zero⟩]),
      .modify ⟨2, .zero⟩ fun members body => (members, body), .collect [⟨2, .zero⟩],
      .intern "lost"], Operation.SparesTexts op := by simp [Operation.SparesTexts]
  have hfit := (size_performAll_le (withThreshold 64 2) _).trans (by decide)
  ⟨hops, hfit, interningGuarantees 64 2 _ hops hfit⟩

end Heap
end FiberMachine
