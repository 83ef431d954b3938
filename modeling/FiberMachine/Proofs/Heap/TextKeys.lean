import FiberMachine.Proofs.Heap.Presentation

/-!
# Texts as keys

Where all keys of dictionaries are texts, as in values that come from JSON, no dictionary is
shown inside its own keys, and no two keys are shown alike. Such a heap grows by objects that
hold what is live and have texts for keys and names.
-/

namespace FiberMachine

namespace Heap

variable {h h' h₁ : Heap} {r : Handle} {v : Value} {b : Body}

theorem Remains.text (hk : h.Remains h') {s : String} (hs : h.text r = .ok s) :
    h'.text r = .ok s := by
  obtain ⟨o, ho, hb⟩ := text_eq_ok.mp hs
  exact text_eq_ok.mpr ⟨o, hk r o ho, hb⟩

theorem Remains.textOf? (hk : h.Remains h') {s : String} (hs : h.textOf? v = some s) :
    h'.textOf? v = some s := by
  obtain ⟨r, rfl, hr⟩ := textOf?_eq_some.mp hs
  exact textOf?_eq_some.mpr ⟨r, rfl, hk.text hr⟩

/-- A heap in which all keys of dictionaries are texts. -/
structure TextKeyed (h : Heap) : Prop where
  wellFormed : h.WellFormed
  live : ∀ r o, h.get? r = some o → ∀ s ∈ o.references, h.isLive s
  names : ∀ r o cls fields, h.get? r = some o → o.body = .instanceOf cls fields →
    ∀ e ∈ fields.toList, ∃ s, h.text e.1 = .ok s
  keys : ∀ r o k, h.get? r = some o → k ∈ o.body.keys → ∃ s, h.textOf? k = some s

namespace TextKeyed

/-- A text leads nowhere. -/
theorem not_inOwnKey (hk : h.TextKeyed) (r : Handle) : ¬ h.InOwnKey r := by
  rintro ⟨o, k, ho, hkey, depth, -, hreach⟩
  obtain ⟨s, hs⟩ := hk.keys r o k ho hkey
  obtain ⟨t, rfl, ht⟩ := textOf?_eq_some.mp hs
  obtain ⟨p, hp, hb⟩ := text_eq_ok.mp ht
  rcases Relation.ReflTransGen.cases_head hreach with heq | ⟨c, ⟨r', p', -, heq, hp', hin⟩, -⟩
  · obtain rfl := Value.ofHandle_injective (congrArg Prod.snd heq)
    obtain rfl := Option.some.inj (hp.symm.trans ho)
    rw [hb] at hkey
    cases hkey
  · obtain rfl := Value.ofHandle_injective heq
    obtain rfl := Option.some.inj (hp.symm.trans hp')
    rw [hb] at hin
    rcases hin with ⟨-, hin⟩ | ⟨-, hin⟩ <;> cases hin

theorem keysDiffer (hk : h.TextKeyed) : h.KeysDiffer := by
  intro r o ho
  have hkeys : o.body.keys.Nodup := by
    cases o.body with
    | dictionary entries => exact entries.nodup
    | _ => exact .nil
  refine hkeys.map_on fun k hmem k' hmem' heq => ?_
  obtain ⟨s, hs⟩ := hk.keys r o k ho hmem
  obtain ⟨s', hs'⟩ := hk.keys r o k' ho hmem'
  obtain ⟨t, rfl, ht⟩ := textOf?_eq_some.mp hs
  obtain ⟨t', rfl, ht'⟩ := textOf?_eq_some.mp hs'
  rw [display_text ht, display_text ht'] at heq
  rw [(hk.wellFormed.eq_iff_of_text ht ht').mpr heq]

/-- Different texts are shown differently, and none leads back to a dictionary. -/
theorem presentable (hk : h.TextKeyed) : h.Presentable where
  wellFormed := hk.wellFormed
  live := hk.live
  names := hk.names
  differ := hk.keysDiffer
  apart := hk.not_inOwnKey

/-- A body that could be among the objects of the heap. -/
structure Fits (h : Heap) (b : Body) : Prop where
  live : ∀ s ∈ b.references, h.isLive s
  names : ∀ cls fields, b = .instanceOf cls fields → ∀ e ∈ fields.toList, ∃ s, h.text e.1 = .ok s
  keys : ∀ k ∈ b.keys, ∃ s, h.textOf? k = some s

theorem grow (hk : h.TextKeyed) (hw : h₁.WellFormed) (hremains : h.Remains h₁) (hb : Fits h b)
    (hnew : ∀ s o, h₁.get? s = some o → o = .ofBody b ∨ h.get? s = some o) : h₁.TextKeyed where
  wellFormed := hw
  live s o ho t ht := by
    apply hremains.isLive
    rcases hnew s o ho with rfl | ho
    · exact hb.live t ht
    · exact hk.live s o ho t ht
  names s o cls fields ho hbody e he := by
    rcases hnew s o ho with rfl | ho
    · exact (hb.names cls fields hbody e he).imp fun _ => hremains.text
    · exact (hk.names s o cls fields ho hbody e he).imp fun _ => hremains.text
  keys s o k ho hkey := by
    rcases hnew s o ho with rfl | ho
    · exact (hb.keys k hkey).imp fun _ => hremains.textOf?
    · exact (hk.keys s o k ho hkey).imp fun _ => hremains.textOf?

theorem alloc (hk : h.TextKeyed) (hb : Fits h b) (htext : ∀ s, b ≠ .text s)
    (hfit : (h.alloc b).1.slots.size ≤ slotLimit) : (h.alloc b).1.TextKeyed := by
  have ha := alloc_allocated hk.wellFormed.toArena b hfit
  refine hk.grow (hk.wellFormed.alloc htext hfit) (fun s o => ha.get?_of_get?) hb fun s o ho => ?_
  rw [ha.get?] at ho
  split at ho
  · exact .inl (Option.some.inj ho).symm
  · exact .inr ho

theorem intern (hk : h.TextKeyed) {s : String} (hfit : (h.intern s).1.slots.size ≤ slotLimit) :
    (h.intern s).1.TextKeyed := by
  cases hs : h.texts.find? s with
  | some r => rwa [intern_old hs]
  | none =>
    have ha := (intern_allocated hk.wellFormed.toArena hs hfit).1
    have hb : Fits h (.text s) := ⟨nofun, nofun, nofun⟩
    refine hk.grow (hk.wellFormed.intern hfit) (fun _ _ => ha.get?_of_get?) hb fun t o ho => ?_
    have hget := ha.get? t
    split at hget
    · exact .inl (Option.some.inj (ho.symm.trans hget))
    · exact .inr (hget.symm.trans ho)

theorem empty : Heap.empty.TextKeyed where
  wellFormed := empty_wellFormed
  live r o ho := by simp [get?, slot?, Heap.empty, withThreshold] at ho
  names r o cls fields ho := by simp [get?, slot?, Heap.empty, withThreshold] at ho
  keys r o k ho := by simp [get?, slot?, Heap.empty, withThreshold] at ho

end TextKeyed

open TextKeyed (Fits)

theorem isLive_of_text {s : String} (hs : h.text r = .ok s) : h.isLive r := by
  obtain ⟨o, ho, -⟩ := text_eq_ok.mp hs
  exact isLive_iff.mpr ⟨o, ho⟩

theorem fits_class {s : String} (hs : h.text r = .ok s) : Fits h (.classObject r) :=
  ⟨List.forall_mem_singleton.mpr (isLive_of_text hs), nofun, nofun⟩

theorem fits_dictionary {t : Table Value Value}
    (ht : ∀ e ∈ t.toList, (∃ s, h.textOf? e.1 = some s) ∧ h.Keeps e.2) :
    Fits h (.dictionary t) := by
  refine ⟨fun r hr => ?_, nofun, fun k hk => ?_⟩
  · obtain ⟨v, hv, hr⟩ := List.mem_filterMap.mp hr
    obtain ⟨e, he, hv⟩ := List.mem_flatMap.mp hv
    obtain ⟨⟨s, hs⟩, hvalue⟩ := ht e he
    rcases List.mem_pair.mp hv with rfl | rfl
    · obtain ⟨r', hr', htext⟩ := textOf?_eq_some.mp hs
      rw [hr', Value.toHandle?_ofHandle] at hr
      exact Option.some.inj hr ▸ isLive_of_text htext
    · exact hvalue r hr
  · obtain ⟨e, he, rfl⟩ := List.mem_map.mp hk
    exact (ht e he).1

theorem fits_instance {cls : Handle} {fields : Members} (hcls : h.isLive cls)
    (hf : ∀ e ∈ fields.toList, (∃ s, h.text e.1 = .ok s) ∧ h.Keeps e.2) :
    Fits h (.instanceOf cls fields) := by
  refine ⟨List.forall_mem_cons.mpr ⟨hcls, fun r hr => ?_⟩, ?_, nofun⟩
  · obtain ⟨e, he, hr⟩ := List.mem_flatMap.mp hr
    obtain ⟨⟨s, hs⟩, hvalue⟩ := hf e he
    rcases List.mem_cons.mp hr with rfl | hr
    · exact isLive_of_text hs
    · exact hvalue r (Option.mem_toList.mp hr)
  · rintro _ _ ⟨⟩ e he
    exact (hf e he).1

end Heap
end FiberMachine
