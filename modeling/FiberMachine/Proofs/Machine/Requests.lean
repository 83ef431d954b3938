import FiberMachine.Proofs.Machine.Asking
import FiberMachine.Proofs.Machine.Hosting

/-!
# Dictionaries in functions of the host

A function of the host works by calls, and some of them run a method of a dictionary. Whatever
the other calls do, collections included, a dictionary that stays live is the finite map that
has come of what it was asked, and it answers as that map does.
-/

namespace FiberMachine

open Relation (ReflTransGen)

namespace Machine

open Heap (Serves)

variable {m m₁ m' : Machine} {d : Handle} {t : Table Value Value} {b : Builtin}
  {rest : List Value} {q : Query Value} {map : Mapping} {qs : List (Query Key)}

theorem keeps_ofHandle {h : Heap} (hd : h.isLive d) : h.Keeps (.ofHandle d) := by
  intro r hr
  rw [Value.toHandle?_ofHandle] at hr
  cases hr
  exact hd

theorem keeps_cons {h : Heap} (hd : h.isLive d) (hrest : ∀ v ∈ rest, h.Keeps v) :
    ∀ v ∈ Value.ofHandle d :: rest, h.Keeps v :=
  List.forall_mem_cons.mpr ⟨keeps_ofHandle hd, hrest⟩

/-! ## What persists -/

theorem Sound.keeps_keys (hs : m.Sound) (ht : m.heap.dictionary d = .ok t) :
    ∀ k ∈ t.keys, m.heap.Keeps k := by
  obtain ⟨o, ho, hb⟩ := Heap.dictionary_eq_ok.mp ht
  intro k hk
  obtain ⟨e, he, rfl⟩ := List.mem_map.mp hk
  have hbody := (hs.objects d o ho).body
  rw [hb] at hbody
  exact (hbody e he).1

/-- A dictionary that is still there stays the same finite map. -/
theorem Persists.mapping?_eq (hp : Persists m m') (hs : m.Sound) (hs' : m'.Sound)
    (hfit : m'.room ≤ Heap.slotLimit) (hmap : m.heap.mapping? d = some map)
    (hd : m'.heap.isLive d) : m'.heap.mapping? d = some map := by
  obtain ⟨t, ht, -⟩ := Heap.mapping?_eq_some.mp hmap
  rw [← hmap]
  exact (hp.agrees hs.heap hfit).mapping?_eq ht (hs.keeps_keys ht) hd hs'.keeps_keys

theorem Alters.mapping?_ne {d' : Handle} (ha : Alters d' m m') (hne : d ≠ d')
    (hmap : m.heap.mapping? d = some map) : m'.heap.mapping? d = some map := by
  obtain ⟨f, hheap⟩ := ha
  rw [hheap, Heap.mapping?_update_ne hne f, hmap]

theorem Prepares.lasts (hp : Prepares m.heap m'.heap) : Lasts m m' where
  size_le := hp.size_le
  wellFormed := hp.wellFormed
  retains hw hfit r c hc := by
    obtain ⟨o, ho, hc⟩ := Option.map_eq_some_iff.mp hc
    exact Option.map_eq_some_iff.mpr ⟨o, hp.remains hw hfit r o ho, hc⟩

/-- What is prepared for a call leaves all dictionaries as they are. -/
theorem Prepares.mapping?_eq (hp : Prepares m.heap m'.heap) (hs : m.Sound) (hs' : m'.Sound)
    (hfit : m'.room ≤ Heap.slotLimit) (hmap : m.heap.mapping? d = some map) :
    m'.heap.mapping? d = some map := by
  obtain ⟨o, ho⟩ := Heap.isLive_iff.mp (Heap.isLive_of_mapping? hmap)
  have hd : m'.heap.isLive d := Heap.isLive_iff.mpr ⟨o, hp.remains hs.heap hfit d o ho⟩
  exact hp.lasts.persists.mapping?_eq hs hs' hfit hmap hd

/-- A call of the host changes at most a dictionary that it asks. -/
theorem HostCall.persists_or_asks (h : HostCall m m') (ha : m.heap.Arena)
    (hfit : m'.room ≤ Heap.slotLimit) : Persists m m' ∨ ∃ b d rest q r,
      (∀ v ∈ rest, m.heap.Keeps v) ∧ Builtin.query? b rest = some q ∧
      b.run (.ofHandle d :: rest) m = .ok r m' ∧ Alters d m m' := by
  -- Of all that a host may call, only a built-in function can ask a dictionary.
  by_cases hb : ∃ (b : Builtin) (args : List Value), (∀ v ∈ args, m.heap.Keeps v) ∧
      m' = after (b.run args) m
  · obtain ⟨b, args, hargs, rfl⟩ := hb
    have ht := tends_after (b.run args) m
    cases hrun : b.run args m with
    | error e m₁ =>
      rw [after_error hrun] at ht hfit ⊢
      have hmild : ReflTransGen Mild m m₁ := Fails.row (x := b.run args) m e m₁ hrun
      exact .inl ((spared_of_mild hmild ha hfit).2.persists ht)
    | ok v m₁ =>
      rw [after_ok hrun]
      obtain hlasts | ⟨d, rest, q, rfl, hq, hchange⟩ := builtin_cases hrun
      · exact .inl hlasts.persists
      · have hrest : ∀ v ∈ rest, m.heap.Keeps v := fun v hv => hargs v (List.mem_cons_of_mem _ hv)
        exact .inr ⟨b, d, rest, q, v, hrest, hq, hrun, hchange⟩
  · simp only [not_exists, not_and] at hb
    exact .inl (h.persists hb)

/-! ## Requests -/

/-- What calls of the host have asked of a dictionary while a machine came from one state to
another, each key as what it stood for. The other calls let the dictionary live. -/
inductive Requests (d : Handle) (m : Machine) : List (Query Key) → Machine → Prop
  | nothing : Requests d m [] m
  | asked {qs : List (Query Key)} {m₁ : Machine} {b : Builtin} {rest : List Value}
      {q : Query Value} : Requests d m qs m₁ → (∀ v ∈ rest, m₁.heap.Keeps v) →
      b.query? rest = some q →
      Requests d m (qs ++ [q.map m₁.heap.key]) (after (b.run (.ofHandle d :: rest)) m₁)
  | other {qs : List (Query Key)} {m₁ m' : Machine} : Requests d m qs m₁ → HostCall m₁ m' →
      (∀ (b : Builtin) rest q, (∀ v ∈ rest, m₁.heap.Keeps v) → b.query? rest = some q →
        m' ≠ after (b.run (.ofHandle d :: rest)) m₁) →
      m'.heap.isLive d → Requests d m qs m'

/-- Every row of calls that lets the dictionary live asks it something. -/
theorem exists_requests (h : ReflTransGen HostCall m m')
    (hd : ∀ m₁, ReflTransGen HostCall m m₁ → ReflTransGen HostCall m₁ m' → m₁.heap.isLive d) :
    ∃ qs, Requests d m qs m' := by
  induction h with
  | refl => exact ⟨[], .nothing⟩
  | @tail m₁ m' hrow hcall ih =>
    obtain ⟨qs, hqs⟩ := ih fun m₂ hbefore hafter => hd m₂ hbefore (hafter.tail hcall)
    by_cases hasked : ∃ (b : Builtin) (rest : List Value) (q : Query Value),
        (∀ v ∈ rest, m₁.heap.Keeps v) ∧ b.query? rest = some q ∧
          m' = after (b.run (.ofHandle d :: rest)) m₁
    · obtain ⟨b, rest, q, hrest, hq, rfl⟩ := hasked
      exact ⟨_, hqs.asked hrest hq⟩
    · simp only [not_exists, not_and] at hasked
      exact ⟨qs, hqs.other hcall hasked (hd m' (hrow.tail hcall) .refl)⟩

theorem Requests.room_le (h : Requests d m qs m') : m.room ≤ m'.room := by
  induction h with
  | nothing => exact Nat.le_refl _
  | asked _ _ _ ih => exact ih.trans (room_le_after _ _)
  | other _ hcall _ _ ih => exact ih.trans hcall.tends.room_le

/-- A dictionary serves a method that is run on it. -/
theorem serves_run (hq : b.query? rest = some q) (ht : m.heap.dictionary d = .ok t) :
    Serves Machine.heap m.heap d t q (b.run (.ofHandle d :: rest) m) := by
  obtain ⟨y, hrun, hserves⟩ := Heap.serves_builtin (Value.toHandle?_ofHandle d) ht hq
  rw [hrun]
  exact serves_lift hserves

theorem answers_run (hs : m.Sound) (hmap : m.heap.mapping? d = some map)
    (hq : b.query? rest = some q)
    (hfit : (after (b.run (.ofHandle d :: rest)) m).room ≤ Heap.slotLimit)
    (hfound : ¬ (q.map m.heap.key).Misses map) :
    ∃ r m', b.run (.ofHandle d :: rest) m = .ok r m' ∧
      (q.map m.heap.key).Answers m'.heap map r ∧
      ∀ s o, s ≠ d → m.heap.get? s = some o → m'.heap.get? s = some o := by
  obtain ⟨t, ht, rfl⟩ := Heap.mapping?_eq_some.mp hmap
  have hserves := serves_run hq ht
  obtain ⟨r, m', hrun⟩ := hserves.exists_reply hs.heap hfound
  rw [hrun] at hserves
  rw [after_ok hrun] at hfit
  obtain ⟨hanswers, -, hothers⟩ := hserves.answers hs.heap hfit ht (hs.keeps_keys ht)
  exact ⟨r, m', hrun, hanswers, hothers⟩

theorem misses_run (hs : m.Sound) (hmap : m.heap.mapping? d = some map)
    (hq : b.query? rest = some q) (hmiss : (q.map m.heap.key).Misses map) :
    ∃ k m', (q = .get k ∨ q = .read k) ∧ b.run (.ofHandle d :: rest) m =
      .error (.unknownKey (m.heap.display k)) m' ∧ m'.heap = m.heap := by
  obtain ⟨t, ht, rfl⟩ := Heap.mapping?_eq_some.mp hmap
  exact (serves_run hq ht).exists_fault hs.heap hmiss

/-- A method changes the finite map as it is asked to. -/
theorem mapping?_run (hs : m.Sound) (hmap : m.heap.mapping? d = some map)
    (hq : b.query? rest = some q)
    (hfit : (after (b.run (.ofHandle d :: rest)) m).room ≤ Heap.slotLimit) :
    (after (b.run (.ofHandle d :: rest)) m).heap.mapping? d =
      some ((q.map m.heap.key).change map) := by
  obtain ⟨t, ht, rfl⟩ := Heap.mapping?_eq_some.mp hmap
  have hserves := serves_run hq ht
  cases hrun : b.run (.ofHandle d :: rest) m with
  | ok r m' =>
    rw [after_ok hrun] at hfit ⊢
    rw [hrun] at hserves
    exact (hserves.answers hs.heap hfit ht (hs.keeps_keys ht)).2.1
  | error e m' =>
    rw [after_error hrun]
    rw [hrun] at hserves
    cases hserves with
    | misses hget _ hheap =>
      rw [hheap, hmap]
      rcases hget with rfl | rfl <;> rfl

/-- A dictionary is the finite map that has come of what the calls asked. -/
theorem Requests.mapping?_eq (h : Requests d m qs m') (hs : m.Sound)
    (hmap : m.heap.mapping? d = some map) (hfit : m'.room ≤ Heap.slotLimit) :
    m'.Sound ∧ m'.heap.mapping? d = some (qs.foldl Query.change map) := by
  -- The machine stays sound along the row, so that the keys of the dictionary are live.
  induction h with
  | nothing => exact ⟨hs, hmap⟩
  | @asked qs m₁ b rest q _ hrest hq ih =>
    obtain ⟨hs₁, hmap₁⟩ := ih ((room_le_after _ _).trans hfit)
    have hargs := keeps_cons (Heap.isLive_of_mapping? hmap₁) hrest
    rw [List.foldl_append, List.foldl_cons, List.foldl_nil]
    exact ⟨(HostCall.builtin b hargs).sound hs₁ hfit, mapping?_run hs₁ hmap₁ hq hfit⟩
  | @other qs m₁ m' _ hcall hnone hd ih =>
    obtain ⟨hs₁, hmap₁⟩ := ih (hcall.tends.room_le.trans hfit)
    have hs' := hcall.sound hs₁ hfit
    refine ⟨hs', ?_⟩
    obtain hpersists | ⟨b, d', rest, q, r, hrest, hq, hrun, halters⟩ :=
      hcall.persists_or_asks hs₁.heap.toArena hfit
    · exact hpersists.mapping?_eq hs₁ hs' hfit hmap₁ hd
    · by_cases hne : d = d'
      · subst hne
        exact absurd (after_ok hrun).symm (hnone b rest q hrest hq)
      · exact halters.mapping?_ne hne hmap₁

end Machine

end FiberMachine
