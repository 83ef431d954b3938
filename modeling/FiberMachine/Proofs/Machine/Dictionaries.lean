import FiberMachine.Proofs.Machine.Holdings
import FiberMachine.Proofs.Machine.Requests

/-!
# Dictionaries

A dictionary that a machine holds is a finite map, and it changes only where it is asked to, by
an instruction, by the host or by a function of the host that runs. Whatever else happens,
collections and faults included, it stays the map that has come of what it was asked, and it
answers as that map does.
-/

namespace FiberMachine

open Relation (ReflTransGen)

namespace Machine

open Heap (Serves)

variable {host : HostFunctions} {G : Members → Members → Prop} {m m₀ m₁ m' : Machine} {d : Handle}
  {t : Table Value Value} {q : Query Value} {x : Act Value} {r : Value} {map : Mapping}
  {qs : List (Query Key)}

/-! ## Questions -/

/-- A dictionary is asked by the next instruction, which leaves the reply on top of the
operands, or by the host between two programs. -/
inductive Asking (host : HostFunctions) (m : Machine) (d : Handle) : Query Value → Act Value → Prop
  | program {q : Query Value} : Consults m d q → Asking host m d q (topAfter (instruction host))
  | host {b : Builtin} {rest : List Value} {q : Query Value} : Vacant m →
      (∀ v ∈ rest, m.heap.Keeps v) → b.query? rest = some q →
      Asking host m d q (b.run (.ofHandle d :: rest))

theorem Asking.serves (ha : Asking host m d q x) (hl : InLimit m)
    (ht : m.heap.dictionary d = .ok t) : Serves Machine.heap m.heap d t q (x m) := by
  cases ha with
  | program hc => exact hc.serves hl ht
  | host _ _ hq => exact serves_run hq ht

theorem topAfter_eq_ok {x : Act Unit} (h : topAfter x m = .ok r m') : x m = .ok () m' := by
  obtain ⟨_, m₁, hx, hpeek⟩ := bind_eq_ok h
  obtain rfl := unchanged_peek hpeek
  exact hx

/-- A reply is one of the things that happen to a machine. -/
theorem Asking.happens (ha : Asking host m d q x) (hd : m.heap.isLive d) (h : x m = .ok r m') :
    Happens host m m' := by
  cases ha with
  | program => exact .step (.instruction (topAfter_eq_ok h))
  | @host b rest _ hv hrest => exact after_ok h ▸ .hostCall hv (.builtin b (keeps_cons hd hrest))

/-! ## Subscripts that are written -/

/-- The items of an array change, or a key is put into a dictionary. -/
theorem itemChange_cases {k v : Value} {b : Body} {f : Object → Object}
    (h : Heap.itemChange k v b = .ok f) :
    (∃ g, f = Heap.changeArray g) ∨ f = Heap.changeDictionary (·.insert k v) := by
  cases b with
  | dictionary entries =>
    cases h
    exact .inr rfl
  | array items =>
    simp only [Heap.itemChange] at h
    cases hi : Heap.place k items.size with
    | error fault => simp [hi, Bind.bind, Except.bind] at h
    | ok i =>
      rw [hi] at h
      cases h
      exact .inl ⟨_, rfl⟩
  | _ => cases h

theorem setItem_eq_ok {target k v : Value} {h h' : Heap} {u : Unit}
    (hset : Heap.setItem target k v h = .ok u h') : Heap.Lasts h h' ∨
    ∃ d, target = .ofHandle d ∧ h' = h.update d (Heap.changeDictionary (·.insert k v)) := by
  unfold Heap.setItem at hset
  cases hr : target.toHandle? with
  | none =>
    simp only [hr] at hset
    cases hset
  | some r =>
    simp only [hr] at hset
    obtain ⟨_, _, hget, hset⟩ := bind_eq_ok hset
    cases hget
    obtain ⟨o, h₁, ho, hset⟩ := bind_eq_ok hset
    rw [except_apply] at ho
    split at ho <;> cases ho
    obtain ⟨f, h₂, hf, hchange⟩ := bind_eq_ok hset
    rw [except_apply] at hf
    split at hf <;> cases hf
    rename_i hitem
    obtain rfl := Heap.change_eq_ok hchange
    obtain ⟨g, rfl⟩ | rfl := itemChange_cases hitem
    · exact .inl .of_update
    · exact .inr ⟨r, (Value.ofHandle_of_toHandle? hr).symm, rfl⟩

theorem writeItem_cases {u : Unit} (h : writeItem m = .ok u m') : Lasts m m' ∨
    ∃ d k v, peek 2 m = .ok (.ofHandle d) m ∧ peek 1 m = .ok k m ∧ peek 0 m = .ok v m ∧
      Alters d m m' := by
  obtain ⟨v, m₁, hv, h⟩ := bind_eq_ok h
  obtain ⟨k, m₂, hk, h⟩ := bind_eq_ok h
  obtain ⟨target, m₃, htarget, h⟩ := bind_eq_ok h
  obtain ⟨_, m₄, hset, hpush⟩ := bind_eq_ok h
  obtain ⟨hv, hheap, hpeek⟩ := peek_of_pop hv
  obtain ⟨hk, hheap', hpeek'⟩ := peek_of_pop hk
  obtain ⟨htarget, hheap'', -⟩ := peek_of_pop htarget
  have hh : m₃.heap = m.heap := hheap''.trans (hheap'.trans hheap)
  have hh' : m'.heap = m₄.heap := heap_of_changeStack hpush
  rw [lift_apply] at hset
  split at hset <;> cases hset
  rename_i hset
  rw [hh] at hset
  obtain hlasts | ⟨d, rfl, hheap⟩ := setItem_eq_ok hset
  · exact .inl (show Heap.Lasts m.heap m'.heap from hh' ▸ hlasts)
  · have hk := (hpeek 0 _).mp hk
    have htarget := (hpeek 1 _).mp ((hpeek' 0 _).mp htarget)
    exact .inr ⟨d, k, v, htarget, hk, hv, _, hh'.trans hheap⟩

/-! ## Whatever happens -/

/-- Without functions of a host an instruction changes at most a dictionary that it asks. -/
theorem persists_or_consults (h : instruction HostFunctions.none m = .ok () m') :
    Persists m m' ∨ ∃ d q, Consults m d q ∧ Alters d m m' := by
  obtain ⟨op, x, hx⟩ := exists_fetches h
  -- A call and a written subscript can change a dictionary, the other instructions cannot.
  by_cases hcall : op = .call ∨ op = .invoke
  · obtain hpersists | ⟨argc, n, receiver, m₁, hruns, hat, hnative⟩ := call_cases hx hcall h
    · exact .inl hpersists
    · obtain hpersists | ⟨d, q, ⟨harity, htop, hcode, hargs, hq⟩, f, hheap⟩ :=
        callNative_cases hnative
      · exact .inl ((Stands.of_eq hat.heap).lasts.then hpersists)
      · have hposes : Poses m argc n receiver d q := ⟨harity, (hat.top _).mp htop, hcode, hargs, hq⟩
        exact .inr ⟨d, q, .call hruns hposes, f, hat.heap ▸ hheap⟩
  · rw [not_or] at hcall
    by_cases hop : op = .subscriptWrite
    · subst hop
      have hskip : Lasts m (m.skip (Opcode.size .subscriptWrite)) := (Stands.of_eq rfl).lasts
      have hwrite := hx.instruction_eq.symm.trans h
      cases x with
      | nothing =>
        obtain hlasts | ⟨d, k, v, htarget, hk, hv, ha⟩ := writeItem_cases hwrite
        · exact .inl (trans_of Lasts hskip hlasts).persists
        · rw [peek_skip] at htarget hk hv
          exact .inr ⟨d, _, .write hx htarget hk hv, ha⟩
      | _ => cases hwrite
    · have := @lasts_execute HostFunctions.none op hop hcall
      obtain ⟨f, shown, hf, hrow, -⟩ := hx
      rw [instruction_of_opcode hf (Listing.opcode_of_rowAt hrow)] at h
      have hskip : Lasts m (m.skip 1) := (Stands.of_eq rfl).lasts
      have hlasts := after_ok h ▸ lasts_after (execute HostFunctions.none op) (m.skip 1)
      exact .inl (trans_of Lasts hskip hlasts).persists

theorem peek_ne_unknownKey {n : Nat} {s : String} : peek n m ≠ .error (.unknownKey s) m' := by
  intro h
  cases ht : m.running with
  | none => simp [peek, ht] at h
  | some t =>
    simp only [peek, ht] at h
    by_cases hn : n < t.fiber.stack.values.size
    · rw [OperandStack.peek_of_lt hn] at h
      cases h
    · rw [OperandStack.peek_of_le (Nat.not_lt.mp hn)] at h
      cases h

/-- An instruction that asks a dictionary and succeeds leaves the reply. -/
theorem Consults.exists_topAfter (hc : Consults m d q) (hl : InLimit m)
    (ht : m.heap.dictionary d = .ok t) (h : instruction host m = .ok () m') :
    ∃ r, topAfter (instruction host) m = .ok r m' := by
  have hs := @Consults.serves host m d t q hc hl ht
  have hpeek : topAfter (instruction host) m = peek 0 m' := by
    simp only [topAfter, bind_apply, h]
  cases hr : topAfter (instruction host) m with
  | ok r m₁ =>
    cases (topAfter_eq_ok hr).symm.trans h
    exact ⟨r, rfl⟩
  | error e m₁ =>
    rw [hr] at hs
    cases hs with
    | misses => exact absurd (hpeek.symm.trans hr) peek_ne_unknownKey

section

variable (hh : host.WellBehaved G)
include hh

theorem Managed.inLimit (hm : Managed host m) : InLimit m :=
  (hm.reachable.bounded hh.harmless).inLimit

/-- What fails leaves texts and dictionaries as they are, unless a function of the host runs. -/
theorem Managed.persists_of_error (hm : Managed host m) {e : Fault}
    (h : instruction host m = .error e m') (hfit : m'.room ≤ Heap.slotLimit) : Persists m m' ∨
    ∃ m₀ m₁, Prepares m.heap m₀.heap ∧ HostRuns host m₀ m₁ ∧ m'.heap = m₁.heap := by
  have := hh.careful.tends
  have ht := after_error h ▸ tends_after (instruction host) m
  have hs := hm.sound hh (ht.room_le.trans hfit)
  rw [← after_error h] at hfit
  obtain hsame | hruns := hs.instruction_or_host hh.careful hfit
  · rw [hsame] at h
    rw [after_error (hsame.trans h)] at hfit
    exact .inl ((hs.spared_of_none (hm.bounded hh) h hfit).persists ht)
  · rw [after_error h] at hruns
    exact .inr hruns

/-- Whatever happens, at most a dictionary changes that is asked and replies, unless a function of
the host runs. -/
theorem Managed.persists_or_alters (hm : Managed host m) (h : Happens host m m')
    (hfit : m'.room ≤ Heap.slotLimit) : Persists m m' ∨
    (∃ d, Alters d m m' ∧ ∀ t, m.heap.dictionary d = .ok t →
      ∃ q x r, Asking host m d q x ∧ x m = .ok r m') ∨
    ∃ m₀ m₁, Prepares m.heap m₀.heap ∧ HostRuns host m₀ m₁ ∧ m'.heap = m₁.heap := by
  have hs := hm.sound hh ((h.room_le hh).trans hfit)
  cases h with
  | hostCall hv h =>
    obtain hpersists | ⟨b, d, rest, q, r, hrest, hq, hrun, hd⟩ :=
      h.persists_or_asks hs.heap.toArena hfit
    · exact .inl hpersists
    · exact .inr (.inl ⟨d, hd, fun _ _ => ⟨q, _, r, .host hv hrest hq, hrun⟩⟩)
  | @start m' p hv h => exact .inl (after_ok h ▸ lasts_after (Machine.start p) m).persists
  | step h =>
    cases h with
    | outside h => cases h <;> exact .inl (.of_eq rfl)
    | safePoint h => exact .inl (after_ok h ▸ loses_after Machine.safePoint m).persists
    | instruction h =>
      rw [← after_ok h] at hfit
      obtain hsame | hruns := hs.instruction_or_host hh.careful hfit
      · obtain hpersists | ⟨d, q, hc, hd⟩ := persists_or_consults (hsame.symm.trans h)
        · exact .inl hpersists
        · refine .inr (.inl ⟨d, hd, fun t ht => ?_⟩)
          obtain ⟨r, hr⟩ := hc.exists_topAfter (hm.inLimit hh) ht h
          exact ⟨q, _, r, .program hc, hr⟩
      · rw [after_ok h] at hruns
        exact .inr (.inr hruns)
  | @fault m₁ h =>
    cases h with
    | @start p _ hv h =>
      exact .inl ((after_error h ▸ lasts_after (Machine.start p) m).persists.congr rfl)
    | safePoint h =>
      exact .inl ((after_error h ▸ loses_after Machine.safePoint m).persists.congr rfl)
    | instruction h =>
      obtain hpersists | hruns := hm.persists_of_error hh h hfit
      · exact .inl (hpersists.congr rfl)
      · exact .inr (.inr hruns)

/-- A dictionary that does not reply stays the same finite map, unless a function of the host
runs. -/
theorem Managed.mapping?_eq (hm : Managed host m) (h : Happens host m m')
    (hfit : m'.room ≤ Heap.slotLimit) (hmap : m.heap.mapping? d = some map)
    (hd : m'.heap.isLive d) (hnone : ∀ q x r, Asking host m d q x → x m ≠ .ok r m')
    (hruns : ∀ m₀ m₁, Prepares m.heap m₀.heap → HostRuns host m₀ m₁ → m'.heap ≠ m₁.heap) :
    m'.heap.mapping? d = some map := by
  obtain hpersists | ⟨d', halters, hasks⟩ | ⟨m₀, m₁, hprepared, hrun, hheap⟩ :=
    hm.persists_or_alters hh h hfit
  · have hs := hm.sound hh ((h.room_le hh).trans hfit)
    exact hpersists.mapping?_eq hs ((hm.happens hh h hfit).sound hh hfit) hfit hmap hd
  · by_cases hne : d = d'
    · subst hne
      obtain ⟨t, ht, -⟩ := Heap.mapping?_eq_some.mp hmap
      obtain ⟨q, x, r, hask, hx⟩ := hasks t ht
      exact absurd hx (hnone q x r hask)
    · exact halters.mapping?_ne hne hmap
  · exact absurd hheap (hruns m₀ m₁ hprepared hrun)

end

/-! ## Replies -/

section

variable (hh : host.WellBehaved G)
include hh

theorem tends_topAfter (m : Machine) : Tends m (after (topAfter (instruction host)) m) := by
  have := hh.careful.tends
  have : Makes Tends (topAfter (instruction host)) := .bind inferInstance fun _ => inferInstance
  exact tends_after _ m

theorem Asking.room_le (ha : Asking host m d q x) : m.room ≤ (after x m).room := by
  cases ha with
  | program => exact (tends_topAfter hh m).room_le
  | host => exact room_le_after _ m

theorem Asking.room_le_of_ok (ha : Asking host m d q x) (h : x m = .ok r m') :
    m.room ≤ m'.room := after_ok h ▸ ha.room_le hh

theorem Managed.asking (hm : Managed host m) (hd : m.heap.isLive d) (ha : Asking host m d q x)
    (h : x m = .ok r m') (hfit : m'.room ≤ Heap.slotLimit) : Managed host m' :=
  hm.happens hh (ha.happens hd h) hfit

theorem Managed.serves (hm : Managed host m) (hmap : m.heap.mapping? d = some map)
    (ha : Asking host m d q x) : ∃ t, m.heap.dictionary d = .ok t ∧ m.heap.mapping t = map ∧
      Serves Machine.heap m.heap d t q (x m) := by
  obtain ⟨t, ht, hmap⟩ := Heap.mapping?_eq_some.mp hmap
  exact ⟨t, ht, hmap, ha.serves (hm.inLimit hh) ht⟩

/-- A dictionary that replies answers as the finite map and becomes what the map becomes. -/
theorem Managed.replies (hm : Managed host m) (hmap : m.heap.mapping? d = some map)
    (ha : Asking host m d q x) (h : x m = .ok r m') (hfit : m'.room ≤ Heap.slotLimit) :
    (q.map m.heap.key).Answers m'.heap map r ∧
      m'.heap.mapping? d = some ((q.map m.heap.key).change map) ∧
      ∀ s o, s ≠ d → m.heap.get? s = some o → m'.heap.get? s = some o := by
  have hs := hm.sound hh ((ha.room_le_of_ok hh h).trans hfit)
  obtain ⟨t, ht, rfl, hserves⟩ := hm.serves hh hmap ha
  rw [h] at hserves
  exact hserves.answers hm.wellFormed hfit ht (hs.keeps_keys ht)

/-- What fails for want of a key has changed nothing. -/
theorem Managed.spared_of_asking (hm : Managed host m) {s : String} (ha : Asking host m d q x)
    (h : x m = .error (.unknownKey s) m') (hfit : m'.room ≤ Heap.slotLimit) : Spared m m' := by
  cases ha with
  | program hc =>
    rcases bind_eq_error h with h | ⟨_, m₁, -, hpeek⟩
    · have := hh.careful.tends
      have hroom := after_error h ▸ room_le_after (instruction host) m
      have hs := hm.sound hh (hroom.trans hfit)
      rw [hc.instruction_eq] at h
      exact hs.spared_of_none (hm.bounded hh) h hfit
    · exact absurd hpeek peek_ne_unknownKey
  | host =>
    have hmild := Fails.row (M := Mild) _ _ _ h
    exact (spared_of_mild hmild hm.wellFormed.toArena hfit).2

theorem Managed.exists_reply (hm : Managed host m) (hmap : m.heap.mapping? d = some map)
    (ha : Asking host m d q x) (hfound : ¬ (q.map m.heap.key).Misses map) :
    ∃ r m', x m = .ok r m' := by
  obtain ⟨t, -, rfl, hserves⟩ := hm.serves hh hmap ha
  exact hserves.exists_reply hm.wellFormed hfound

theorem Managed.missing (hm : Managed host m) (hmap : m.heap.mapping? d = some map)
    (ha : Asking host m d q x) (hfit : m.room ≤ Heap.slotLimit)
    (hmiss : (q.map m.heap.key).Misses map) : ∃ k m', (q = .get k ∨ q = .read k) ∧
      x m = .error (.unknownKey (m.heap.display k)) m' ∧ m'.heap = m.heap ∧ Spared m m' := by
  obtain ⟨t, -, rfl, hserves⟩ := hm.serves hh hmap ha
  obtain ⟨k, m', hq, hx, hheap⟩ := hserves.exists_fault hm.wellFormed hmiss
  have hfit' : m'.room ≤ Heap.slotLimit := by rwa [room, hheap]
  exact ⟨k, m', hq, hx, hheap, hm.spared_of_asking hh ha hx hfit'⟩

end

/-! ## Histories of a dictionary -/

/-- What a dictionary has been asked while a machine came from one state to another, each key
as what it stood for. A function of the host that runs may ask several things. In between
anything may happen, and the dictionary stays held. -/
inductive Asked (host : HostFunctions) (d : Handle) (m : Machine) :
    List (Query Key) → Machine → Prop
  | nothing : Asked host d m [] m
  | asked {qs : List (Query Key)} {m₁ m' : Machine} {q : Query Value} {x : Act Value} {r : Value} :
      Asked host d m qs m₁ → Asking host m₁ d q x → x m₁ = .ok r m' →
      Asked host d m (qs ++ [q.map m₁.heap.key]) m'
  | requested {qs qs' : List (Query Key)} {m₁ m₂ m₃ m' : Machine} : Asked host d m qs m₁ →
      Happens host m₁ m' → Prepares m₁.heap m₂.heap → HostRuns host m₂ m₃ → m'.heap = m₃.heap →
      Requests d m₂ qs' m₃ → Asked host d m (qs ++ qs') m'
  | other {qs : List (Query Key)} {m₁ m' : Machine} : Asked host d m qs m₁ → Happens host m₁ m' →
      (∀ q x r, Asking host m₁ d q x → x m₁ ≠ .ok r m') →
      (∀ m₂ m₃, Prepares m₁.heap m₂.heap → HostRuns host m₂ m₃ → m'.heap ≠ m₃.heap) →
      Held m' d → Asked host d m qs m'

/-- Something happens, and the dictionary stays held all the time. -/
def Retaining (host : HostFunctions) (d : Handle) (m m' : Machine) : Prop :=
  Happens host m m' ∧ Held m' d ∧ ¬ Takes host d m m'

section

variable (hh : host.WellBehaved G)
include hh

theorem Asked.room_le (h : Asked host d m qs m') : m.room ≤ m'.room := by
  induction h with
  | nothing => exact Nat.le_refl _
  | asked _ ha hx ih => exact ih.trans (ha.room_le_of_ok hh hx)
  | requested _ hstep _ _ _ _ ih => exact ih.trans (hstep.room_le hh)
  | other _ hstep _ _ _ ih => exact ih.trans (hstep.room_le hh)

/-- A dictionary is the finite map that has come of what it was asked. -/
theorem Asked.mapping?_eq (h : Asked host d m qs m') (hm : Managed host m)
    (hmap : m.heap.mapping? d = some map) (hfit : m'.room ≤ Heap.slotLimit) :
    Managed host m' ∧ m'.heap.mapping? d = some (qs.foldl Query.change map) := by
  -- The machine stays managed along the history, so that what it holds is live after each part.
  induction h with
  | nothing => exact ⟨hm, hmap⟩
  | asked _ ha hx ih =>
    obtain ⟨hm₁, hmap₁⟩ := ih ((ha.room_le_of_ok hh hx).trans hfit)
    rw [List.foldl_append, List.foldl_cons, List.foldl_nil]
    exact ⟨hm₁.asking hh (Heap.isLive_of_mapping? hmap₁) ha hx hfit,
      (hm₁.replies hh hmap₁ ha hx hfit).2.1⟩
  | @requested qs qs' m₁ m₂ m₃ m' _ hstep hprepared hruns hheap hrequests ih =>
    have hfit₁ := (hstep.room_le hh).trans hfit
    obtain ⟨hm₁, hmap₁⟩ := ih hfit₁
    have hfit₃ : m₃.room ≤ Heap.slotLimit := by rwa [room, ← hheap]
    have hmap₂ := hprepared.mapping?_eq (hm₁.sound hh hfit₁) hruns.sound
      (hrequests.room_le.trans hfit₃) hmap₁
    refine ⟨hm₁.happens hh hstep hfit, ?_⟩
    rw [List.foldl_append, hheap]
    exact (hrequests.mapping?_eq hruns.sound hmap₂ hfit₃).2
  | other _ hstep hnone hruns hheld ih =>
    obtain ⟨hm₁, hmap₁⟩ := ih ((hstep.room_le hh).trans hfit)
    have hm' := hm₁.happens hh hstep hfit
    have hd := hheld.isLive (hm'.sound hh hfit)
    exact ⟨hm', hm₁.mapping?_eq hh hstep hfit hmap₁ hd hnone hruns⟩

theorem room_le_of_retaining (h : ReflTransGen (Retaining host d) m m') : m.room ≤ m'.room := by
  induction h with
  | refl => exact Nat.le_refl _
  | tail _ hstep ih => exact ih.trans (hstep.1.room_le hh)

/-- What happens is that the dictionary is asked, or something else. -/
theorem Asked.exists_next (h : Asked host d m qs m₁) (hm : Managed host m)
    (hmap : m.heap.mapping? d = some map) (hstep : Retaining host d m₁ m')
    (hfit : m'.room ≤ Heap.slotLimit) : ∃ qs', Asked host d m qs' m' := by
  obtain ⟨hstep, hheld, hkept⟩ := hstep
  have hfit₁ := (hstep.room_le hh).trans hfit
  obtain ⟨hm₁, hmap₁⟩ := h.mapping?_eq hh hm hmap hfit₁
  by_cases hasked : ∃ q x r, Asking host m₁ d q x ∧ x m₁ = .ok r m'
  · obtain ⟨q, x, r, ha, hx⟩ := hasked
    exact ⟨_, h.asked ha hx⟩
  · by_cases hruns : ∃ m₂ m₃, Prepares m₁.heap m₂.heap ∧ HostRuns host m₂ m₃ ∧ m'.heap = m₃.heap
    · obtain ⟨m₂, m₃, hprepared, hruns, hheap⟩ := hruns
      have hfit₂ : m₂.room ≤ Heap.slotLimit := by
        rw [room, hheap] at hfit
        exact (hruns.room_le hh.careful).trans hfit
      have hmap₂ := hprepared.mapping?_eq (hm₁.sound hh hfit₁) hruns.sound hfit₂ hmap₁
      obtain ⟨qs', hrequests⟩ := exists_requests (hruns.hostCalls hh.careful)
        fun m₄ hbefore hafter => Decidable.byContradiction fun hgone => hkept
          ⟨hprepared, hruns, hheap, Heap.isLive_of_mapping? hmap₂, hbefore, hgone, hafter⟩
      exact ⟨_, h.requested hstep hprepared hruns hheap hrequests⟩
    · simp only [not_exists, not_and] at hasked hruns
      exact ⟨qs, h.other hstep hasked hruns hheld⟩

/-- There is no history in which it cannot be told what the dictionary was asked. -/
theorem Managed.exists_asked (hm : Managed host m) (hmap : m.heap.mapping? d = some map)
    (h : ReflTransGen (Retaining host d) m m') (hfit : m'.room ≤ Heap.slotLimit) :
    ∃ qs, Asked host d m qs m' := by
  induction h with
  | refl => exact ⟨[], .nothing⟩
  | tail _ hstep ih =>
    obtain ⟨qs, hasked⟩ := ih ((hstep.1.room_le hh).trans hfit)
    exact hasked.exists_next hh hm hmap hstep hfit

end

/-! ## New dictionaries -/

theorem mapping?_newDictionary {args : List Value} (hw : m.heap.WellFormed)
    (h : Builtin.newDictionary.run args m = .ok r m') (hfit : m'.room ≤ Heap.slotLimit) :
    ∃ d, r = .ofHandle d ∧ m'.heap.mapping? d = some ∅ := by
  obtain ⟨d, m₁, halloc, hresult⟩ := bind_eq_ok h
  cases hresult
  cases halloc
  have hnew := Heap.alloc_allocated hw.toArena (.dictionary .empty) hfit
  refine ⟨_, rfl, Heap.mapping?_eq_some.mpr ⟨.empty, ?_, rfl⟩⟩
  exact Heap.dictionary_eq_ok.mpr ⟨_, hnew.get?_self, rfl⟩

/-- A dictionary is made by the next instruction or by the host. -/
inductive Making (host : HostFunctions) (m : Machine) : Act Value → Prop
  | program {argc : Nat} {n : Native} {receiver : Option Value} : RunsNative m argc n receiver →
      n.code = .builtin .newDictionary → Making host m (topAfter (instruction host))
  | host (args : List Value) : Making host m (Builtin.newDictionary.run args)

theorem topAfter_callNative {argc : Nat} {n : Native} {receiver : Option Value}
    (h : topAfter (callNative host n argc receiver) m = .ok r m') :
    ∃ args m₁, runNative host n args m = .ok r m₁ ∧ m'.heap = m₁.heap := by
  obtain ⟨_, m₂, hcall, hpeek⟩ := bind_eq_ok h
  obtain rfl := unchanged_peek hpeek
  obtain ⟨given, v, m₁, -, -, hrun, hplace⟩ := exists_of_callNative hcall
  cases (peek_of_replaceTop hplace).symm.trans hpeek
  exact ⟨_, m₁, hrun, heap_of_changeStack hplace⟩

theorem Making.room_le (hh : host.WellBehaved G) (hx : Making host m x) (h : x m = .ok r m') :
    m.room ≤ m'.room := by
  rw [← after_ok h]
  cases hx with
  | program => exact (tends_topAfter hh m).room_le
  | host => exact room_le_after _ m

theorem Making.mapping?_eq (hx : Making host m x) (hw : m.heap.WellFormed) (h : x m = .ok r m')
    (hfit : m'.room ≤ Heap.slotLimit) : ∃ d, r = .ofHandle d ∧ m'.heap.mapping? d = some ∅ := by
  cases hx with
  | host args => exact mapping?_newDictionary hw h hfit
  | program hr hn =>
    obtain ⟨m₁, hat, hinst⟩ := hr.instruction_eq
    rw [topAfter_congr (hinst host)] at h
    obtain ⟨args, m₂, hrun, hheap⟩ := topAfter_callNative h
    simp only [runNative, hn] at hrun
    rw [room, hheap] at hfit
    rw [hheap]
    exact mapping?_newDictionary (hat.heap ▸ hw) hrun hfit

/-! ## What holds of dictionaries -/

/-- What holds of a dictionary that a machine holds, as long as the slots of the heap can be
told apart. What is held is not taken away. Whatever happens, it can be told what the dictionary
was asked, and the dictionary is the finite map that has come of that, with texts as keys for what
they say, other objects for themselves and everything else for its word. It answers as that map
does and nothing else changes, also in the middle of a function of the host. A key that is looked
up and not there is a fault that changes no object, and nothing at all between two things that
happen. -/
structure DictionaryGuarantees (host : HostFunctions) : Prop where
  held : ∀ {m d}, Grown host m → m.room ≤ Heap.slotLimit → Held m d → m.heap.isLive d
  begins : ∀ {m x r m'}, Grown host m → Making host m x → x m = .ok r m' →
    m'.room ≤ Heap.slotLimit → ∃ d, r = .ofHandle d ∧ m'.heap.mapping? d = some ∅
  asked : ∀ {m m' d map}, Grown host m → m.heap.mapping? d = some map →
    ReflTransGen (Retaining host d) m m' → m'.room ≤ Heap.slotLimit → ∃ qs, Asked host d m qs m'
  lasts : ∀ {m m' d map qs}, Grown host m → m.heap.mapping? d = some map →
    Asked host d m qs m' → m'.room ≤ Heap.slotLimit →
    m'.heap.mapping? d = some (qs.foldl Query.change map)
  answers : ∀ {m m₁ d map qs q x}, Grown host m → m.heap.mapping? d = some map →
    Asked host d m qs m₁ → Asking host m₁ d q x → (after x m₁).room ≤ Heap.slotLimit →
    ¬ (q.map m₁.heap.key).Misses (qs.foldl Query.change map) →
    ∃ r m', x m₁ = .ok r m' ∧
      (q.map m₁.heap.key).Answers m'.heap (qs.foldl Query.change map) r ∧
      ∀ s o, s ≠ d → m₁.heap.get? s = some o → m'.heap.get? s = some o
  misses : ∀ {m m₁ d map qs q x}, Grown host m → m.heap.mapping? d = some map →
    Asked host d m qs m₁ → Asking host m₁ d q x → m₁.room ≤ Heap.slotLimit →
    (q.map m₁.heap.key).Misses (qs.foldl Query.change map) →
    ∃ k m', (q = .get k ∨ q = .read k) ∧
      x m₁ = .error (.unknownKey (m₁.heap.display k)) m' ∧ m'.heap = m₁.heap ∧ Spared m₁ m'
  within : ∀ {m m₁ m₂ m₃ d map qs qs'} {b : Builtin} {rest q}, Grown host m →
    m.heap.mapping? d = some map → Asked host d m qs m₁ → Prepares m₁.heap m₂.heap → m₂.Sound →
    Requests d m₂ qs' m₃ → b.query? rest = some q →
    (after (b.run (.ofHandle d :: rest)) m₃).room ≤ Heap.slotLimit →
    (¬ (q.map m₃.heap.key).Misses ((qs ++ qs').foldl Query.change map) →
      ∃ r m', b.run (.ofHandle d :: rest) m₃ = .ok r m' ∧
        (q.map m₃.heap.key).Answers m'.heap ((qs ++ qs').foldl Query.change map) r ∧
        ∀ s o, s ≠ d → m₃.heap.get? s = some o → m'.heap.get? s = some o) ∧
    ((q.map m₃.heap.key).Misses ((qs ++ qs').foldl Query.change map) →
      ∃ k m', (q = .get k ∨ q = .read k) ∧ b.run (.ofHandle d :: rest) m₃ =
        .error (.unknownKey (m₃.heap.display k)) m' ∧ m'.heap = m₃.heap)

theorem dictionaryGuarantees (hh : host.WellBehaved G) : DictionaryGuarantees host where
  held hg hfit hd := hd.isLive ((hg.managed hh hfit).sound hh hfit)
  begins hg hx h hfit := by
    have hfit₀ := (hx.room_le hh h).trans hfit
    exact hx.mapping?_eq (hg.managed hh hfit₀).wellFormed h hfit
  asked hg hmap hrow hfit :=
    (hg.managed hh ((room_le_of_retaining hh hrow).trans hfit)).exists_asked hh hmap hrow hfit
  lasts hg hmap hasked hfit := by
    have hm := hg.managed hh ((hasked.room_le hh).trans hfit)
    exact (hasked.mapping?_eq hh hm hmap hfit).2
  answers hg hmap hasked ha hfit hfound := by
    have hfit₁ := (ha.room_le hh).trans hfit
    have hm := hg.managed hh ((hasked.room_le hh).trans hfit₁)
    obtain ⟨hm₁, hmap₁⟩ := hasked.mapping?_eq hh hm hmap hfit₁
    obtain ⟨r, m', hx⟩ := hm₁.exists_reply hh hmap₁ ha hfound
    rw [after_ok hx] at hfit
    obtain ⟨hanswers, -, hothers⟩ := hm₁.replies hh hmap₁ ha hx hfit
    exact ⟨r, m', hx, hanswers, hothers⟩
  misses hg hmap hasked ha hfit hmiss := by
    have hm := hg.managed hh ((hasked.room_le hh).trans hfit)
    obtain ⟨hm₁, hmap₁⟩ := hasked.mapping?_eq hh hm hmap hfit
    exact hm₁.missing hh hmap₁ ha hfit hmiss
  within hg hmap hasked hprepared hs hrequests hq hfit := by
    have hfit₃ := (room_le_after _ _).trans hfit
    have hfit₂ := hrequests.room_le.trans hfit₃
    have hfit₁ := hprepared.tends.room_le.trans hfit₂
    have hm := hg.managed hh ((hasked.room_le hh).trans hfit₁)
    obtain ⟨hm₁, hmap₁⟩ := hasked.mapping?_eq hh hm hmap hfit₁
    have hmap₂ := hprepared.mapping?_eq (hm₁.sound hh hfit₁) hs hfit₂ hmap₁
    obtain ⟨hs₃, hmap₃⟩ := hrequests.mapping?_eq hs hmap₂ hfit₃
    rw [← List.foldl_append] at hmap₃
    exact ⟨answers_run hs₃ hmap₃ hq hfit, misses_run hs₃ hmap₃ hq⟩

/-- The object that an act results in. -/
def made? (x : Act Value) (m : Machine) : Option Handle :=
  match x m with
  | .ok r _ => r.toHandle?
  | .error _ _ => none

theorem eq_ok_of_made? {x : Act Value} {m : Machine} {d : Handle} (h : made? x m = some d) :
    x m = .ok (.ofHandle d) (after x m) := by
  unfold made? at h
  cases hx : x m with
  | ok r m' =>
    simp only [hx] at h
    rw [after_ok hx, Value.ofHandle_of_toHandle? h]
  | error e m' => simp [hx] at h

/-- The machine whose host has the text of a key. -/
def asking₀ : Machine := after (intern "key") (new {})

/-- The machine in which the host has a dictionary as well. -/
def asking₁ : Machine := after (Builtin.newDictionary.run []) asking₀

theorem vacant_asking₀ : Vacant asking₀ :=
  HostCall.vacant (.intern "key") (quiescent_new {}).toVacant

theorem makes_asking₁ : HostCall asking₀ asking₁ := .builtin .newDictionary fun _ h => nomatch h

theorem grown_asking₀ : Grown host asking₀ :=
  ⟨{}, .single (.hostCall (quiescent_new {}).toVacant (.intern "key"))⟩

/-- The machine in which something stands under the text. -/
def asking₂ (d key : Handle) : Machine :=
  after (Builtin.dictPut.run [.ofHandle d, .ofHandle key, .ofBool true]) asking₁

/-- A dictionary answers for the text that was put, and not for another key. -/
theorem dictionaryGuarantees_probe : DictionaryGuarantees Probe.host ∧
    ∃ d key m', Grown Probe.host asking₁ ∧ asking₁.heap.mapping? d = some ∅ ∧
      Asked Probe.host d asking₁ [.put (.text "key") (.ofBool true)] (asking₂ d key) ∧
      Asking Probe.host (asking₂ d key) d (.get (.ofHandle key))
        (Builtin.dictGet.run [.ofHandle d, .ofHandle key]) ∧ m'.room ≤ Heap.slotLimit ∧
      Builtin.dictGet.run [.ofHandle d, .ofHandle key] (asking₂ d key) = .ok (.ofBool true) m' ∧
      Asking Probe.host (asking₂ d key) d (.get .nil)
        (Builtin.dictGet.run [.ofHandle d, .nil]) ∧
      ∃ m₁, Builtin.dictGet.run [.ofHandle d, .nil] (asking₂ d key) =
        .error (.unknownKey ((asking₂ d key).heap.display .nil)) m₁ := by
  have hdict : DictionaryGuarantees Probe.host := dictionaryGuarantees wellBehaved_probe
  have hkept : ∃ d ∈ made? (Builtin.newDictionary.run []) asking₀,
      ∃ key ∈ asking₀.heap.findText? "key",
      asking₁.heap.isLive key = true ∧ asking₁.heap.key (.ofHandle key) = .text "key" ∧
      yields (Builtin.dictPut.run [.ofHandle d, .ofHandle key, .ofBool true]) .nil asking₁ = true ∧
      (asking₂ d key).heap.isLive key = true ∧
      (asking₂ d key).heap.key (.ofHandle key) = .text "key" ∧
      (after (Builtin.dictGet.run [.ofHandle d, .ofHandle key]) (asking₂ d key)).room ≤
        Heap.slotLimit := by decide +kernel
  obtain ⟨d, hd, key, -, hlive₁, hkey₁, hput, hlive₂, hkey₂, hfit⟩ := hkept
  have hfit₂ : (asking₂ d key).room ≤ Heap.slotLimit := (room_le_after _ _).trans hfit
  have hfit₁ : asking₁.room ≤ Heap.slotLimit := (room_le_after _ _).trans hfit₂
  obtain ⟨r, hr, hmap⟩ := hdict.begins grown_asking₀ (.host []) (eq_ok_of_made? hd) hfit₁
  cases Value.ofHandle_injective hr
  have hv₁ : Vacant asking₁ := makes_asking₁.vacant vacant_asking₀
  have hg₁ : Grown Probe.host asking₁ :=
    grown_asking₀.happens (.single (.hostCall vacant_asking₀ makes_asking₁))
  have htrue (h : Heap) : h.Keeps (.ofBool true) :=
    Heap.keeps_scalar (Value.toHandle?_ofBool true)
  have hargs : ∀ v ∈ [Value.ofHandle key, .ofBool true], asking₁.heap.Keeps v := by
    simp [keeps_ofHandle hlive₁, htrue]
  have hasked : Asked Probe.host d asking₁ [.put (asking₁.heap.key (.ofHandle key)) (.ofBool true)]
      (asking₂ d key) := Asked.nothing.asked (.host hv₁ hargs rfl) (eq_ok_of_yields hput)
  rw [hkey₁] at hasked
  have hv₂ : Vacant (asking₂ d key) := (HostCall.builtin .dictPut fun v hv => by
    rcases List.mem_cons.mp hv with rfl | hv
    · exact keeps_ofHandle (Heap.isLive_of_mapping? hmap)
    · exact hargs v hv).vacant hv₁
  have hget : Asking Probe.host (asking₂ d key) d (.get (.ofHandle key))
      (Builtin.dictGet.run [.ofHandle d, .ofHandle key]) :=
    .host hv₂ (by simp [keeps_ofHandle hlive₂]) rfl
  have hmiss : Asking Probe.host (asking₂ d key) d (.get .nil)
      (Builtin.dictGet.run [.ofHandle d, .nil]) :=
    .host hv₂ (by simp [Heap.keeps_scalar Value.toHandle?_nil]) rfl
  have hfound : ¬ (Query.map (asking₂ d key).heap.key (.get (.ofHandle key))).Misses
      ([Query.put (.text "key") (.ofBool true)].foldl Query.change ∅) := by
    simp [Query.map, Query.Misses, Query.change, hkey₂]
  have hother : (Query.map (asking₂ d key).heap.key (.get .nil)).Misses
      ([Query.put (.text "key") (.ofBool true)].foldl Query.change ∅) := by
    simp [Query.map, Query.Misses, Query.change, Heap.key, Value.toHandle?_nil, Finmap.notMem_empty]
  obtain ⟨r, m', hanswer, hreply, -⟩ := hdict.answers hg₁ hmap hasked hget hfit hfound
  obtain ⟨k, m₁, hk, hfault, -⟩ := hdict.misses hg₁ hmap hasked hmiss hfit₂ hother
  simp only [Query.map, hkey₂, List.foldl, Query.change, Query.Answers, Finmap.lookup_insert,
    Option.some.injEq] at hreply
  subst hreply
  obtain rfl : k = .nil := by simpa [eq_comm] using hk
  rw [after_ok hanswer] at hfit
  exact ⟨hdict, d, key, m', hg₁, hmap, hasked, hget, hfit, hanswer, hmiss, m₁, hfault⟩

-- The key is looked up by a text that is interned again after the collection.
example : (match (do
      let d ← Builtin.newDictionary.run []
      bindGlobal "d" d
      discard (Builtin.dictPut.run [d, .ofHandle (← intern "key"), .ofBool true])
      discard collect
      Builtin.dictGet.run [d, .ofHandle (← intern "key")] : Act Value) (new {}) with
    | .ok v _ => some v
    | .error _ _ => none) = some (.ofBool true) := by
  decide +kernel

end Machine

end FiberMachine
