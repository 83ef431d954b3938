import FiberMachine.Proofs.Heap.Reordering
import FiberMachine.Proofs.Machine.Dictionaries

/-!
# JSON in another order

The members of a JSON object are sorted by their keys, which differ when the texts of the keys of
a dictionary do, and the names of fields always differ. A value that has no JSON form because it
is too deep is refused whichever member is looked at first, since nothing else is refused.
So heaps that differ in the order of entries and fields alone have the same JSON forms.
-/

namespace FiberMachine

variable {h h' h₁ : Heap} {r : Handle} {v : Value} {b b' : Body} {o o' : Object} {room : Nat}

/-- The values that the JSON form of a body takes in. -/
def Body.components : Body → List Value
  | .array items => items.toList
  | .dictionary entries => entries.toList.map Prod.snd
  | .instanceOf _ fields => fields.toList.map Prod.snd
  | _ => []

namespace Heap

/-- A heap whose objects hold live handles, name fields by texts, and show each dictionary by
keys that differ and do not lead back to it. -/
structure Presentable (h : Heap) : Prop where
  wellFormed : h.WellFormed
  live : ∀ r o, h.get? r = some o → ∀ s ∈ o.references, h.isLive s
  names : ∀ r o cls fields, h.get? r = some o → o.body = .instanceOf cls fields →
    ∀ e ∈ fields.toList, ∃ s, h.text e.1 = .ok s
  differ : h.KeysDiffer
  apart : ∀ r, ¬ h.InOwnKey r

end Heap

/-- In a sound machine only the keys of dictionaries matter. -/
theorem Machine.Sound.presentable {m : Machine} (hs : m.Sound) (hdiffer : m.heap.KeysDiffer)
    (hown : ∀ r, ¬ m.heap.InOwnKey r) : m.heap.Presentable where
  wellFormed := hs.heap
  live r o ho := Heap.AllLive.object (hs.objects r o ho)
  names r o cls fields ho hb e he := by
    have hbody := (hs.objects r o ho).body
    rw [hb] at hbody
    obtain ⟨p, hp, hkind⟩ := (hbody.2 e he).1
    cases htext : p.body <;> rw [Object.kind, htext] at hkind <;> cases hkind
    exact ⟨_, Heap.text_eq_ok.mpr ⟨p, hp, htext⟩⟩
  differ := hdiffer
  apart := hown

namespace Heap

/-! ## Rows of results -/

theorem mapM_eq_error {α β : Type} {f : α → Except Fault β} {l : List α} {fault : Fault}
    (h : l.mapM f = .error fault) : ∃ a ∈ l, f a = .error fault := by
  induction l with
  | nil => cases h
  | cons a l ih =>
    rw [List.mapM_cons] at h
    cases ha : f a with
    | error e =>
      simp only [ha, Bind.bind, Except.bind, Except.error.injEq] at h
      exact ⟨a, List.mem_cons_self, ha.trans (congrArg _ h)⟩
    | ok b =>
      cases hl : l.mapM f with
      | error e =>
        simp only [ha, hl, Bind.bind, Except.bind, Except.error.injEq] at h
        obtain ⟨c, hc, hfault⟩ := ih (hl.trans (congrArg _ h))
        exact ⟨c, List.mem_cons_of_mem _ hc, hfault⟩
      | ok bs => simp [ha, hl, Bind.bind, Except.bind, Pure.pure, Except.pure] at h

theorem mapM_ok_perm {α β : Type} {f : α → Except Fault β} {l l' : List α} {bs : List β}
    (hp : l.Perm l') (hl : l.mapM f = .ok bs) : ∃ bs', l'.mapM f = .ok bs' ∧ bs.Perm bs' := by
  obtain ⟨bs', hbs', hp'⟩ := List.perm_comp_forall₂ hp.symm (mapM_eq_ok.mp hl)
  exact ⟨bs', mapM_eq_ok.mpr hbs', hp'.symm⟩

/-- Where there is one way to fail, the order in which the results are asked for only orders
them. -/
theorem mapM_perm {α β : Type} {f : α → Except Fault β} {l l' : List α} {fault : Fault}
    (hp : l.Perm l') (hfault : ∀ a ∈ l, ∀ e, f a = .error e → e = fault) :
    (l.mapM f = .error fault ∧ l'.mapM f = .error fault) ∨
      ∃ bs bs', l.mapM f = .ok bs ∧ l'.mapM f = .ok bs' ∧ bs.Perm bs' := by
  cases hl : l.mapM f with
  | ok bs =>
    obtain ⟨bs', hbs', hp'⟩ := mapM_ok_perm hp hl
    exact .inr ⟨bs, bs', rfl, hbs', hp'⟩
  | error e =>
    obtain ⟨a, ha, he⟩ := mapM_eq_error hl
    obtain rfl := hfault a ha e he
    cases hl' : l'.mapM f with
    | ok bs' =>
      obtain ⟨bs, hbs, -⟩ := mapM_ok_perm hp.symm hl'
      cases hbs.symm.trans hl
    | error e' =>
      obtain ⟨a', ha', he'⟩ := mapM_eq_error hl'
      obtain rfl := hfault a' (hp.mem_iff.mpr ha') e' he'
      exact .inl ⟨rfl, rfl⟩

/-! ## JSON objects -/

section

variable {α : Type} {key : α → Except Fault String} {value : Value → Except Fault JsonValue}
  {entries entries' : List (α × Value)} {fault : Fault}

/-- The key and the value of a member, if there are both. -/
def jsonMember (key : α → Except Fault String) (value : Value → Except Fault JsonValue)
    (e : α × Value) : Except Fault (String × JsonValue) := do return (← key e.1, ← value e.2)

theorem jsonMember_eq_ok {name : String} {e : α × Value} {member : String × JsonValue}
    (hkey : key e.1 = .ok name) :
    jsonMember key value e = .ok member ↔ ∃ j, value e.2 = .ok j ∧ member = (name, j) := by
  rw [jsonMember, hkey]
  exact bind_return_eq_ok

theorem jsonMember_eq_error {name : String} {e : α × Value} (hkey : key e.1 = .ok name) :
    jsonMember key value e = .error fault ↔ value e.2 = .error fault := by
  rw [jsonMember, hkey]
  cases value e.2 <;> simp [Bind.bind, Except.bind, Pure.pure, Except.pure]

theorem jsonObject_eq : jsonObject key value entries =
    (entries.mapM (jsonMember key value)).map fun members =>
      .object (members.foldl (fun seen e => JsonValue.insertEntry e.1 e.2 seen) []) := by
  change (entries.mapM (jsonMember key value) >>= fun members => _) = _
  cases entries.mapM (jsonMember key value) <;> rfl

theorem exists_of_jsonObject_error (name : α → String)
    (hkey : ∀ e ∈ entries, key e.1 = .ok (name e.1))
    (h : jsonObject key value entries = .error fault) :
    ∃ e ∈ entries, value e.2 = .error fault := by
  rw [jsonObject_eq] at h
  cases hmembers : entries.mapM (jsonMember key value) with
  | ok members => rw [hmembers] at h; cases h
  | error e =>
    obtain ⟨entry, hentry, hfault⟩ := mapM_eq_error hmembers
    rw [hmembers] at h
    obtain rfl : e = fault := Except.error.inj h
    exact ⟨entry, hentry, (jsonMember_eq_error (hkey entry hentry)).mp hfault⟩

/-- The members of an object are sorted, so with different keys they have one order. -/
theorem jsonObject_perm (hp : entries.Perm entries') (name : α → String)
    (hkey : ∀ e ∈ entries, key e.1 = .ok (name e.1))
    (hdistinct : (entries.map fun e => name e.1).Nodup)
    (hfault : ∀ e ∈ entries, ∀ x, value e.2 = .error x → x = fault) :
    jsonObject key value entries' = jsonObject key value entries := by
  have hmember : ∀ e ∈ entries, ∀ x, jsonMember key value e = .error x → x = fault :=
    fun e he x hx => hfault e he x ((jsonMember_eq_error (hkey e he)).mp hx)
  rw [jsonObject_eq, jsonObject_eq]
  obtain ⟨hm, hm'⟩ | ⟨members, members', hm, hm', hperm⟩ := mapM_perm hp hmember
  · rw [hm, hm']
  · have hnames : entries.map (fun e => name e.1) = members.map Prod.fst := by
      rw [← List.forall₂_eq_eq_eq, List.forall₂_map_left_iff, List.forall₂_map_right_iff]
      refine ((List.forall₂_and_left _ _).mpr ⟨fun e he => hkey e he, mapM_eq_ok.mp hm⟩).imp ?_
      rintro e member ⟨hname, hok⟩
      obtain ⟨j, -, rfl⟩ := (jsonMember_eq_ok hname).mp hok
      rfl
    have hdistinct := hnames ▸ hdistinct
    have hdistinct' := (hperm.map Prod.fst).nodup_iff.mp hdistinct
    obtain ⟨hset, hsorted⟩ := foldl_insertEntry ((List.append_nil members).symm ▸ hdistinct) .nil
    obtain ⟨hset', hsorted'⟩ :=
      foldl_insertEntry ((List.append_nil members').symm ▸ hdistinct') .nil
    rw [List.append_nil] at hset hset'
    have heq := (hset'.trans (hperm.symm.trans hset.symm)).eq_of_pairwise
      (fun a b _ _ hab hba => absurd hba (String.lt_asymm hab)) hsorted' hsorted
    rw [hm, hm', Except.map, Except.map, heq]

end

/-! ## JSON values -/

theorem display_text {s : String} (hs : h.text r = .ok s) : h.display (.ofHandle r) = s := by
  obtain ⟨o, ho, hb⟩ := text_eq_ok.mp hs
  have hwritten : h.writeWithin 1 0 (.ofHandle r) = some s := by
    rw [writeWithin_object ho, if_neg (by decide), hb]
    rfl
  exact display_of_write hwritten

/-- A key of a JSON object is the text that a reader sees. -/
theorem jsonKey_eq_display (h : Heap) (v : Value) : h.jsonKey v = h.display v := by
  rw [jsonKey]
  cases hs : h.textOf? v with
  | none => rfl
  | some s =>
    obtain ⟨r, rfl, hr⟩ := textOf?_eq_some.mp hs
    exact (display_text hr).symm

/-- The JSON form of a body fails only where one of the values inside it does. -/
theorem bodyToJson_error {inside : Value → Except Fault JsonValue} {fault : Fault}
    (hnames : ∀ cls fields, b = .instanceOf cls fields →
      ∀ e ∈ fields.toList, h.text e.1 = .ok (h.nameText e.1 "?"))
    (hfault : h.bodyToJson v inside b = .error fault) :
    ∃ w ∈ b.components, inside w = .error fault := by
  cases b with
  | array items =>
    rw [bodyToJson] at hfault
    cases hitems : items.toList.mapM inside with
    | ok js => rw [hitems] at hfault; cases hfault
    | error e =>
      rw [hitems] at hfault
      cases hfault
      exact mapM_eq_error hitems
  | dictionary entries =>
    rw [bodyToJson] at hfault
    obtain ⟨e, he, hvalue⟩ := exists_of_jsonObject_error h.jsonKey (fun _ _ => rfl) hfault
    exact ⟨e.2, List.mem_map_of_mem he, hvalue⟩
  | instanceOf cls fields =>
    obtain ⟨e, he, hvalue⟩ :=
      exists_of_jsonObject_error (h.nameText · "?") (hnames cls fields rfl) hfault
    exact ⟨e.2, List.mem_map_of_mem he, hvalue⟩
  | _ => cases hfault

theorem toJson_stale (hr : h.get? r = none) (room : Nat) :
    h.toJson (room + 1) (.ofHandle r) = .error .dangling := by
  rw [toJson, Value.toBool?_ofHandle, Value.toFloat?_ofHandle, Value.toHandle?_ofHandle]
  simp only [Heap.get, hr, Bind.bind, Except.bind]

theorem exists_toJson_scalar (hv : v.toHandle? = none) :
    ∃ j, ∀ (h : Heap) (room : Nat), h.toJson (room + 1) v = .ok j := by
  cases hb : v.toBool? with
  | some b => exact ⟨_, fun h room => by simp only [toJson, hb]; rfl⟩
  | none =>
    cases hx : v.toFloat? with
    | some x => exact ⟨_, fun h room => by simp only [toJson, hb, hx]; rfl⟩
    | none => exact ⟨_, fun h room => by simp only [toJson, hb, hx, hv]; rfl⟩

namespace Presentable

theorem field_names (hp : h.Presentable) (ho : h.get? r = some o) (cls : Handle) (fields : Members)
    (hb : o.body = .instanceOf cls fields) :
    ∀ e ∈ fields.toList, h.text e.1 = .ok (h.nameText e.1 "?") := by
  intro e he
  obtain ⟨s, hs⟩ := hp.names r o cls fields ho hb e he
  simp only [hs, nameText]

/-- What the JSON form of an object takes in is live. -/
theorem live_components (hp : h.Presentable) (ho : h.get? r = some o) (hv : v ∈ o.body.components)
    (s : Handle) (hs : v.toHandle? = some s) : h.isLive s := by
  apply hp.live r o ho s
  apply List.mem_append_right
  cases hb : o.body with
  | array items =>
    rw [hb] at hv
    exact List.mem_filterMap.mpr ⟨v, hv, hs⟩
  | dictionary entries =>
    rw [hb] at hv
    obtain ⟨e, he, rfl⟩ := List.mem_map.mp hv
    exact List.mem_filterMap.mpr ⟨e.2, List.mem_flatMap.mpr ⟨e, he, by simp⟩, hs⟩
  | instanceOf cls fields =>
    rw [hb] at hv
    obtain ⟨e, he, rfl⟩ := List.mem_map.mp hv
    exact List.mem_cons_of_mem _ (List.mem_flatMap.mpr ⟨e, he, by simp [hs]⟩)
  | _ =>
    rw [hb] at hv
    cases hv

/-- A value that is live has a JSON form, unless it is too deep. -/
theorem toJson_error (hp : h.Presentable) {fault : Fault}
    (hv : ∀ s, v.toHandle? = some s → h.isLive s) (hfault : h.toJson room v = .error fault) :
    fault = .failed .jsonDepth := by
  induction room generalizing v with
  | zero => exact (Except.error.inj hfault).symm
  | succ room ih =>
    cases hr : v.toHandle? with
    | some r =>
      obtain rfl := Value.ofHandle_of_toHandle? hr
      obtain ⟨o, ho⟩ := isLive_iff.mp (hv r hr)
      rw [toJson_ofHandle ho] at hfault
      obtain ⟨w, hw, hinside⟩ := bodyToJson_error (hp.field_names ho) hfault
      exact ih (fun s hs => hp.live_components ho hw s hs) hinside
    | none =>
      obtain ⟨j, hj⟩ := exists_toJson_scalar hr
      cases (hj h room).symm.trans hfault

end Presentable

theorem Reordered.bodyToJson (hre : h.Reordered h') (hp : h.Presentable) (ho : h.get? r = some o)
    (hb : o.body.Reordered b') {inside : Value → Except Fault JsonValue}
    (hinside : ∀ w ∈ o.body.components, ∀ x, inside w = .error x → x = .failed .jsonDepth) :
    h'.bodyToJson v inside b' = h.bodyToJson v inside o.body := by
  have hdisplay : h'.display = h.display := funext (hre.display hp.differ hp.apart)
  have hkey : h'.jsonKey = h.jsonKey := funext fun k => by
    rw [jsonKey_eq_display, jsonKey_eq_display, hdisplay]
  have htext : h'.text = h.text := funext hre.text
  have hdiffer := hp.differ r o ho
  have hnames := hp.field_names ho
  generalize o.body = b at hb hinside hdiffer hnames ⊢
  cases hb with
  | refl => cases b' <;> simp only [Heap.bodyToJson, hkey, htext, hdisplay]
  | @dictionary entries entries' he =>
    simp only [Heap.bodyToJson, hkey]
    apply jsonObject_perm he h.jsonKey (fun _ _ => rfl)
    · simpa only [jsonKey_eq_display, Body.keys, List.map_map, Function.comp_def] using hdiffer
    · exact fun e hmem => hinside e.2 (List.mem_map_of_mem hmem)
  | @instanceOf cls fields fields' hf =>
    simp only [Heap.bodyToJson, htext]
    have hname := hnames cls fields rfl
    apply jsonObject_perm hf (h.nameText · "?") hname
    · refine List.Nodup.map_on (fun e he e' he' heq => ?_) (List.Nodup.of_map _ fields.nodup)
      apply List.inj_on_of_nodup_map fields.nodup he he'
      exact (hp.wellFormed.eq_iff_of_text (hname e he) (hname e' he')).mpr heq
    · exact fun e hmem => hinside e.2 (List.mem_map_of_mem hmem)

theorem Reordered.toJson (hre : h.Reordered h') (hp : h.Presentable) (room : Nat) (v : Value) :
    h'.toJson room v = h.toJson room v := by
  induction room generalizing v with
  | zero => rfl
  | succ room ih =>
    cases hr : v.toHandle? with
    | none =>
      obtain ⟨j, hj⟩ := exists_toJson_scalar hr
      rw [hj, hj]
    | some r =>
      obtain rfl := Value.ofHandle_of_toHandle? hr
      rcases hre.cases r with ⟨ho, ho'⟩ | ⟨o, o', ho, ho', hoo⟩
      · rw [toJson_stale ho, toJson_stale ho']
      · rw [toJson_ofHandle ho, toJson_ofHandle ho', funext ih]
        apply hre.bodyToJson hp ho hoo.body
        exact fun w hw x hx => hp.toJson_error (hp.live_components ho hw) hx

end Heap
end FiberMachine
