import Mathlib.Data.List.Perm.Basic
import FiberMachine.Native.Json
import FiberMachine.Proofs.Heap.Interning
import FiberMachine.Proofs.Json.Libraries

/-!
# The tree of a value

A value on the heap shows a JSON tree when it has the shape of the tree, the entries of a
dictionary in any order. The tree that is written for a value is the one that it shows.
-/

namespace FiberMachine

namespace Value

theorem isNumber_nil : nil.isNumber = false := by decide

theorem toBool?_nil : nil.toBool? = none := by decide

theorem toFloat?_nil : nil.toFloat? = none := by
  simp only [toFloat?, toDouble?, isNumber_nil, Bool.false_eq_true, ↓reduceIte, Option.map_none]

theorem toBool?_of_toFloat? {v : Value} {x : Float} (hx : v.toFloat? = some x) :
    v.toBool? = none := by
  obtain ⟨w, hw, -⟩ := Option.map_eq_some_iff.mp hx
  have hnumber : v.isNumber := (Option.ite_some_none_eq_some.mp hw).1
  simp only [isNumber, isReserved, Bool.not_eq_true', Bool.or_eq_false_iff] at hnumber
  simp [toBool?, isBool, hnumber]

end Value

namespace Heap

open JsonValue

variable {h : Heap} {r : Handle} {v w : Value} {n room : Nat} {j : JsonValue}
  {Good : Float → Prop}

theorem array_eq_ok {items : Array Value} :
    h.array r = .ok items ↔ ∃ o, h.get? r = some o ∧ o.body = .array items := by
  simp only [array, Heap.get]
  cases h.get? r with
  | none => simp
  | some o => cases hb : o.body <;> simp [hb]

theorem dictionary_eq_ok {t : Table Value Value} :
    h.dictionary r = .ok t ↔ ∃ o, h.get? r = some o ∧ o.body = .dictionary t := by
  simp only [dictionary, Heap.get]
  cases h.get? r with
  | none => simp
  | some o => cases hb : o.body <;> simp [hb]

theorem textOf?_eq_some {s : String} :
    h.textOf? v = some s ↔ ∃ r, v = .ofHandle r ∧ h.text r = .ok s := by
  simp only [textOf?]
  cases hr : v.toHandle? with
  | none =>
    refine iff_of_false nofun ?_
    rintro ⟨r, rfl, -⟩
    simp [Value.toHandle?_ofHandle] at hr
  | some r =>
    obtain rfl := Value.ofHandle_of_toHandle? hr
    simp only [Value.ofHandle_injective.eq_iff, ↓existsAndEq, true_and]
    cases h.text r <;> simp [Except.toOption]

theorem WellFormed.eq_of_textOf? (hw : h.WellFormed) {s : String} (hv : h.textOf? v = some s)
    (hv' : h.textOf? w = some s) : v = w := by
  obtain ⟨r, rfl, hr⟩ := textOf?_eq_some.mp hv
  obtain ⟨r', rfl, hr'⟩ := textOf?_eq_some.mp hv'
  rw [(hw.eq_iff_of_text hr hr').mpr rfl]

/-- A value that has the shape of a JSON tree. -/
inductive Shows (h : Heap) : JsonValue → Value → Prop
  | null : Shows h .null .nil
  | bool (b : Bool) : Shows h (.bool b) (.ofBool b)
  | number {x : Float} {v : Value} : v.toFloat? = some x → Shows h (.number x) v
  | text {s : String} {r : Handle} : h.text r = .ok s → Shows h (.text s) (.ofHandle r)
  | array {items : List JsonValue} {vs : Array Value} {r : Handle} : h.array r = .ok vs →
      List.Forall₂ (Shows h) items vs.toList → Shows h (.array items) (.ofHandle r)
  | object {entries : List (String × JsonValue)} {t : Table Value Value}
      {es : List (Value × Value)} {r : Handle} : h.dictionary r = .ok t → es.Perm t.toList →
      List.Forall₂ (fun s key => h.textOf? key = some s) (entries.map Prod.fst)
        (es.map Prod.fst) →
      List.Forall₂ (Shows h) (entries.map Prod.snd) (es.map Prod.snd) →
      Shows h (.object entries) (.ofHandle r)

/-- A value that JSON has a form for, with no more levels of arrays and dictionaries than a
number: the keys are texts, and the numbers are finite and of a given kind. -/
inductive JsonLike (Good : Float → Prop) (h : Heap) : Nat → Value → Prop
  | nil {n : Nat} : JsonLike Good h n .nil
  | bool {n : Nat} (b : Bool) : JsonLike Good h n (.ofBool b)
  | number {n : Nat} {x : Float} {v : Value} : v.toFloat? = some x → x.isFinite → Good x →
      JsonLike Good h n v
  | text {n : Nat} {s : String} {r : Handle} : h.text r = .ok s → JsonLike Good h n (.ofHandle r)
  | array {n : Nat} {vs : Array Value} {r : Handle} : h.array r = .ok vs →
      (∀ v ∈ vs.toList, JsonLike Good h n v) → JsonLike Good h (n + 1) (.ofHandle r)
  | dictionary {n : Nat} {t : Table Value Value} {r : Handle} : h.dictionary r = .ok t →
      (∀ e ∈ t.toList, ∃ s, h.textOf? e.1 = some s) → (∀ e ∈ t.toList, JsonLike Good h n e.2) →
      JsonLike Good h (n + 1) (.ofHandle r)

/-! ## Writing a tree -/

theorem bind_return_eq_ok {α β : Type} {x : Except Fault α} {f : α → β} {b : β} :
    (do return f (← x)) = (.ok b : Except Fault β) ↔ ∃ a, x = .ok a ∧ b = f a := by
  cases x <;> simp [Bind.bind, Except.bind, Pure.pure, Except.pure, eq_comm]

theorem mapM_eq_ok {α β : Type} {f : α → Except Fault β} {l : List α} {l' : List β} :
    l.mapM f = .ok l' ↔ List.Forall₂ (fun a b => f a = .ok b) l l' := by
  induction l generalizing l' with
  | nil => simp [Pure.pure, Except.pure, eq_comm]
  | cons a l ih =>
    simp only [List.mapM_cons, List.forall₂_cons_left_iff, ← ih]
    cases f a with
    | error fault => simp [Bind.bind, Except.bind]
    | ok b => cases l.mapM f <;> simp [Bind.bind, Except.bind, Pure.pure, Except.pure, eq_comm]

theorem exists_forall₂ {α β : Type} {R : α → β → Prop} {l : List α} (hl : ∀ a ∈ l, ∃ b, R a b) :
    ∃ l', List.Forall₂ R l l' := by
  induction l with
  | nil => exact ⟨[], .nil⟩
  | cons a l ih =>
    obtain ⟨⟨b, hb⟩, hrest⟩ := List.forall_mem_cons.mp hl
    obtain ⟨l', hl'⟩ := ih hrest
    exact ⟨b :: l', .cons hb hl'⟩

theorem forall_of_forall₂ {α β : Type} {R : α → β → Prop} {p : β → Prop} {l : List α} {l' : List β}
    (hl : List.Forall₂ R l l') (hp : ∀ a ∈ l, ∀ b, R a b → p b) : ∀ b ∈ l', p b := by
  induction hl with
  | nil => exact nofun
  | cons h _ ih =>
    obtain ⟨hfirst, hrest⟩ := List.forall_mem_cons.mp hp
    exact List.forall_mem_cons.mpr ⟨hfirst _ h, ih hrest⟩

theorem insertEntry_perm {key : String} {seen : List (String × JsonValue)}
    (hk : key ∉ seen.map Prod.fst) (j : JsonValue) :
    (insertEntry key j seen).Perm ((key, j) :: seen) := by
  induction seen with
  | nil => exact .refl _
  | cons e seen ih =>
    obtain ⟨hne, hrest⟩ := List.ne_and_not_mem_of_not_mem_cons hk
    simp only [insertEntry, hne, ↓reduceIte]
    split
    · exact .refl _
    · exact ((ih hrest).cons e).trans (.swap ..)

theorem pairwise_insertEntry {key : String} {seen : List (String × JsonValue)}
    (hk : key ∉ seen.map Prod.fst) (hs : seen.Pairwise (·.1 < ·.1)) (j : JsonValue) :
    (insertEntry key j seen).Pairwise (·.1 < ·.1) := by
  induction seen with
  | nil => exact List.pairwise_singleton ..
  | cons e seen ih =>
    obtain ⟨hne, hrest⟩ := List.ne_and_not_mem_of_not_mem_cons hk
    obtain ⟨he, hs'⟩ := List.pairwise_cons.mp hs
    simp only [insertEntry, hne, ↓reduceIte]
    split
    · rename_i hlt
      exact List.pairwise_cons.mpr ⟨List.forall_mem_cons.mpr
        ⟨hlt, fun e' he' => String.lt_trans hlt (he e' he')⟩, hs⟩
    · rename_i hlt
      refine List.pairwise_cons.mpr ⟨fun e' he' => ?_, ih hrest hs'⟩
      obtain rfl | he' := List.mem_cons.mp ((insertEntry_perm hrest j).mem_iff.mp he')
      · exact Std.lt_of_le_of_ne (Std.not_lt.mp hlt) (Ne.symm hne)
      · exact he e' he'

/-- Entries with different keys come in order. -/
theorem foldl_insertEntry {members seen : List (String × JsonValue)}
    (hk : ((members ++ seen).map Prod.fst).Nodup) (hs : seen.Pairwise (·.1 < ·.1)) :
    (members.foldl (fun seen e => insertEntry e.1 e.2 seen) seen).Perm (members ++ seen) ∧
      (members.foldl (fun seen e => insertEntry e.1 e.2 seen) seen).Pairwise (·.1 < ·.1) := by
  induction members generalizing seen with
  | nil => exact ⟨.refl _, hs⟩
  | cons e members ih =>
    obtain ⟨key, j⟩ := e
    have hmiddle : (members ++ (key, j) :: seen).Perm ((key, j) :: members ++ seen) :=
      List.perm_middle
    have hnotin : key ∉ seen.map Prod.fst := fun hm => by
      simp only [List.cons_append, List.map_cons, List.nodup_cons, List.map_append] at hk
      exact hk.1 (List.mem_append_right _ hm)
    have hperm := (insertEntry_perm hnotin j).append_left members
    obtain ⟨hp, hsorted⟩ := ih (((hperm.trans hmiddle).map _).nodup_iff.mpr hk)
      (pairwise_insertEntry hnotin hs j)
    exact ⟨hp.trans (hperm.trans hmiddle), hsorted⟩

theorem toJson_nil (h : Heap) (room : Nat) : h.toJson (room + 1) .nil = .ok .null := by
  rw [toJson, Value.toBool?_nil, Value.toFloat?_nil, Value.toHandle?_nil]

theorem toJson_bool (h : Heap) (room : Nat) (b : Bool) :
    h.toJson (room + 1) (.ofBool b) = .ok (.bool b) := by
  simp only [toJson, Value.toBool?_ofBool]

theorem toJson_number {x : Float} (hx : v.toFloat? = some x) (hfinite : x.isFinite) :
    h.toJson (room + 1) v = .ok (.number x) := by
  simp only [toJson, Value.toBool?_of_toFloat? hx, hx, hfinite, ↓reduceIte]

theorem toJson_ofHandle {o : Object} (ho : h.get? r = some o) :
    h.toJson (room + 1) (.ofHandle r) = h.bodyToJson (.ofHandle r) (h.toJson room) o.body := by
  rw [toJson, Value.toBool?_ofHandle, Value.toFloat?_ofHandle, Value.toHandle?_ofHandle]
  simp only [Heap.get, ho, Bind.bind, Except.bind]

theorem toJson_text {s : String} (hs : h.text r = .ok s) :
    h.toJson (room + 1) (.ofHandle r) = .ok (.text s) := by
  obtain ⟨o, ho, hb⟩ := text_eq_ok.mp hs
  rw [toJson_ofHandle ho, hb]
  rfl

theorem toJson_array {vs : Array Value} (hvs : h.array r = .ok vs) :
    h.toJson (room + 1) (.ofHandle r) = .ok j ↔
      ∃ items, List.Forall₂ (fun v item => h.toJson room v = .ok item) vs.toList items ∧
        j = .array items := by
  obtain ⟨o, ho, hb⟩ := array_eq_ok.mp hvs
  simp only [toJson_ofHandle ho, hb, bodyToJson, ← mapM_eq_ok]
  exact bind_return_eq_ok

theorem toJson_dictionary {t : Table Value Value} (ht : h.dictionary r = .ok t) :
    h.toJson (room + 1) (.ofHandle r) = .ok j ↔
      ∃ members : List (String × JsonValue), List.Forall₂ (fun (e : Value × Value) member =>
          h.jsonKey e.1 = member.1 ∧ h.toJson room e.2 = .ok member.2) t.toList members ∧
        j = .object (members.foldl (fun seen e => insertEntry e.1 e.2 seen) []) := by
  have hmember : ∀ (e : Value × Value) (member : String × JsonValue),
      (do return (← Except.ok (h.jsonKey e.1), ← h.toJson room e.2)) = (.ok member : Except Fault _) ↔
        h.jsonKey e.1 = member.1 ∧ h.toJson room e.2 = .ok member.2 := by
    intro e member
    refine bind_return_eq_ok.trans ?_
    simp [Prod.ext_iff, and_comm, eq_comm]
  obtain ⟨o, ho, hb⟩ := dictionary_eq_ok.mp ht
  simp only [← hmember, ← mapM_eq_ok, toJson_ofHandle ho, hb]
  exact bind_return_eq_ok

/-- A value with room for its levels has a tree. -/
theorem JsonLike.toJson_ok (hv : h.JsonLike Good n v) (hroom : n ≤ room) :
    ∃ j, h.toJson (room + 1) v = .ok j := by
  induction hv generalizing room with
  | nil => exact ⟨_, toJson_nil h room⟩
  | bool b => exact ⟨_, toJson_bool h room b⟩
  | number hx hfinite => exact ⟨_, toJson_number hx hfinite⟩
  | text hs => exact ⟨_, toJson_text hs⟩
  | array hvs _ ih =>
    obtain ⟨room, rfl⟩ := Nat.exists_eq_add_of_le' hroom
    obtain ⟨items, hitems⟩ := exists_forall₂ fun v hm => ih v hm (Nat.le_add_left _ room)
    exact ⟨_, (toJson_array hvs).mpr ⟨items, hitems, rfl⟩⟩
  | @dictionary n t r ht _ _ ih =>
    obtain ⟨room, rfl⟩ := Nat.exists_eq_add_of_le' hroom
    have hmember : ∀ e ∈ t.toList, ∃ member : String × JsonValue, h.jsonKey e.1 = member.1 ∧
        h.toJson (room + n + 1) e.2 = .ok member.2 := fun e hm => by
      obtain ⟨j, hj⟩ := ih e hm (Nat.le_add_left _ room)
      exact ⟨(h.jsonKey e.1, j), rfl, hj⟩
    obtain ⟨members, hmembers⟩ := exists_forall₂ hmember
    exact ⟨_, (toJson_dictionary ht).mpr ⟨members, hmembers, rfl⟩⟩

/-- The members of the tree of a dictionary belong to its entries, in some order. -/
theorem sorted_members (hw : h.WellFormed) {t : Table Value Value}
    {members : List (String × JsonValue)} (hkeys : ∀ e ∈ t.toList, ∃ s, h.textOf? e.1 = some s)
    (hmembers : List.Forall₂ (fun (e : Value × Value) member =>
      h.jsonKey e.1 = member.1 ∧ h.toJson room e.2 = .ok member.2) t.toList members) :
    ∃ es : List (Value × Value), es.Perm t.toList ∧ ∃ sorted : List (String × JsonValue),
      sorted = members.foldl (fun seen e => insertEntry e.1 e.2 seen) [] ∧
      sorted.Pairwise (·.1 < ·.1) ∧ List.Forall₂ (fun (e : Value × Value) member =>
        h.textOf? e.1 = some member.1 ∧ h.toJson room e.2 = .ok member.2) es sorted := by
  have hkey : ∀ e ∈ t.toList, h.textOf? e.1 = some (h.jsonKey e.1) := fun e he => by
    obtain ⟨s, hs⟩ := hkeys e he
    simp [jsonKey, hs]
  have htexts : List.Forall₂ (fun (e : Value × Value) (member : String × JsonValue) =>
      h.textOf? e.1 = some member.1 ∧ h.toJson room e.2 = .ok member.2) t.toList members := by
    refine ((List.forall₂_and_left _ _).mpr ⟨hkey, hmembers⟩).imp ?_
    rintro e member ⟨hs, hm, hj⟩
    exact ⟨hs.trans (congrArg some hm), hj⟩
  have hnodup : (members.map Prod.fst).Nodup := by
    have hfst : t.toList.map (fun e => h.jsonKey e.1) = members.map Prod.fst := by
      rw [← List.forall₂_eq_eq_eq, List.forall₂_map_left_iff, List.forall₂_map_right_iff]
      exact hmembers.imp fun _ _ hm => hm.1
    rw [← hfst]
    refine List.Nodup.map_on (fun e he e' he' hs => ?_) (List.Nodup.of_map _ t.nodup)
    refine List.inj_on_of_nodup_map t.nodup he he' (hw.eq_of_textOf? (hkey e he) ?_)
    rw [hs]
    exact hkey e' he'
  obtain ⟨hperm, hsorted⟩ := foldl_insertEntry ((List.append_nil members).symm ▸ hnodup) .nil
  rw [List.append_nil] at hperm
  obtain ⟨es, hes, hpermes⟩ := List.perm_comp_forall₂ hperm htexts.flip
  exact ⟨es, hpermes, _, rfl, hsorted, hes.flip⟩

/-- The tree of a value is the one that it shows, and has no more levels. -/
theorem JsonLike.shows (hw : h.WellFormed) (hv : h.JsonLike Good n v) (hj : h.toJson room v = .ok j) :
    h.Shows j v ∧ j.Legible Good ∧ j.levels ≤ n := by
  induction room generalizing n v j with
  | zero => cases hj
  | succ room ih =>
    cases hv with
    | nil =>
      obtain rfl := Except.ok.inj ((toJson_nil h room).symm.trans hj)
      exact ⟨.null, trivial, Nat.zero_le _⟩
    | bool b =>
      obtain rfl := Except.ok.inj ((toJson_bool h room b).symm.trans hj)
      exact ⟨.bool b, trivial, Nat.zero_le _⟩
    | number hx hfinite hback =>
      obtain rfl := Except.ok.inj ((toJson_number hx hfinite).symm.trans hj)
      exact ⟨.number hx, ⟨hfinite, hback⟩, Nat.zero_le _⟩
    | text hs =>
      obtain rfl := Except.ok.inj ((toJson_text hs).symm.trans hj)
      exact ⟨.text hs, trivial, Nat.zero_le _⟩
    | array hvs hinside =>
      obtain ⟨items, hitems, rfl⟩ := (toJson_array hvs).mp hj
      have hitem := fun v hm item hi => ih (hinside v hm) (j := item) hi
      refine ⟨.array hvs ?_, legibleItems_iff.mpr ?_, Nat.succ_le_succ (levelsOfItems_le.mpr ?_)⟩
      · refine List.Forall₂.flip (((List.forall₂_and_left _ _).mpr ⟨hitem, hitems⟩).imp ?_)
        exact fun v item hv => (hv.1 item hv.2).1
      · exact forall_of_forall₂ hitems fun v hm item hi => (hitem v hm item hi).2.1
      · exact forall_of_forall₂ hitems fun v hm item hi => (hitem v hm item hi).2.2
    | dictionary ht hkeys hinside =>
      obtain ⟨members, hmembers, rfl⟩ := (toJson_dictionary ht).mp hj
      obtain ⟨es, hperm, sorted, rfl, hsorted, hes⟩ := sorted_members hw hkeys hmembers
      have hitem := fun (e : Value × Value) (hm : e ∈ es) item hi =>
        ih (hinside e (hperm.mem_iff.mp hm)) (j := item) hi
      refine ⟨.object ht hperm ?_ ?_, ⟨hsorted, legibleEntries_iff.mpr ?_⟩,
        Nat.succ_le_succ (levelsOfEntries_le.mpr ?_)⟩
      · simp only [List.forall₂_map_left_iff, List.forall₂_map_right_iff]
        exact hes.flip.imp fun _ _ he => he.1
      · simp only [List.forall₂_map_left_iff, List.forall₂_map_right_iff]
        refine List.Forall₂.flip (((List.forall₂_and_left _ _).mpr ⟨hitem, hes⟩).imp ?_)
        exact fun e member he => (he.1 member.2 he.2.2).1
      · exact forall_of_forall₂ hes fun e hm member hi => (hitem e hm member.2 hi.2).2.1
      · exact forall_of_forall₂ hes fun e hm member hi => (hitem e hm member.2 hi.2).2.2

mutual

/-- A value that shows a legible tree has no more levels than the tree. -/
theorem jsonLike_of_shows : ∀ {j : JsonValue} {v : Value} {n : Nat}, h.Shows j v → j.Legible Good →
    j.levels ≤ n → h.JsonLike Good n v
  | .null, _, _, .null, _, _ => .nil
  | .bool b, _, _, .bool _, _, _ => .bool b
  | .number _, _, _, .number hx, hj, _ => .number hx hj.1 hj.2
  | .text _, _, _, .text hs, _, _ => .text hs
  | .array _, _, 0, _, _, hd => absurd hd (Nat.not_succ_le_zero _)
  | .array _, _, n + 1, .array hvs hinside, hj, hd =>
    .array hvs (jsonLike_items hinside hj (Nat.le_of_succ_le_succ hd))
  | .object _, _, 0, _, _, hd => absurd hd (Nat.not_succ_le_zero _)
  | .object entries, _, n + 1, .object ht hperm hkeys hinside, hj, hd => by
    have hlike := jsonLike_entries hinside hj.2 (Nat.le_of_succ_le_succ hd)
    have htext := forall_of_forall₂ (p := fun key => ∃ s, h.textOf? key = some s) hkeys
      fun s _ key hs => ⟨s, hs⟩
    exact .dictionary ht
      (fun e he => htext e.1 (List.mem_map_of_mem (hperm.mem_iff.mpr he)))
      fun e he => hlike e.2 (List.mem_map_of_mem (hperm.mem_iff.mpr he))

theorem jsonLike_items : ∀ {items : List JsonValue} {vs : List Value} {n : Nat},
    List.Forall₂ h.Shows items vs → LegibleItems Good items →
    JsonTree.levelsOfItems (treeItems items) ≤ n →
    ∀ v ∈ vs, h.JsonLike Good n v
  | [], _, _, .nil, _, _ => nofun
  | _ :: _, _, _, .cons hv hvs, hj, hd => List.forall_mem_cons.mpr
    ⟨jsonLike_of_shows hv hj.1 (Nat.max_le.mp hd).1, jsonLike_items hvs hj.2 (Nat.max_le.mp hd).2⟩

theorem jsonLike_entries : ∀ {entries : List (String × JsonValue)} {vs : List Value} {n : Nat},
    List.Forall₂ h.Shows (entries.map Prod.snd) vs → LegibleEntries Good entries →
    JsonTree.levelsOfEntries (treeEntries entries) ≤ n → ∀ v ∈ vs, h.JsonLike Good n v
  | [], _, _, .nil, _, _ => nofun
  | _ :: _, _, _, .cons hv hvs, hj, hd => List.forall_mem_cons.mpr
    ⟨jsonLike_of_shows hv hj.1 (Nat.max_le.mp hd).1,
      jsonLike_entries hvs hj.2 (Nat.max_le.mp hd).2⟩

end

end Heap
end FiberMachine
