import FiberMachine.Proofs.Heap.Remains
import FiberMachine.Proofs.Json.RoundTrip
import FiberMachine.Proofs.Json.Trees
import FiberMachine.Proofs.Machine.Growth
import FiberMachine.Proofs.Object.Doubles

/-!
# Values that are written and read back

A value that is made from a JSON tree shows the tree. So what is read from the text of a value
has the shape of the value, as long as the text is not nested deeper than the reader goes; a
text is also written for values that are nested one level deeper, and that one is refused.
-/

namespace FiberMachine

namespace Table

theorem toList_empty {κ α : Type} : (empty : Table κ α).toList = [] := rfl

variable {κ α : Type} [DecidableEq κ]

theorem toList_insert_of_notMem {t : Table κ α} {key : κ} (hk : key ∉ t.keys) (a : α) :
    (t.insert key a).toList = (key, a) :: t.toList := by
  have hnone := (find_eq_none_iff key t.entries).mpr hk
  unfold insert
  split
  · rename_i hsome
    rw [hnone] at hsome
    cases hsome
  · rfl

/-- Entries with new keys are all there in the end. -/
theorem foldl_insert_perm {l : List (κ × α)} {t : Table κ α}
    (hk : ((l ++ t.toList).map Prod.fst).Nodup) :
    (l.foldl (fun t e => t.insert e.1 e.2) t).toList.Perm (l ++ t.toList) := by
  induction l generalizing t with
  | nil => exact .refl _
  | cons e l ih =>
    have hmiddle : (l ++ e :: t.toList).Perm (e :: l ++ t.toList) := List.perm_middle
    have hnotin : e.1 ∉ t.keys := fun hm => by
      simp only [List.cons_append, List.map_cons, List.nodup_cons, List.map_append] at hk
      exact hk.1 (List.mem_append_right _ hm)
    have hinsert := toList_insert_of_notMem hnotin e.2
    refine (ih ?_).trans (hinsert ▸ hmiddle)
    rw [hinsert]
    exact (hmiddle.map _).nodup_iff.mpr hk

end Table

namespace Heap

open JsonValue

variable {h h₁ h' g : Heap} {r : Handle} {o : Object} {v w : Value} {n : Nat} {s : String}
  {busy : Option Handle} {P Q : Heap → Prop} {Good : Float → Prop}

/-! ## Objects that are made -/

/-- What was there is there as before, but for a dictionary that is being filled, and a
property of the heap holds as long as what is new and what is a text stays. -/
structure Builds (busy : Option Handle) (h h' : Heap) (P : Heap → Prop) : Prop where
  remains : ∀ r o, busy ≠ some r → h.get? r = some o → h'.get? r = some o
  lasts : ∀ g : Heap, (∀ r o, busy ≠ some r → h'.get? r = some o →
    (h.get? r = none ∨ ∃ s, o.body = .text s) → g.get? r = some o) → P g

namespace Builds

theorem nothing (hP : ∀ g, P g) : Builds busy h h P := ⟨fun _ _ _ ho => ho, fun g _ => hP g⟩

theorem imp (hb : Builds busy h h' P) (hPQ : ∀ g, P g → Q g) : Builds busy h h' Q :=
  ⟨hb.remains, fun g hg => hPQ g (hb.lasts g hg)⟩

theorem trans (hb : Builds busy h h₁ P) (hb' : Builds busy h₁ h' Q) :
    Builds busy h h' fun g => P g ∧ Q g where
  remains r o hr ho := hb'.remains r o hr (hb.remains r o hr ho)
  lasts g hg := by
    refine ⟨hb.lasts g fun r o hr ho hnew => hg r o hr (hb'.remains r o hr ho) hnew,
      hb'.lasts g fun r o hr ho hnew => hg r o hr ho (hnew.imp_left fun hnone => ?_)⟩
    refine Option.eq_none_iff_forall_ne_some.mpr fun p hp => ?_
    rw [hb.remains r p hr hp] at hnone
    cases hnone

/-- What is made beside an object that is there does not depend on it. -/
theorem beside (hb : Builds none h h' P) (hr : h.get? r = some o) (ho : ∀ s, o.body ≠ .text s) :
    Builds (some r) h h' P where
  remains t p _ ht := hb.remains t p nofun ht
  lasts g hg := by
    refine hb.lasts g fun t p _ ht hnew => hg t p (fun he => ?_) ht hnew
    cases he
    obtain rfl := Option.some.inj (ht.symm.trans (hb.remains r o nofun hr))
    obtain hnone | ⟨s, hs⟩ := hnew
    · rw [hr] at hnone
      cases hnone
    · exact ho s hs

theorem update (f : Object → Object) : Builds (some r) h (h.update r f) fun _ => True where
  remains t o ht ho := by
    rw [get?_update, if_neg fun he => ht (congrArg some he.symm)]
    exact ho
  lasts _ _ := trivial

theorem alloc (ha : h.Arena) (b : Body) (hfit : (h.alloc b).1.slots.size ≤ slotLimit) :
    Builds none h (h.alloc b).1 fun g => g.get? (h.alloc b).2 = some (.ofBody b) := by
  have hn := alloc_allocated ha b hfit
  exact ⟨fun _ _ _ ho => hn.get?_of_get? ho,
    fun g hg => hg _ _ nofun hn.get?_self (.inl hn.fresh)⟩

theorem intern (hw : h.WellFormed) (s : String)
    (hfit : (h.intern s).1.slots.size ≤ slotLimit) :
    Builds none h (h.intern s).1 fun g => g.text (h.intern s).2 = .ok s := by
  obtain ⟨o, ho, hb⟩ := ((hw.intern hfit).find_text s _).mp (find_text_intern hw.toArena hfit)
  exact ⟨fun _ _ _ hp => get?_intern_of_get? hw.toArena hfit hp,
    fun g hg => text_eq_ok.mpr ⟨o, hg _ o nofun ho (.inr ⟨s, hb⟩), hb⟩⟩

/-- A dictionary that was new is there with the rest once it has been filled. -/
theorem filled (hn : Allocated h h₁ r o) (hb : Builds (some r) h₁ h' P) {p : Object}
    (hp : h'.get? r = some p) : Builds none h h' fun g => P g ∧ g.get? r = some p where
  remains t q _ hq := by
    refine hb.remains t q (fun he => ?_) (hn.get?_of_get? hq)
    cases he
    rw [hn.fresh] at hq
    cases hq
  lasts g hg := by
    refine ⟨hb.lasts g fun t q ht hq hnew => hg t q nofun hq (hnew.imp_left fun hnone => ?_),
      hg r p nofun hp (.inl hn.fresh)⟩
    rw [hn.get?, if_neg fun he => ht (congrArg some he.symm)] at hnone
    exact hnone

end Builds

/-! ## Values from a tree -/

theorem get?_changeDictionary {t : Table Value Value} {marked : Bool} {members : Members}
    (hr : h.get? r = some ⟨marked, members, .dictionary t⟩)
    (f : Table Value Value → Table Value Value) :
    (h.update r (changeDictionary f)).get? r = some ⟨marked, members, .dictionary (f t)⟩ := by
  rw [get?_update, if_pos rfl, hr]
  rfl

/-- Values with different texts are different. -/
theorem nodup_of_texts {names : List String} {keys : List Value}
    (hkeys : List.Forall₂ (fun s key => h.textOf? key = some s) names keys) (hn : names.Nodup) :
    keys.Nodup := by
  have hmap : keys.map h.textOf? = names.map some := by
    rw [← List.forall₂_eq_eq_eq, List.forall₂_map_left_iff, List.forall₂_map_right_iff]
    exact hkeys.flip
  refine List.Nodup.of_map h.textOf? ?_
  rw [hmap]
  exact hn.map (Option.some_injective _)

mutual

theorem builds_ofJson {h : Heap} (hw : h.WellFormed) : ∀ j : JsonValue,
    j.Legible Good →
    (ofJson h j).1.slots.size ≤ slotLimit →
    Builds none h (ofJson h j).1 fun g => g.Shows j (ofJson h j).2
  | .null, _, _ => .nothing fun _ => .null
  | .bool b, _, _ => .nothing fun _ => .bool b
  | .number x, _, _ => .nothing fun _ => .number (Value.toFloat?_ofFloat x)
  | .text s, _, hfit => (Builds.intern hw s hfit).imp fun _ hs => .text hs
  | .array items, hj, hfit => by
    simp only [ofJson] at hfit ⊢
    have hfit₁ := (size_le_alloc _ _).trans hfit
    have hw₁ := row_wellFormed (row_ofJsonItems h items) hw hfit₁
    refine ((builds_ofJsonItems hw items hj hfit₁).trans (.alloc hw₁.toArena _ hfit)).imp ?_
    rintro g ⟨hitems, hr⟩
    exact .array (array_eq_ok.mpr ⟨_, hr, rfl⟩) (by simpa using hitems)
  | .object entries, hj, hfit => by
    simp only [ofJson] at hfit ⊢
    have hfit₁ := (size_le_ofJsonEntries _ _ entries).trans hfit
    have hn := alloc_allocated hw.toArena (.dictionary .empty) hfit₁
    have hw₁ := hw.alloc (by simp) hfit₁
    obtain ⟨es, hr, hb⟩ := builds_ofJsonEntries hw₁ hn.get?_self entries hj.2 hfit
    refine (Builds.filled hn hb hr).imp ?_
    rintro g ⟨⟨hkeys, hinside⟩, hr⟩
    refine .object (dictionary_eq_ok.mpr ⟨_, hr, rfl⟩) ?_ hkeys hinside
    have hnodup := nodup_of_texts hkeys ((List.pairwise_map.mpr hj.1).imp String.ne_of_lt)
    have hperm := Table.foldl_insert_perm (l := es) (t := .empty) (by simpa [Table.toList_empty])
    simpa [Table.toList_empty] using hperm.symm

theorem builds_ofJsonItems {h : Heap} (hw : h.WellFormed) : ∀ items : List JsonValue,
    LegibleItems Good items → (ofJsonItems h items).1.slots.size ≤ slotLimit →
    Builds none h (ofJsonItems h items).1 fun g =>
      List.Forall₂ g.Shows items (ofJsonItems h items).2
  | [], _, _ => .nothing fun _ => .nil
  | j :: rest, hj, hfit => by
    simp only [ofJsonItems] at hfit ⊢
    have hfit₁ := (size_le_ofJsonItems _ rest).trans hfit
    have hw₁ := row_wellFormed (row_ofJson h j) hw hfit₁
    refine ((builds_ofJson hw j hj.1 hfit₁).trans (builds_ofJsonItems hw₁ rest hj.2 hfit)).imp ?_
    exact fun g hg => .cons hg.1 hg.2

/-- The entries are put into a dictionary one after the other. -/
theorem builds_ofJsonEntries {h : Heap} (hw : h.WellFormed) {r : Handle} {t : Table Value Value}
    {marked : Bool} {members : Members} (hr : h.get? r = some ⟨marked, members, .dictionary t⟩) :
    ∀ entries : List (String × JsonValue), LegibleEntries Good entries →
    (ofJsonEntries h r entries).slots.size ≤ slotLimit →
    ∃ es : List (Value × Value), (ofJsonEntries h r entries).get? r =
        some ⟨marked, members, .dictionary (es.foldl (fun t e => t.insert e.1 e.2) t)⟩ ∧
      Builds (some r) h (ofJsonEntries h r entries) fun g =>
        List.Forall₂ (fun s key => g.textOf? key = some s) (entries.map Prod.fst)
          (es.map Prod.fst) ∧
        List.Forall₂ g.Shows (entries.map Prod.snd) (es.map Prod.snd)
  | [], _, _ => ⟨[], hr, .nothing fun _ => ⟨.nil, .nil⟩⟩
  | (key, j) :: rest, hj, hfit => by
    simp only [ofJsonEntries] at hfit ⊢
    have hfit₂ := (size_le_ofJsonEntries _ r rest).trans hfit
    rw [size_update] at hfit₂
    have hfit₁ := (size_le_ofJson _ j).trans hfit₂
    have hw₁ := hw.intern hfit₁
    have hw₂ := row_wellFormed (row_ofJson _ j) hw₁ hfit₂
    have hname := Builds.intern hw key hfit₁
    have hvalue := builds_ofJson hw₁ j hj.1 hfit₂
    have hr₁ := hname.remains r _ nofun hr
    have hr₂ := hvalue.remains r _ nofun hr₁
    have hw₃ := (Move.update _ r (changeDictionary fun entries =>
      entries.insert (.ofHandle (h.intern key).2) (ofJson (h.intern key).1 j).2)).wellFormed hw₂
        ((size_update ..).trans_le hfit₂)
    obtain ⟨es, hr', hrest⟩ := builds_ofJsonEntries hw₃ (get?_changeDictionary hr₂ _) rest hj.2 hfit
    have hentry := (hname.beside hr (by simp)).trans (hvalue.beside hr₁ (by simp))
    refine ⟨(_, _) :: es, hr', (hentry.trans ((Builds.update _).trans hrest)).imp ?_⟩
    rintro g ⟨⟨hkey, hv⟩, -, hkeys, hvs⟩
    exact ⟨.cons (textOf?_eq_some.mpr ⟨_, rfl, hkey⟩) hkeys, .cons hv hvs⟩

end

/-! ## Values that are alike -/

/-- A value on one heap and a value on another with the same structure: equal scalars and
texts, items that are alike one by one, and entries that are alike under the same texts. -/
inductive Alike (h h' : Heap) : Value → Value → Prop
  | nil : Alike h h' .nil .nil
  | bool (b : Bool) : Alike h h' (.ofBool b) (.ofBool b)
  | number {x : Float} {v w : Value} : v.toFloat? = some x → w.toFloat? = some x → Alike h h' v w
  | text {s : String} {r r' : Handle} : h.text r = .ok s → h'.text r' = .ok s →
      Alike h h' (.ofHandle r) (.ofHandle r')
  | array {vs vs' : Array Value} {r r' : Handle} : h.array r = .ok vs → h'.array r' = .ok vs' →
      List.Forall₂ (Alike h h') vs.toList vs'.toList → Alike h h' (.ofHandle r) (.ofHandle r')
  | dictionary {t t' : Table Value Value} {es es' : List (Value × Value)} {r r' : Handle} :
      h.dictionary r = .ok t → h'.dictionary r' = .ok t' → es.Perm t.toList → es'.Perm t'.toList →
      List.Forall₂ (fun k k' => ∃ s, h.textOf? k = some s ∧ h'.textOf? k' = some s)
        (es.map Prod.fst) (es'.map Prod.fst) →
      List.Forall₂ (Alike h h') (es.map Prod.snd) (es'.map Prod.snd) →
      Alike h h' (.ofHandle r) (.ofHandle r')

theorem keys_alike {names : List String} {keys keys' : List Value}
    (hk : List.Forall₂ (fun s key => h.textOf? key = some s) names keys)
    (hk' : List.Forall₂ (fun s key => h'.textOf? key = some s) names keys') :
    List.Forall₂ (fun k k' => ∃ s, h.textOf? k = some s ∧ h'.textOf? k' = some s) keys keys' := by
  induction hk generalizing keys' with
  | nil =>
    cases hk'
    exact .nil
  | cons hs _ ih =>
    obtain _ | ⟨hs', hrest⟩ := hk'
    exact .cons ⟨_, hs, hs'⟩ (ih hrest)

mutual

/-- Values that show one tree are alike. -/
theorem alike_of_shows : ∀ {j : JsonValue} {v w : Value}, h.Shows j v → h'.Shows j w →
    Alike h h' v w
  | .null, _, _, hv, hw => by
    cases hv
    cases hw
    exact .nil
  | .bool b, _, _, hv, hw => by
    cases hv
    cases hw
    exact .bool b
  | .number x, _, _, .number hv, .number hw => .number hv hw
  | .text s, _, _, .text hv, .text hw => .text hv hw
  | .array items, _, _, .array hv hvs, .array hw hws => .array hv hw (alike_items hvs hws)
  | .object entries, _, _, .object hv hperm hkeys hvs, .object hw hperm' hkeys' hws =>
    .dictionary hv hw hperm hperm' (keys_alike hkeys hkeys') (alike_entries hvs hws)

theorem alike_items : ∀ {items : List JsonValue} {vs ws : List Value},
    List.Forall₂ h.Shows items vs → List.Forall₂ h'.Shows items ws →
    List.Forall₂ (Alike h h') vs ws
  | [], _, _, .nil, .nil => .nil
  | _ :: _, _, _, .cons hv hvs, .cons hw hws => .cons (alike_of_shows hv hw) (alike_items hvs hws)

theorem alike_entries : ∀ {entries : List (String × JsonValue)} {vs ws : List Value},
    List.Forall₂ h.Shows (entries.map Prod.snd) vs →
    List.Forall₂ h'.Shows (entries.map Prod.snd) ws → List.Forall₂ (Alike h h') vs ws
  | [], _, _, .nil, .nil => .nil
  | _ :: _, _, _, .cons hv hvs, .cons hw hws => .cons (alike_of_shows hv hw) (alike_entries hvs hws)

end

/-! ## What is guaranteed -/

variable {lib : JsonLibrary}

theorem jsonStringify_apply {c : NativeCall} (hc : c.args[0]? = some v) (h : Heap) :
    c.jsonStringify lib h = match h.toJson (jsonDepth + 1) v with
      | .ok j => .ok (.ofHandle (h.intern (lib.render c.jsonLayout j)).2)
          (h.intern (lib.render c.jsonLayout j)).1
      | .error fault => .error fault h := by
  simp only [NativeCall.jsonStringify, NativeCall.value, hc, bind_apply, get_apply, except_apply]
  cases h.toJson (jsonDepth + 1) v <;> rfl

theorem jsonParse_apply {c : NativeCall} (hc : c.args[0]? = some v) (hs : h.textOf? v = some s) :
    c.jsonParse lib h = match lib.parse s with
      | .ok j => .ok (h.ofJson j).2 (h.ofJson j).1
      | .error e => .error (.failed (.jsonSyntax e.line)) h := by
  have htext : c.text 0 h = .ok s h := by
    simp only [NativeCall.text, NativeCall.value, hc, bind_apply, get_apply, except_apply, hs,
      pure_apply]
  simp only [NativeCall.jsonParse, bind_apply, htext]
  cases lib.parse s <;> rfl

/-- What comes of writing a value and of reading the text, with a library that prints JSON and
reads it. A text is written in both layouts for every value with no more than 128 levels. While
there are no more than 127, every call that reads the text, on whatever heap, gives a value that
is alike and leaves what is there. Of a value with more levels every text is refused. -/
structure RoundTripGuarantees (lib : JsonLibrary) (h : Heap) (v : Value) : Prop where
  written : ∀ c : NativeCall, c.args[0]? = some v → h.JsonLike lib.ReadsBack jsonDepth v →
    ∃ w h₁, c.jsonStringify lib h = .ok w h₁
  text : ∀ (c : NativeCall) n w h₁, c.args[0]? = some v → h.JsonLike lib.ReadsBack n v →
    c.jsonStringify lib h = .ok w h₁ → h₁.slots.size ≤ slotLimit →
    h.Remains h₁ ∧ ∃ s, h₁.textOf? w = some s
  read : ∀ (c : NativeCall) w h₁ s, c.args[0]? = some v →
    h.JsonLike lib.ReadsBack JsonText.maxDepth v → c.jsonStringify lib h = .ok w h₁ →
    h₁.slots.size ≤ slotLimit → h₁.textOf? w = some s →
    ∀ (c' : NativeCall) w' h₂, c'.args[0]? = some w' → h₂.WellFormed → h₂.textOf? w' = some s →
      ∃ u h₃, c'.jsonParse lib h₂ = .ok u h₃ ∧
        (h₃.slots.size ≤ slotLimit → h₂.Remains h₃ ∧ Alike h h₃ v u)
  refused : ∀ (c : NativeCall) n w h₁ s, c.args[0]? = some v → h.JsonLike lib.ReadsBack n v →
    ¬ h.JsonLike lib.ReadsBack JsonText.maxDepth v → c.jsonStringify lib h = .ok w h₁ →
    h₁.slots.size ≤ slotLimit → h₁.textOf? w = some s →
    ∀ (c' : NativeCall) w' h₂, c'.args[0]? = some w' → h₂.textOf? w' = some s →
      ∃ line, c'.jsonParse lib h₂ = .error (.failed (.jsonSyntax line)) h₂

theorem textOf?_intern (hw : h.WellFormed) (hfit : (h.intern s).1.slots.size ≤ slotLimit) :
    (h.intern s).1.textOf? (.ofHandle (h.intern s).2) = some s :=
  textOf?_eq_some.mpr ⟨_, rfl, (Builds.intern hw s hfit).lasts _ fun _ _ _ ho _ => ho⟩

/-- The text that has been written is the one of the tree that the value shows. -/
theorem written_tree (hw : h.WellFormed) {c : NativeCall} (hc : c.args[0]? = some v)
    (hv : h.JsonLike Good n v) (hok : c.jsonStringify lib h = .ok w h₁)
    (hfit : h₁.slots.size ≤ slotLimit) :
    ∃ j, h.toJson (jsonDepth + 1) v = .ok j ∧ h.Shows j v ∧ j.Legible Good ∧ h.Remains h₁ ∧
      h₁.textOf? w = some (lib.render c.jsonLayout j) := by
  rw [jsonStringify_apply hc] at hok
  cases hj : h.toJson (jsonDepth + 1) v with
  | error fault => simp [hj] at hok
  | ok j =>
    simp only [hj, EStateM.Result.ok.injEq] at hok
    obtain ⟨rfl, rfl⟩ := hok
    obtain ⟨hshows, hlegible, -⟩ := hv.shows hw hj
    exact ⟨j, rfl, hshows, hlegible, Remains.intern hw.toArena _ hfit, textOf?_intern hw hfit⟩

theorem roundTripGuarantees (hlib : lib.PrintsAndReads) (hw : h.WellFormed) (v : Value) :
    RoundTripGuarantees lib h v where
  written c hc hv := by
    obtain ⟨j, hj⟩ := hv.toJson_ok (Nat.le_refl _)
    rw [jsonStringify_apply hc, hj]
    exact ⟨_, _, rfl⟩
  text c n w h₁ hc hv hok hfit := by
    obtain ⟨j, -, -, -, hremains, htext⟩ := written_tree hw hc hv hok hfit
    exact ⟨hremains, _, htext⟩
  read c w h₁ s hc hv hok hfit hs c' w' h₂ hc' hw₂ hs' := by
    obtain ⟨j, hj, hshows, hlegible, -, htext⟩ := written_tree hw hc hv hok hfit
    obtain rfl := Option.some.inj (htext.symm.trans hs)
    have hlevels := (hv.shows hw hj).2.2
    rw [jsonParse_apply hc' hs', hlib.reads c.jsonLayout hlegible hlevels]
    refine ⟨_, _, rfl, fun hfit₃ => ?_⟩
    have hb := builds_ofJson hw₂ j hlegible hfit₃
    refine ⟨fun r o ho => hb.remains r o nofun ho, alike_of_shows hshows ?_⟩
    exact hb.lasts _ fun _ _ _ ho _ => ho
  refused c n w h₁ s hc hv hdeep hok hfit hs c' w' h₂ hc' hs' := by
    obtain ⟨j, -, hshows, hlegible, -, htext⟩ := written_tree hw hc hv hok hfit
    obtain rfl := Option.some.inj (htext.symm.trans hs)
    have hlevels : JsonText.maxDepth < j.levels := Nat.lt_of_not_le fun hle =>
      hdeep (jsonLike_of_shows hshows hlegible hle)
    obtain ⟨e, he⟩ := hlib.refuses c.jsonLayout hlegible hlevels
    rw [jsonParse_apply hc' hs', he]
    exact ⟨_, rfl⟩

/-- A tree with all kinds of values inside. -/
def mixed : JsonValue :=
  .object [("items", .array [.null, .bool true, .number 1.5]), ("quoted", .text "a\"\n")]

theorem legible_mixed : mixed.Legible JsonLibrary.standard.ReadsBack :=
  ⟨by decide, ⟨trivial, trivial, ⟨by decide +kernel, JsonLibrary.readsBack_oneAndAHalf⟩, trivial⟩, trivial,
    trivial⟩

/-- With the standard library. -/
theorem roundTripGuarantees_mixed :
    JsonLibrary.standard.PrintsAndReads ∧
    (Heap.empty.ofJson mixed).1.WellFormed ∧
    (Heap.empty.ofJson mixed).1.JsonLike JsonLibrary.standard.ReadsBack 2
      (Heap.empty.ofJson mixed).2 ∧
    RoundTripGuarantees JsonLibrary.standard (Heap.empty.ofJson mixed).1
      (Heap.empty.ofJson mixed).2 := by
  have hfit : (Heap.empty.ofJson mixed).1.slots.size ≤ slotLimit := by decide +kernel
  have hbegun := withThreshold_wellFormed defaultThreshold defaultGrowth
  have hw := row_wellFormed (row_ofJson Heap.empty mixed) hbegun hfit
  have hshows := (builds_ofJson hbegun mixed legible_mixed hfit).lasts _ fun _ _ _ ho _ => ho
  exact ⟨JsonLibrary.printsAndReads_standard, hw,
    jsonLike_of_shows hshows legible_mixed (by decide),
    roundTripGuarantees JsonLibrary.printsAndReads_standard hw _⟩

end Heap
end FiberMachine
