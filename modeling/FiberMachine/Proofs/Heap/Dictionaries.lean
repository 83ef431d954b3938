import Mathlib.Data.Finmap
import FiberMachine.Native.Containers
import FiberMachine.Proofs.Json.Values
import FiberMachine.Proofs.Ties.Soundness

/-!
# Dictionaries as finite maps

A dictionary finds its keys by their words. Since the texts of a heap are all different, that
is as good as finding a text by what it says, and a dictionary is a finite map in which a text
stands for what it says, every other object for itself, and what is no object for its word.
-/

namespace FiberMachine

/-- What a key stands for. -/
inductive Key where
  | text (s : String)
  | object (r : Handle)
  | scalar (v : Value)
deriving DecidableEq

/-- What a dictionary is to those who use it. -/
abbrev Mapping := Finmap fun _ : Key => Value

namespace Heap

variable {h h' : Heap} {d r : Handle} {t t' : Table Value Value} {k v w : Value}

def key (h : Heap) (v : Value) : Key :=
  match v.toHandle? with
  | none => .scalar v
  | some r =>
    match h.textOf? v with
    | some s => .text s
    | none => .object r

/-- Only equal values stand for the same. -/
theorem WellFormed.key_injective (hw : h.WellFormed) : Function.Injective h.key := by
  intro v w heq
  unfold key at heq
  cases hv : v.toHandle? with
  | none =>
    cases hv' : w.toHandle? with
    | none =>
      simp only [hv, hv', Key.scalar.injEq] at heq
      exact heq
    | some r =>
      simp only [hv, hv'] at heq
      split at heq <;> cases heq
  | some r =>
    cases hv' : w.toHandle? with
    | none =>
      simp only [hv, hv'] at heq
      split at heq <;> cases heq
    | some r' =>
      simp only [hv, hv'] at heq
      cases hs : h.textOf? v with
      | none =>
        simp only [hs] at heq
        split at heq
        · cases heq
        · cases heq
          exact (Value.ofHandle_of_toHandle? hv).symm.trans (Value.ofHandle_of_toHandle? hv')
      | some s =>
        simp only [hs] at heq
        split at heq
        · rename_i s' hs'
          cases heq
          exact hw.eq_of_textOf? hs hs'
        · cases heq

/-- The finite map that entries make up in a heap. -/
def mapping (h : Heap) (t : Table Value Value) : Mapping :=
  (t.toList.map fun e => (⟨h.key e.1, e.2⟩ : Σ _ : Key, Value)).toFinmap

/-- The finite map that the dictionary with a handle is. -/
def mapping? (h : Heap) (d : Handle) : Option Mapping := (h.dictionary d).toOption.map h.mapping

theorem mapping?_eq_some {map : Mapping} :
    h.mapping? d = some map ↔ ∃ t, h.dictionary d = .ok t ∧ h.mapping t = map := by
  unfold mapping?
  cases h.dictionary d <;> simp [Except.toOption]

theorem isLive_of_mapping? {map : Mapping} (hmap : h.mapping? d = some map) : h.isLive d := by
  obtain ⟨t, ht, -⟩ := mapping?_eq_some.mp hmap
  obtain ⟨o, ho, -⟩ := dictionary_eq_ok.mp ht
  exact isLive_iff.mpr ⟨o, ho⟩

/-- The map depends on the heap only in what the keys stand for. -/
theorem mapping_congr (hk : ∀ e ∈ t.toList, h'.key e.1 = h.key e.1) :
    h'.mapping t = h.mapping t := by
  unfold mapping
  congr 1
  refine List.map_congr_left fun e he => ?_
  rw [hk e he]

/-! ## Lookups -/

theorem dlookup_entries (hw : h.WellFormed) (k : Value) (es : List (Value × Value)) :
    List.dlookup (h.key k) (es.map fun e => (⟨h.key e.1, e.2⟩ : Σ _ : Key, Value)) =
      Table.find k es := by
  induction es with
  | nil => rfl
  | cons e rest ih =>
    obtain ⟨j, v⟩ := e
    by_cases hj : j = k
    · subst hj
      simp only [List.map_cons, List.dlookup_cons_eq, Table.find, ↓reduceIte]
    · have hne : h.key k ≠ h.key j := fun h => hj (hw.key_injective h).symm
      have hrest := List.dlookup_cons_ne (rest.map fun e => (⟨h.key e.1, e.2⟩ : Σ _ : Key, Value))
        ⟨h.key j, v⟩ hne
      rw [List.map_cons, hrest, ih, Table.find, if_neg hj]

theorem lookup_mapping (hw : h.WellFormed) (t : Table Value Value) (k : Value) :
    (h.mapping t).lookup (h.key k) = t.find? k := by
  rw [mapping, Finmap.dlookup_list_toFinmap]
  exact dlookup_entries hw k t.entries

/-- What the map finds is found under a key of the dictionary. -/
theorem exists_of_lookup_mapping {a : Key} (ha : (h.mapping t).lookup a = some v) :
    ∃ k ∈ t.keys, h.key k = a := by
  rw [mapping, Finmap.dlookup_list_toFinmap] at ha
  obtain ⟨e, he, heq⟩ := List.mem_map.mp (List.of_mem_dlookup ha)
  refine ⟨e.1, List.mem_map.mpr ⟨e, he, rfl⟩, ?_⟩
  cases heq
  rfl

theorem lookup_mapping_eq_none {a : Key} (ha : ∀ k ∈ t.keys, h.key k ≠ a) :
    (h.mapping t).lookup a = none := by
  cases hv : (h.mapping t).lookup a with
  | none => rfl
  | some v =>
    obtain ⟨k, hk, heq⟩ := exists_of_lookup_mapping hv
    exact absurd heq (ha k hk)

end Heap

namespace Table

variable {κ α : Type} [DecidableEq κ] {t : Table κ α} {k : κ}

theorem mem_keys_iff : k ∈ t.keys ↔ (t.find? k).isSome := by
  rw [← Option.ne_none_iff_isSome, ne_eq, find?, find_eq_none_iff, not_not]
  rfl

theorem find?_erase_self (t : Table κ α) (k : κ) : (t.erase k).find? k = none := by
  rw [erase, find?_filter]
  cases t.find? k <;> simp [Option.filter]

theorem find?_erase_ne (t : Table κ α) {k j : κ} (h : j ≠ k) : (t.erase k).find? j = t.find? j := by
  rw [erase, find?_filter]
  cases t.find? j <;> simp [Option.filter, h]

end Table

namespace Heap

variable {h h' : Heap} {d r : Handle} {t t' : Table Value Value} {k v w : Value}

/-- Two tables make up the same map when they agree on all keys. -/
theorem mapping_ext (hw : h.WellFormed) {map : Mapping}
    (hkeys : ∀ a, a ∈ map → ∃ k, h.key k = a) (hfind : ∀ k, t.find? k = map.lookup (h.key k)) :
    h.mapping t = map := by
  refine Finmap.ext_lookup fun a => ?_
  by_cases ha : ∃ k, h.key k = a
  · obtain ⟨k, rfl⟩ := ha
    rw [lookup_mapping hw, hfind]
  · have hnot : a ∉ map := fun hmem => ha (hkeys a hmem)
    rw [Finmap.lookup_eq_none.mpr hnot]
    exact lookup_mapping_eq_none fun k _ heq => ha ⟨k, heq⟩

theorem exists_of_mem_mapping {a : Key} (ha : a ∈ h.mapping t) : ∃ k ∈ t.keys, h.key k = a := by
  obtain ⟨v, hv⟩ := Finmap.mem_iff.mp ha
  exact exists_of_lookup_mapping hv

theorem mem_mapping_iff (hw : h.WellFormed) : h.key k ∈ h.mapping t ↔ t.contains k := by
  rw [← Finmap.lookup_isSome, lookup_mapping hw, Table.contains]

theorem mapping_insert (hw : h.WellFormed) (t : Table Value Value) (k v : Value) :
    h.mapping (t.insert k v) = (h.mapping t).insert (h.key k) v := by
  apply mapping_ext hw
  · intro a ha
    rcases Finmap.mem_insert.mp ha with rfl | ha
    · exact ⟨k, rfl⟩
    · obtain ⟨j, -, hj⟩ := exists_of_mem_mapping ha
      exact ⟨j, hj⟩
  · intro j
    by_cases hj : j = k
    · subst hj
      rw [Finmap.lookup_insert, Table.find?_insert_self]
    · have hne : h.key j ≠ h.key k := hw.key_injective.ne hj
      rw [Finmap.lookup_insert_of_ne _ hne, lookup_mapping hw, Table.find?_insert_ne _ hj]

theorem mapping_erase (hw : h.WellFormed) (t : Table Value Value) (k : Value) :
    h.mapping (t.erase k) = (h.mapping t).erase (h.key k) := by
  apply mapping_ext hw
  · intro a ha
    obtain ⟨j, -, hj⟩ := exists_of_mem_mapping (Finmap.mem_erase.mp ha).2
    exact ⟨j, hj⟩
  · intro j
    by_cases hj : j = k
    · subst hj
      rw [Finmap.lookup_erase, Table.find?_erase_self]
    · have hne : h.key j ≠ h.key k := hw.key_injective.ne hj
      rw [Finmap.lookup_erase_ne hne, lookup_mapping hw, Table.find?_erase_ne _ hj]

/-! ## Keys -/

theorem nodup_keys (hw : h.WellFormed) (t : Table Value Value) : (t.keys.map h.key).Nodup :=
  t.nodup.map hw.key_injective

/-- The keys of the dictionary stand for the keys of the map. -/
theorem keys_mapping (hw : h.WellFormed) (t : Table Value Value) :
    (h.mapping t).keys = (t.keys.map h.key).toFinset := by
  ext a
  rw [Finmap.mem_keys, List.mem_toFinset, List.mem_map]
  constructor
  · exact exists_of_mem_mapping
  · rintro ⟨k, hk, rfl⟩
    rw [mem_mapping_iff hw]
    exact Table.mem_keys_iff.mp hk

theorem card_keys_mapping (hw : h.WellFormed) (t : Table Value Value) :
    (h.mapping t).keys.card = t.size := by
  rw [keys_mapping hw, List.toFinset_card_of_nodup (nodup_keys hw t), List.length_map]
  exact List.length_map ..

/-! ## What keys stand for later on -/

theorem key_eq_of_textOf? (hs : h'.textOf? v = h.textOf? v) : h'.key v = h.key v := by
  unfold key
  rw [hs]

theorem textOf?_update {f : Object → Object}
    (hf : ∀ o s, (f o).body = .text s ↔ o.body = .text s) :
    (h.update d f).textOf? v = h.textOf? v := by
  refine Option.ext fun s => ?_
  rw [textOf?_eq_some, textOf?_eq_some]
  refine exists_congr fun r => and_congr_right fun _ => ?_
  rw [text_eq_ok, text_eq_ok, get?_update]
  split
  · rename_i hr
    rw [hr]
    cases h.get? d <;> simp [hf]
  · rfl

theorem text_changeDictionary (f : Table Value Value → Table Value Value) (o : Object)
    (s : String) : (changeDictionary f o).body = .text s ↔ o.body = .text s := by
  obtain ⟨marked, members, body⟩ := o
  cases body <;> simp [changeDictionary]

theorem key_changeDictionary (f : Table Value Value → Table Value Value) (v : Value) :
    (h.update d (changeDictionary f)).key v = h.key v :=
  key_eq_of_textOf? (textOf?_update (text_changeDictionary f))

theorem Allocated.key_eq {o : Object} (ha : Allocated h h' r o) (hv : h.Keeps v) :
    h'.key v = h.key v := by
  refine key_eq_of_textOf? ?_
  unfold textOf?
  cases hr : v.toHandle? with
  | none => rfl
  | some q =>
    obtain ⟨p, hp⟩ := isLive_iff.mp (hv q hr)
    simp only [text, Heap.get, hp, ha.get?_of_get? hp]

end Heap

/-! ## Queries -/

/-- What is asked of a dictionary by its methods and by subscripts. -/
inductive Query (κ : Type) where
  | put (key : κ) (v : Value)
  | write (key : κ) (v : Value)
  | get (key : κ)
  | read (key : κ)
  | has (key : κ)
  | remove (key : κ)
  | size
  | keys

namespace Query

def map {κ μ : Type} (f : κ → μ) : Query κ → Query μ
  | put k v => put (f k) v
  | write k v => write (f k) v
  | get k => get (f k)
  | read k => read (f k)
  | has k => has (f k)
  | remove k => remove (f k)
  | size => size
  | keys => keys

/-- What becomes of a finite map that is asked. -/
def change (map : Mapping) : Query Key → Mapping
  | put k v | write k v => map.insert k v
  | remove k => map.erase k
  | _ => map

/-- A key is looked up that is not there. -/
def Misses (map : Mapping) : Query Key → Prop
  | get k | read k => k ∉ map
  | _ => False

/-- What a finite map answers, in a heap in which the answer is. All keys are listed, each
once, in a new array. -/
def Answers (h : Heap) (map : Mapping) : Query Key → Value → Prop
  | put _ _, r => r = .nil
  | write _ v, r => r = v
  | get k, r | read k, r => map.lookup k = some r
  | has k, r => r = .ofBool (decide (k ∈ map))
  | remove k, r => r = (map.lookup k).getD .nil
  | size, r => r = NativeCall.ofNat map.keys.card
  | keys, r => ∃ a items, r = .ofHandle a ∧ h.array a = .ok items ∧
      (items.toList.map h.key).Nodup ∧ (items.toList.map h.key).toFinset = map.keys

end Query

namespace Heap

variable {h h' : Heap} {d r : Handle} {t t' : Table Value Value} {k v w : Value} {q : Query Value}

/-- What a dictionary answers and what becomes of the heap, unless it is asked for a key that
is not there. -/
inductive Replies (h : Heap) (d : Handle) (t : Table Value Value) :
    Query Value → Value → Heap → Prop
  | put (k v : Value) :
      Replies h d t (.put k v) .nil (h.update d (changeDictionary (·.insert k v)))
  | write (k v : Value) :
      Replies h d t (.write k v) v (h.update d (changeDictionary (·.insert k v)))
  | get {k v : Value} : t.find? k = some v → Replies h d t (.get k) v h
  | read {k v : Value} : t.find? k = some v → Replies h d t (.read k) v h
  | has (k : Value) : Replies h d t (.has k) (.ofBool (t.contains k)) h
  | remove (k : Value) : Replies h d t (.remove k) ((t.find? k).getD .nil)
      (h.update d (changeDictionary (·.erase k)))
  | size : Replies h d t .size (NativeCall.ofNat t.size) h
  | keys {items : Array Value} : items.toList.Perm t.keys →
      Replies h d t .keys (.ofHandle (h.alloc (.array items)).2) (h.alloc (.array items)).1

theorem dictionary_changeDictionary (ht : h.dictionary d = .ok t)
    (f : Table Value Value → Table Value Value) :
    (h.update d (changeDictionary f)).dictionary d = .ok (f t) := by
  obtain ⟨⟨marked, members, body⟩, ho, rfl⟩ := dictionary_eq_ok.mp ht
  exact dictionary_eq_ok.mpr ⟨_, get?_changeDictionary ho f, rfl⟩

theorem mapping?_changeDictionary (ht : h.dictionary d = .ok t)
    (f : Table Value Value → Table Value Value) :
    (h.update d (changeDictionary f)).mapping? d = some (h.mapping (f t)) := by
  refine mapping?_eq_some.mpr ⟨f t, dictionary_changeDictionary ht f, ?_⟩
  exact mapping_congr fun e _ => key_changeDictionary f e.1

theorem mapping?_update_ne (hne : r ≠ d) (f : Table Value Value → Table Value Value) :
    (h.update d (changeDictionary f)).mapping? r = h.mapping? r := by
  have hd : (h.update d (changeDictionary f)).dictionary r = h.dictionary r := by
    simp only [dictionary, Heap.get, get?_update, if_neg hne]
  have hm : (h.update d (changeDictionary f)).mapping = h.mapping := funext fun t =>
    mapping_congr fun e _ => key_changeDictionary f e.1
  rw [mapping?, mapping?, hd, hm]

/-- A dictionary answers as the finite map does that it is. -/
theorem Replies.answers (hr : Replies h d t q w h') (hw : h.WellFormed)
    (hfit : h'.slots.size ≤ slotLimit) (ht : h.dictionary d = .ok t)
    (hkeys : ∀ k ∈ t.keys, h.Keeps k) :
    (q.map h.key).Answers h' (h.mapping t) w ∧
      h'.mapping? d = some ((q.map h.key).change (h.mapping t)) := by
  have hsame : h.mapping? d = some (h.mapping t) := mapping?_eq_some.mpr ⟨t, ht, rfl⟩
  cases hr with
  | put k v =>
    refine ⟨rfl, (mapping?_changeDictionary ht _).trans ?_⟩
    exact congrArg some (mapping_insert hw t k v)
  | write k =>
    refine ⟨rfl, (mapping?_changeDictionary ht _).trans ?_⟩
    exact congrArg some (mapping_insert hw t k w)
  | get hv => exact ⟨(lookup_mapping hw t _).trans hv, hsame⟩
  | read hv => exact ⟨(lookup_mapping hw t _).trans hv, hsame⟩
  | has k =>
    refine ⟨congrArg Value.ofBool ?_, hsame⟩
    rw [Bool.eq_iff_iff, decide_eq_true_iff, mem_mapping_iff hw]
  | remove k =>
    refine ⟨?_, (mapping?_changeDictionary ht _).trans ?_⟩
    · change _ = ((h.mapping t).lookup (h.key k)).getD .nil
      rw [lookup_mapping hw]
    · exact congrArg some (mapping_erase hw t k)
  | size => exact ⟨congrArg NativeCall.ofNat (card_keys_mapping hw t).symm, hsame⟩
  | @keys items hperm =>
    have hnew := alloc_allocated hw.toArena (.array items) hfit
    have hkey : ∀ k ∈ t.keys, (h.alloc (.array items)).1.key k = h.key k :=
      fun k hk => hnew.key_eq (hkeys k hk)
    have hlisted : (items.toList.map (h.alloc (.array items)).1.key).Perm (t.keys.map h.key) := by
      rw [← List.map_congr_left hkey]
      exact hperm.map _
    refine ⟨⟨_, items, rfl, array_eq_ok.mpr ⟨_, hnew.get?_self, rfl⟩, ?_, ?_⟩, ?_⟩
    · exact hlisted.nodup_iff.mpr (nodup_keys hw t)
    · rw [keys_mapping hw]
      exact List.toFinset_eq_of_perm _ _ hlisted
    · obtain ⟨o, ho, hb⟩ := dictionary_eq_ok.mp ht
      refine mapping?_eq_some.mpr ⟨t, dictionary_eq_ok.mpr ⟨o, hnew.get?_of_get? ho, hb⟩, ?_⟩
      exact mapping_congr fun e he => hkey e.1 (List.mem_map_of_mem he)

/-- What is looked up is there. -/
theorem Replies.find?_eq (hr : Replies h d t q w h') (hq : q = .get k ∨ q = .read k) :
    t.find? k = some w := by
  rcases hq with rfl | rfl <;> cases hr <;> assumption

/-- Nothing but the dictionary changes. -/
theorem Replies.get?_of_ne (hr : Replies h d t q w h') (ha : h.Arena)
    (hfit : h'.slots.size ≤ slotLimit) (hne : r ≠ d) {o : Object} (ho : h.get? r = some o) :
    h'.get? r = some o := by
  cases hr with
  | put | write | remove => rw [get?_update, if_neg hne, ho]
  | get | read | has | size => exact ho
  | keys => exact (alloc_allocated ha _ hfit).get?_of_get? ho

end Heap

end FiberMachine
