import FiberMachine.Proofs.Heap.TextKeys

/-!
# Insertion order

The order in which entries and fields were put in is not shown by texts of values, by lists of
keys, or by JSON texts, whatever is inside what.
-/

namespace FiberMachine

namespace Heap

open TextKeyed (Fits)

variable {h h' : Heap} {r : Handle} {v : Value}

/-! ## What a program is given -/

/-- The keys of a dictionary in the order of their texts. -/
def listedKeys (h : Heap) (t : Table Value Value) : List Value :=
  (sortEntries (t.keys.map fun key => (h.display key, key))).map Prod.snd

theorem Reordered.dictionary (hre : h.Reordered h') {t : Table Value Value}
    (ht : h.dictionary r = .ok t) : ∃ t', h'.dictionary r = .ok t' ∧ t.toList.Perm t'.toList := by
  obtain ⟨⟨_, _, b⟩, ho, rfl⟩ := dictionary_eq_ok.mp ht
  rcases hre.cases r with ⟨hn, -⟩ | ⟨o₁, ⟨_, _, b'⟩, ho₁, ho', -, -, hb⟩
  · cases hn.symm.trans ho
  · obtain rfl := Option.some.inj (ho₁.symm.trans ho)
    cases hb with
    | refl => exact ⟨t, dictionary_eq_ok.mpr ⟨_, ho', rfl⟩, .refl _⟩
    | dictionary hperm => exact ⟨_, dictionary_eq_ok.mpr ⟨_, ho', rfl⟩, hperm⟩

theorem Reordered.listedKeys (hre : h.Reordered h') (hp : h.Presentable) {t t' : Table Value Value}
    (ht : h.dictionary r = .ok t) (hperm : t.toList.Perm t'.toList) :
    h'.listedKeys t' = h.listedKeys t := by
  obtain ⟨o, ho, hb⟩ := dictionary_eq_ok.mp ht
  have hdistinct : ((t.keys.map fun key => (h.display key, key)).map Prod.fst).Nodup := by
    have hdiffer := hp.differ r o ho
    rw [hb] at hdiffer
    rw [List.map_map]
    exact hdiffer
  have hkeys : t.keys.Perm t'.keys := hperm.map Prod.fst
  have hrows := hkeys.map fun key => (h.display key, key)
  have hdisplay : h'.display = h.display := funext (hre.display hp.differ hp.apart)
  rw [Heap.listedKeys, Heap.listedKeys, hdisplay, sortEntries_eq hrows hdistinct]

theorem dictKeys_apply {t : Table Value Value} (hv : v.toHandle? = some r)
    (ht : h.dictionary r = .ok t) (name : String) (rest : List Value) :
    NativeCall.dictKeys ⟨name, v :: rest⟩ h =
      .ok (.ofHandle (h.alloc (.array (h.listedKeys t).toArray)).2)
        (h.alloc (.array (h.listedKeys t).toArray)).1 := by
  simp only [NativeCall.dictKeys, bind_apply, object_apply_of_dictionary hv ht, get_apply, ht,
    except_apply, run, pure_apply, listedKeys]

/-! ## Records in two orders -/

/-- Two entries, put in one way or the other. -/
def twoEntries {κ : Type} [DecidableEq κ] (flipped : Bool) (x y : κ × Value) : Table κ Value :=
  if flipped then (Table.empty.insert y.1 y.2).insert x.1 x.2
  else (Table.empty.insert x.1 x.2).insert y.1 y.2

theorem toList_two {κ : Type} [DecidableEq κ] {x y : κ × Value} (hne : x.1 ≠ y.1) :
    ((Table.empty.insert x.1 x.2).insert y.1 y.2).toList = [y, x] := by
  have hfirst : (Table.empty.insert x.1 x.2).toList = [x] := rfl
  have hnew : y.1 ∉ (Table.empty.insert x.1 x.2).keys := by
    rw [Table.keys, ← Table.toList, hfirst]
    simpa using Ne.symm hne
  rw [Table.toList_insert_of_notMem hnew, hfirst]

theorem twoEntries_perm {κ : Type} [DecidableEq κ] {x y : κ × Value} (hne : x.1 ≠ y.1) :
    (twoEntries false x y).toList.Perm (twoEntries true x y).toList := by
  simp only [twoEntries, Bool.false_eq_true, ↓reduceIte, toList_two hne, toList_two hne.symm]
  exact .swap ..

theorem forall_twoEntries {κ : Type} [DecidableEq κ] {x y : κ × Value} (hne : x.1 ≠ y.1)
    (flipped : Bool) {P : κ × Value → Prop} (hx : P x) (hy : P y) :
    ∀ e ∈ (twoEntries flipped x y).toList, P e := by
  cases flipped <;>
    simp only [twoEntries, Bool.false_eq_true, ↓reduceIte, toList_two hne, toList_two hne.symm] <;>
    simp [hx, hy]

def firstName : Heap × Handle := empty.intern "a"

def lastName : Heap × Handle := firstName.1.intern "b"

def recordClass : Heap × Handle := lastName.1.alloc (.classObject firstName.2)

def innerRecord (flipped : Bool) : Heap × Handle :=
  recordClass.1.alloc (.dictionary (twoEntries flipped (.ofHandle firstName.2, .nil)
    (.ofHandle lastName.2, .ofBool true)))

def fieldRecord (flipped : Bool) : Heap × Handle :=
  (innerRecord flipped).1.alloc (.instanceOf recordClass.2 (twoEntries flipped
    (firstName.2, .ofHandle (innerRecord flipped).2) (lastName.2, .nil)))

/-- A dictionary that holds a dictionary and an instance, each with two entries in one order
or the other. -/
def outerRecord (flipped : Bool) : Heap × Handle :=
  (fieldRecord flipped).1.alloc (.dictionary (twoEntries flipped
    (.ofHandle firstName.2, .ofHandle (innerRecord flipped).2)
    (.ofHandle lastName.2, .ofHandle (fieldRecord flipped).2)))

theorem size_lastName : lastName.1.slots.size ≤ 2 :=
  (size_intern_le _ _).trans (Nat.succ_le_succ (size_intern_le _ _))

theorem size_outerRecord (flipped : Bool) : (outerRecord flipped).1.slots.size ≤ 6 :=
  (size_alloc_le _ _).trans <| Nat.succ_le_succ <| (size_alloc_le _ _).trans <|
    Nat.succ_le_succ <| (size_alloc_le _ _).trans <| Nat.succ_le_succ <|
    (size_alloc_le _ _).trans <| Nat.succ_le_succ size_lastName

theorem lastName_textKeyed : lastName.1.TextKeyed :=
  (TextKeyed.empty.intern (by decide : (empty.intern "a").1.slots.size ≤ slotLimit)).intern
    (size_lastName.trans (by decide))

theorem text_lastName :
    lastName.1.text firstName.2 = .ok "a" ∧ lastName.1.text lastName.2 = .ok "b" := by
  have hfirst : firstName.1.slots.size ≤ slotLimit := by decide
  have hlast := size_lastName.trans (by decide : 2 ≤ slotLimit)
  have hkeyed := TextKeyed.empty.intern hfirst
  have hw := lastName_textKeyed.wellFormed
  constructor
  · apply (Remains.intern hkeyed.wellFormed.toArena "b" hlast).text
    exact hkeyed.wellFormed.findText_eq_some.mp (find_text_intern empty_wellFormed.toArena hfirst)
  · exact hw.findText_eq_some.mp (find_text_intern hkeyed.wellFormed.toArena hlast)

theorem firstName_ne : firstName.2 ≠ lastName.2 := by
  intro heq
  obtain ⟨hfirst, hlast⟩ := text_lastName
  have htexts := (lastName_textKeyed.wellFormed.eq_iff_of_text hfirst hlast).mp heq
  exact absurd htexts (by decide)

theorem outerRecord_textKeyed (flipped : Bool) : (outerRecord flipped).1.TextKeyed := by
  have hne := firstName_ne
  have hne' : Value.ofHandle firstName.2 ≠ .ofHandle lastName.2 := Value.ofHandle_injective.ne hne
  have hfit : (outerRecord flipped).1.slots.size ≤ slotLimit :=
    (size_outerRecord flipped).trans (by decide)
  have hfit₃ : (fieldRecord flipped).1.slots.size ≤ slotLimit := (size_le_alloc _ _).trans hfit
  have hfit₂ : (innerRecord flipped).1.slots.size ≤ slotLimit := (size_le_alloc _ _).trans hfit₃
  have hfit₁ : recordClass.1.slots.size ≤ slotLimit := (size_le_alloc _ _).trans hfit₂
  have hnil (h : Heap) : h.Keeps .nil := keeps_scalar Value.toHandle?_nil
  have htrue (h : Heap) : h.Keeps (.ofBool true) := keeps_scalar (Value.toHandle?_ofBool true)
  -- The class, with the two names before it.
  obtain ⟨hfirst, hlast⟩ := text_lastName
  have hk₁ : recordClass.1.TextKeyed := lastName_textKeyed.alloc (fits_class hfirst) (by simp) hfit₁
  have hclass := alloc_allocated lastName_textKeyed.wellFormed.toArena _ hfit₁
  have hremains : lastName.1.Remains recordClass.1 := fun _ _ => hclass.get?_of_get?
  have hfirst := hremains.text hfirst
  have hlast := hremains.text hlast
  have hclass := isLive_iff.mpr ⟨_, hclass.get?_self⟩
  -- The dictionary inside.
  have hk₂ : (innerRecord flipped).1.TextKeyed := by
    refine hk₁.alloc (fits_dictionary (forall_twoEntries hne' flipped ?_ ?_)) (by simp) hfit₂
    · exact ⟨⟨_, textOf?_eq_some.mpr ⟨_, rfl, hfirst⟩⟩, hnil _⟩
    · exact ⟨⟨_, textOf?_eq_some.mpr ⟨_, rfl, hlast⟩⟩, htrue _⟩
  have hinner := alloc_allocated hk₁.wellFormed.toArena _ hfit₂
  have hremains : recordClass.1.Remains (innerRecord flipped).1 := fun _ _ => hinner.get?_of_get?
  have hfirst := hremains.text hfirst
  have hlast := hremains.text hlast
  have hclass := hremains.isLive hclass
  have hinner := isLive_iff.mpr ⟨_, hinner.get?_self⟩
  -- The instance.
  have hk₃ : (fieldRecord flipped).1.TextKeyed := by
    refine hk₂.alloc (fits_instance hclass (forall_twoEntries hne flipped ?_ ?_)) (by simp) hfit₃
    · exact ⟨⟨_, hfirst⟩, Machine.keeps_ofHandle hinner⟩
    · exact ⟨⟨_, hlast⟩, hnil _⟩
  have hfield := alloc_allocated hk₂.wellFormed.toArena _ hfit₃
  have hremains : (innerRecord flipped).1.Remains (fieldRecord flipped).1 :=
    fun _ _ => hfield.get?_of_get?
  have hfirst := hremains.text hfirst
  have hlast := hremains.text hlast
  have hinner := hremains.isLive hinner
  have hfield := isLive_iff.mpr ⟨_, hfield.get?_self⟩
  refine hk₃.alloc (fits_dictionary (forall_twoEntries hne' flipped ?_ ?_)) (by simp) hfit
  · exact ⟨⟨_, textOf?_eq_some.mpr ⟨_, rfl, hfirst⟩⟩, Machine.keeps_ofHandle hinner⟩
  · exact ⟨⟨_, textOf?_eq_some.mpr ⟨_, rfl, hlast⟩⟩, Machine.keeps_ofHandle hfield⟩

theorem outerRecord_reordered : (outerRecord false).1.Reordered (outerRecord true).1 := by
  have hne := firstName_ne
  have hne' : Value.ofHandle firstName.2 ≠ .ofHandle lastName.2 := Value.ofHandle_injective.ne hne
  have hentries : ∀ v w : Value, Body.Reordered
      (.dictionary (twoEntries false (.ofHandle firstName.2, v) (.ofHandle lastName.2, w)))
      (.dictionary (twoEntries true (.ofHandle firstName.2, v) (.ofHandle lastName.2, w))) :=
    fun v w => .dictionary (twoEntries_perm hne')
  have hfields : ∀ v w : Value, Body.Reordered
      (.instanceOf recordClass.2 (twoEntries false (firstName.2, v) (lastName.2, w)))
      (.instanceOf recordClass.2 (twoEntries true (firstName.2, v) (lastName.2, w))) :=
    fun v w => .instanceOf _ (twoEntries_perm hne)
  obtain ⟨inner, h₁, h₁', hmade, hmade', hre⟩ :=
    (Reordered.refl recordClass.1).alloc (hentries .nil (.ofBool true))
  have hinner : innerRecord false = (h₁, inner) := hmade
  have hinner' : innerRecord true = (h₁', inner) := hmade'
  obtain ⟨field, h₂, h₂', hmade, hmade', hre⟩ := hre.alloc (hfields (.ofHandle inner) .nil)
  have hfield : fieldRecord false = (h₂, field) := by rw [fieldRecord, hinner, hmade]
  have hfield' : fieldRecord true = (h₂', field) := by rw [fieldRecord, hinner', hmade']
  obtain ⟨outer, h₃, h₃', hmade, hmade', hre⟩ :=
    hre.alloc (hentries (.ofHandle inner) (.ofHandle field))
  rw [outerRecord, outerRecord, hfield, hfield', hinner, hinner', hmade, hmade']
  exact hre

/-! ## What is guaranteed -/

/-- What is the same in two heaps that differ in the order of entries and fields. -/
structure OrderGuarantees (h h' : Heap) : Prop where
  /-- Every value has one text. -/
  display : ∀ v, h'.display v = h.display v
  /-- The keys of a dictionary come in one order, in an array with the same handle. -/
  keys : ∀ (name : String) (v : Value) (rest : List Value) d t, v.toHandle? = some d →
    h.dictionary d = .ok t →
    ∃ (keys : List Value) (r : Handle) (h₁ h₁' : Heap), keys.Perm t.keys ∧
      h.alloc (.array keys.toArray) = (h₁, r) ∧ h'.alloc (.array keys.toArray) = (h₁', r) ∧
      h₁.Reordered h₁' ∧ NativeCall.dictKeys ⟨name, v :: rest⟩ h = .ok (.ofHandle r) h₁ ∧
      NativeCall.dictKeys ⟨name, v :: rest⟩ h' = .ok (.ofHandle r) h₁'
  /-- A value that has a JSON form is written as one text, compact or indented, whatever library
  writes it. -/
  written : ∀ (lib : JsonLibrary) (c : NativeCall) v j, c.args[0]? = some v →
    h.toJson (jsonDepth + 1) v = .ok j →
    ∃ (r : Handle) (h₁ h₁' : Heap), h.intern (lib.render c.jsonLayout j) = (h₁, r) ∧
      h'.intern (lib.render c.jsonLayout j) = (h₁', r) ∧ h₁.Reordered h₁' ∧
      c.jsonStringify lib h = .ok (.ofHandle r) h₁ ∧
      c.jsonStringify lib h' = .ok (.ofHandle r) h₁'
  /-- A value that has none is refused with one fault. -/
  refused : ∀ (lib : JsonLibrary) (c : NativeCall) v fault, c.args[0]? = some v →
    h.toJson (jsonDepth + 1) v = .error fault →
    c.jsonStringify lib h = .error fault h ∧ c.jsonStringify lib h' = .error fault h'

theorem orderGuarantees (hp : h.Presentable) (hre : h.Reordered h') : OrderGuarantees h h' where
  display := hre.display hp.differ hp.apart
  keys name v rest d t hv ht := by
    obtain ⟨t', ht', hperm⟩ := hre.dictionary ht
    obtain ⟨r, h₁, h₁', hmade, hmade', hgrown⟩ :=
      hre.alloc (.refl (.array (h.listedKeys t).toArray))
    refine ⟨h.listedKeys t, r, h₁, h₁', sortEntries_perm h t.keys, hmade, hmade', hgrown, ?_, ?_⟩
    · rw [dictKeys_apply hv ht, hmade]
    · rw [dictKeys_apply hv ht', hre.listedKeys hp ht hperm, hmade']
  written lib c v j hc hj := by
    obtain ⟨r, h₁, h₁', hmade, hmade', hgrown⟩ := hre.intern (lib.render c.jsonLayout j)
    refine ⟨r, h₁, h₁', hmade, hmade', hgrown, ?_, ?_⟩
    · simp only [jsonStringify_apply hc, hj, hmade]
    · simp only [jsonStringify_apply hc, hre.toJson hp, hj, hmade']
  refused lib c v fault hc hj := by
    rw [jsonStringify_apply hc, jsonStringify_apply hc, hre.toJson hp, hj]
    exact ⟨rfl, rfl⟩

/-- The records differ in the order of all their entries and fields, and in nothing else. -/
theorem orderGuarantees_outerRecord :
    (outerRecord false).1.Presentable ∧ (outerRecord false).1.Reordered (outerRecord true).1 ∧
      OrderGuarantees (outerRecord false).1 (outerRecord true).1 :=
  have hp := (outerRecord_textKeyed false).presentable
  ⟨hp, outerRecord_reordered, orderGuarantees hp outerRecord_reordered⟩

end Heap
end FiberMachine
