import FiberMachine.Proofs.Heap.Descent
import FiberMachine.Proofs.Heap.Interning

/-!
# Heaps in another order

The entries of a dictionary and the fields of an instance come in the order in which they were
put in. Two heaps that differ in nothing but that order show the same texts: a dictionary is shown
in the order of the texts of its keys, and with texts that are all different there is only one.
-/

namespace FiberMachine

/-- The same body, up to the order of its entries or fields. -/
inductive Body.Reordered : Body → Body → Prop
  | refl (b : Body) : Reordered b b
  | dictionary {entries entries' : Table Value Value} : entries.toList.Perm entries'.toList →
      Reordered (.dictionary entries) (.dictionary entries')
  | instanceOf (cls : Handle) {fields fields' : Members} : fields.toList.Perm fields'.toList →
      Reordered (.instanceOf cls fields) (.instanceOf cls fields')

structure Object.Reordered (o o' : Object) : Prop where
  marked : o'.marked = o.marked
  members : o'.members = o.members
  body : o.body.Reordered o'.body

structure Slot.Reordered (s s' : Slot) : Prop where
  generation : s'.generation = s.generation
  bytes : s'.bytes = s.bytes
  object : Option.Rel Object.Reordered s.object s'.object

/-- Two heaps that are the same except for the order of entries and fields. -/
structure Heap.Reordered (h h' : Heap) : Prop where
  slots : ∀ i : Nat, Option.Rel Slot.Reordered h.slots[i]? h'.slots[i]?
  rest : h' = { h with slots := h'.slots }

variable {h h' : Heap} {r cls : Handle} {v : Value} {b b' : Body} {o o' : Object}

theorem rel_cases {α β : Type} {R : α → β → Prop} {x : Option α} {y : Option β}
    (hxy : Option.Rel R x y) : (x = none ∧ y = none) ∨ ∃ a b, x = some a ∧ y = some b ∧ R a b := by
  cases hxy with
  | some hab => exact .inr ⟨_, _, rfl, rfl, hab⟩
  | none => exact .inl ⟨rfl, rfl⟩

theorem rel_refl {α : Type} {R : α → α → Prop} (hR : ∀ a, R a a) (x : Option α) :
    Option.Rel R x x := by
  cases x with
  | none => exact .none
  | some a => exact .some (hR a)

/-! ## Bodies and objects -/

namespace Body.Reordered

theorem kind (hb : b.Reordered b') : b'.kind = b.kind := by cases hb <;> rfl

/-- The order takes no room. -/
theorem bytes (hb : b.Reordered b') : b'.bytes = b.bytes := by
  cases hb with
  | refl => rfl
  | dictionary he => exact congrArg (· * Body.entryBytes) he.length_eq.symm
  | instanceOf _ hf => exact congrArg (· * Body.entryBytes) hf.length_eq.symm

theorem mem_keys (hb : b.Reordered b') : v ∈ b'.keys ↔ v ∈ b.keys := by
  cases hb with
  | dictionary he => exact (he.map Prod.fst).mem_iff.symm
  | _ => rfl

theorem mem_inner (hb : b.Reordered b') : v ∈ b'.inner ↔ v ∈ b.inner := by
  cases hb with
  | dictionary he => exact (he.map Prod.snd).mem_iff.symm
  | _ => rfl

end Body.Reordered

theorem Object.Reordered.refl (o : Object) : o.Reordered o := ⟨rfl, rfl, .refl _⟩

theorem Object.Reordered.bytes (ho : o.Reordered o') : o'.bytes = o.bytes := by
  rw [Object.bytes, Object.bytes, ho.members, ho.body.bytes]

theorem Slot.Reordered.refl (s : Slot) : s.Reordered s := ⟨rfl, rfl, rel_refl .refl _⟩

namespace Heap.Reordered

theorem refl (h : Heap) : h.Reordered h := ⟨fun _ => rel_refl .refl _, rfl⟩

/-! ## Reading -/

/-- What one of the heaps finds, the other finds too. -/
theorem cases (hre : h.Reordered h') (r : Handle) :
    (h.get? r = none ∧ h'.get? r = none) ∨
      ∃ o o', h.get? r = some o ∧ h'.get? r = some o' ∧ o.Reordered o' := by
  simp only [get?, slot?]
  rcases rel_cases (hre.slots r.index.toNat) with ⟨hs, hs'⟩ | ⟨s, s', hs, hs', hslot⟩
  · simp [hs, hs']
  · simp only [hs, hs', hslot.generation]
    split
    · exact rel_cases hslot.object
    · exact .inl ⟨rfl, rfl⟩

theorem isLive (hre : h.Reordered h') (r : Handle) : h'.isLive r = h.isLive r := by
  rcases hre.cases r with ⟨ho, ho'⟩ | ⟨o, o', ho, ho', -⟩ <;> simp [Heap.isLive, ho, ho']

theorem text (hre : h.Reordered h') (r : Handle) : h'.text r = h.text r := by
  simp only [Heap.text, Heap.get]
  rcases hre.cases r with ⟨ho, ho'⟩ | ⟨⟨_, _, b⟩, ⟨_, _, b'⟩, ho, ho', -, -, hb⟩
  · simp only [ho, ho']
  · simp only [ho, ho']
    cases hb <;> rfl

theorem textOf? (hre : h.Reordered h') (v : Value) : h'.textOf? v = h.textOf? v := by
  simp only [Heap.textOf?, hre.text]

theorem nameText (hre : h.Reordered h') (r : Handle) (unknown : String) :
    h'.nameText r unknown = h.nameText r unknown := by
  simp only [Heap.nameText, hre.text]

theorem typeName (hre : h.Reordered h') (v : Value) : h'.typeName v = h.typeName v := by
  simp only [Heap.typeName, kindOf?]
  cases v.toHandle? with
  | none => rfl
  | some r =>
    rcases hre.cases r with ⟨ho, ho'⟩ | ⟨o, o', ho, ho', hoo⟩
    · simp [ho, ho']
    · simp [ho, ho', Object.kind, hoo.body.kind]

theorem className (hre : h.Reordered h') (cls : Handle) : h'.className cls = h.className cls := by
  simp only [Heap.className]
  rcases hre.cases cls with ⟨ho, ho'⟩ | ⟨⟨_, _, b⟩, ⟨_, _, b'⟩, ho, ho', -, -, hb⟩
  · simp only [ho, ho']
  · simp only [ho, ho']
    cases hb with
    | refl b => cases b <;> simp only [hre.nameText]
    | _ => rfl

/-! ## New objects -/

theorem size_eq (hre : h.Reordered h') : h'.slots.size = h.slots.size := by
  apply Nat.le_antisymm
  · rcases rel_cases (hre.slots h.slots.size) with ⟨-, hn⟩ | ⟨_, _, hs, -⟩
    · exact Array.getElem?_eq_none_iff.mp hn
    · simp at hs
  · rcases rel_cases (hre.slots h'.slots.size) with ⟨hn, -⟩ | ⟨_, _, -, hs, -⟩
    · exact Array.getElem?_eq_none_iff.mp hn
    · simp at hs

theorem rel_push {slots slots' : Array Slot} {s s' : Slot} (hsize : slots'.size = slots.size)
    (hslots : ∀ i : Nat, Option.Rel Slot.Reordered slots[i]? slots'[i]?) (hs : s.Reordered s')
    (i : Nat) : Option.Rel Slot.Reordered (slots.push s)[i]? (slots'.push s')[i]? := by
  rw [Array.getElem?_push, Array.getElem?_push, hsize]
  split
  · exact .some hs
  · exact hslots i

theorem rel_set {slots slots' : Array Slot} {s s' : Slot} (hsize : slots'.size = slots.size)
    (hslots : ∀ i : Nat, Option.Rel Slot.Reordered slots[i]? slots'[i]?) (hs : s.Reordered s')
    (j i : Nat) :
    Option.Rel Slot.Reordered (slots.setIfInBounds j s)[i]? (slots'.setIfInBounds j s')[i]? := by
  rw [Array.getElem?_setIfInBounds, Array.getElem?_setIfInBounds, hsize]
  split
  · split
    · exact .some hs
    · exact .none
  · exact hslots i

theorem reallocate (hre : h.Reordered h') (old new : UInt64) :
    (h.reallocate old new).Reordered (h'.reallocate old new) := by
  refine ⟨hre.slots, ?_⟩
  obtain ⟨-, hrest⟩ := hre
  rw [hrest]
  rfl

theorem fillNew (hre : h.Reordered h') (hoo : o.Reordered o') (bytes : UInt64) :
    ∃ r h₁ h₁', h.fillNew o bytes = (h₁, r) ∧ h'.fillNew o' bytes = (h₁', r) ∧
      h₁.Reordered h₁' := by
  have hsize := hre.size_eq
  refine ⟨_, _, _, rfl, Prod.ext rfl (by rw [Heap.fillNew, hsize]),
    rel_push hsize hre.slots ⟨rfl, rfl, .some hoo⟩, ?_⟩
  obtain ⟨-, hrest⟩ := hre
  rw [hrest]
  rfl

theorem fillFree (hre : h.Reordered h') (hoo : o.Reordered o') (index : UInt32)
    (generation : Generation) (bytes : UInt64) :
    ∃ r h₁ h₁', h.fillFree index generation o bytes = (h₁, r) ∧
      h'.fillFree index generation o' bytes = (h₁', r) ∧ h₁.Reordered h₁' := by
  have hslot : Slot.Reordered ⟨generation, bytes, some o⟩ ⟨generation, bytes, some o'⟩ :=
    ⟨rfl, rfl, .some hoo⟩
  refine ⟨_, _, _, rfl, rfl, rel_set hre.size_eq hre.slots hslot index.toNat, ?_⟩
  obtain ⟨-, hrest⟩ := hre
  rw [hrest]

/-- A new object of either heap gets the same handle. -/
theorem alloc (hre : h.Reordered h') (hb : b.Reordered b') :
    ∃ r h₁ h₁', h.alloc b = (h₁, r) ∧ h'.alloc b' = (h₁', r) ∧ h₁.Reordered h₁' := by
  have hoo : (Object.ofBody b).Reordered (.ofBody b') := ⟨rfl, rfl, hb⟩
  have hgrown := hre.reallocate 0 (UInt64.ofNat (Object.ofBody b).bytes)
  have hfree : h'.free = h.free := by rw [hre.rest]
  simp only [Heap.alloc, hoo.bytes, hfree]
  split
  · exact hgrown.fillNew hoo _
  · rename_i index _ _
    rcases rel_cases (hre.slots index.toNat) with ⟨hs, hs'⟩ | ⟨s, s', hs, hs', hslot⟩
    · simp only [hs, hs']
      exact hgrown.fillNew hoo _
    · simp only [hs, hs', hslot.generation]
      exact hgrown.fillFree hoo _ _ _

theorem intern (hre : h.Reordered h') (s : String) :
    ∃ r h₁ h₁', h.intern s = (h₁, r) ∧ h'.intern s = (h₁', r) ∧ h₁.Reordered h₁' := by
  have htexts : h'.texts = h.texts := by rw [hre.rest]
  simp only [Heap.intern, findText?, htexts]
  split
  · exact ⟨_, _, _, rfl, rfl, hre⟩
  · obtain ⟨r, h₁, h₁', hmade, hmade', hslots, hrest⟩ := hre.alloc (.refl (.text s))
    rw [hmade, hmade']
    refine ⟨_, _, _, rfl, rfl, hslots, ?_⟩
    rw [hrest]

end Heap.Reordered

/-! ## Texts -/

namespace Heap

/-- Rows with different texts have one order. -/
theorem sortEntries_eq {α : Type} {rows rows' : List (String × α)} (hp : rows.Perm rows')
    (hdistinct : (rows.map Prod.fst).Nodup) : sortEntries rows = sortEntries rows' := by
  have htrans : ∀ a b c : String × α, decide (a.1 ≤ b.1) = true → decide (b.1 ≤ c.1) = true →
      decide (a.1 ≤ c.1) = true := by
    simp only [decide_eq_true_eq]
    exact fun _ _ _ => String.le_trans
  have htotal : ∀ a b : String × α, (decide (a.1 ≤ b.1) || decide (b.1 ≤ a.1)) = true := by
    simp only [Bool.or_eq_true, decide_eq_true_eq]
    exact fun a b => String.le_total a.1 b.1
  have hsorted := List.mergeSort_perm rows fun a b => decide (a.1 ≤ b.1)
  have hsorted' := List.mergeSort_perm rows' fun a b => decide (a.1 ≤ b.1)
  refine (hsorted.trans (hp.trans hsorted'.symm)).eq_of_pairwise ?_
    (List.pairwise_mergeSort htrans htotal rows) (List.pairwise_mergeSort htrans htotal rows')
  simp only [decide_eq_true_eq]
  intro a b ha hb hab hba
  have hb' := hp.mem_iff.mpr (hsorted'.mem_iff.mp hb)
  exact List.inj_on_of_nodup_map hdistinct (hsorted.mem_iff.mp ha) hb' (String.le_antisymm hab hba)

theorem Reordered.displayBody (hre : h.Reordered h') (hb : b.Reordered b')
    {key item : Value → String} (hkeys : (b.keys.map key).Nodup) :
    h'.displayBody key item b' = h.displayBody key item b := by
  cases hb with
  | refl b => cases b <;> simp only [Heap.displayBody, hre.nameText, hre.className]
  | @dictionary entries entries' he =>
    have hrows := he.map fun e => (key e.1, e.2)
    have hdistinct : ((entries.toList.map fun e => (key e.1, e.2)).map Prod.fst).Nodup := by
      simpa [Body.keys, List.map_map, Function.comp_def] using hkeys
    simp only [Heap.displayBody, sortEntries_eq hrows hdistinct]
  | instanceOf => simp only [Heap.displayBody, hre.className]

/-- Without an object nothing is read from the heap. -/
theorem Reordered.displayScalar (hre : h.Reordered h') {object : Handle → Object → String}
    (hv : ∀ r o, v = .ofHandle r → h.get? r ≠ some o) :
    h'.displayScalar object v = h.displayScalar object v := by
  cases hx : v.toFloat? with
  | some x => simp only [Heap.displayScalar, hx]
  | none =>
    cases hb : v.toBool? with
    | some b => simp only [Heap.displayScalar, hx, hb]
    | none =>
      cases hr : v.toHandle? with
      | none => simp only [Heap.displayScalar, hx, hb, hr]
      | some r =>
        rcases hre.cases r with ⟨ho, ho'⟩ | ⟨o, o', ho, -, -⟩
        · simp only [Heap.displayScalar, hx, hb, hr, ho, ho']
        · exact absurd ho (hv r o (Value.ofHandle_of_toHandle? hr).symm)

/-- The keys of every dictionary have different texts. -/
def KeysDiffer (h : Heap) : Prop := ∀ r o, h.get? r = some o → (o.body.keys.map h.display).Nodup

/-- Where the calls come to an end, they write the same text in the other heap. -/
theorem Reordered.writeWithin (hre : h.Reordered h') (hdiffer : h.KeysDiffer) {calls depth : Nat}
    {t : String} (ht : h.writeWithin calls depth v = some t) :
    h'.writeWithin calls depth v = some t := by
  induction calls generalizing depth v t with
  | zero => cases ht
  | succ calls ih =>
    by_cases hv : ∃ r o, v = .ofHandle r ∧ h.get? r = some o
    · obtain ⟨r, o, rfl, hr⟩ := hv
      rcases hre.cases r with ⟨hnone, -⟩ | ⟨o, o', ho, ho', hoo⟩
      · cases hnone.symm.trans hr
      rw [writeWithin_object ho] at ht
      rw [writeWithin_object ho']
      split at ht
      · rename_i hle
        rwa [if_pos hle]
      · rename_i hlt
        rw [if_neg hlt]
        -- Both bodies are written with the texts that the first heap shows.
        obtain ⟨hkeys, hitems⟩ := isSome_writeBody.mp (Option.isSome_of_eq_some ht)
        have hkey := fun k hk => write_eq_display (hkeys k hk)
        have hitem := fun w hw => some_getD (a := "") (hitems w hw)
        rw [writeBody_eq hkey hitem] at ht
        have hkey' : ∀ k ∈ o'.body.keys, h'.writeWithin calls 0 k = some (h.display k) :=
          fun k hk => ih (hkey k (hoo.body.mem_keys.mp hk))
        have hitem' := fun w hw => ih (hitem w (hoo.body.mem_inner.mp hw))
        rw [writeBody_eq hkey' hitem', hre.displayBody hoo.body (hdiffer r o ho)]
        exact ht
    · have hv : ∀ r o, v = .ofHandle r → h.get? r ≠ some o := fun r o heq ho => hv ⟨r, o, heq, ho⟩
      have hv' : ∀ r o, v = .ofHandle r → h'.get? r ≠ some o := by
        rintro r o rfl ho'
        rcases hre.cases r with ⟨-, hnone⟩ | ⟨o, -, ho, -, -⟩
        · cases hnone.symm.trans ho'
        · exact hv r o rfl ho
      rw [writeWithin_scalar hv fun _ _ => ""] at ht
      rw [writeWithin_scalar hv' fun _ _ => "", hre.displayScalar hv]
      exact ht

/-- Keys with different texts, none of which leads back to its dictionary, are shown in one
order. -/
theorem Reordered.display (hre : h.Reordered h') (hdiffer : h.KeysDiffer)
    (hown : ∀ r, ¬ h.InOwnKey r) (v : Value) : h'.display v = h.display v := by
  have hwritten := isSome_of_not_inOwnKey (v := v) (Nat.zero_le _) (fun r _ => hown r)
    (Nat.le_refl _)
  exact display_of_write (hre.writeWithin hdiffer (write_eq_display hwritten))

end Heap

end FiberMachine
