import FiberMachine.Proofs.Machine.Calling
import FiberMachine.Proofs.Machine.Loading

/-!
# Modest moves

What works on values makes no module, no function and no fiber, and changes none, whether it
fails or not.
-/

namespace FiberMachine

open Relation (ReflTransGen)

/-- The kinds of objects that no work on values makes or changes. -/
def Kind.isSealed (k : Kind) : Bool := k = .module || k = .function || k = .fiber

/-! ## Modest moves in the heap -/

namespace Heap

variable {h h' : Heap} {r : Handle}

/-- A change that leaves sealed objects alone. -/
class Passes (f : Object → Object) : Prop where
  passed : ∀ o, o.kind.isSealed → f o = o

instance (f : Array Value → Array Value) : Passes (changeArray f) := by
  constructor
  rintro ⟨marked, members, body⟩ hk
  cases body <;> simp [Object.kind, Body.kind, Kind.isSealed] at hk <;> rfl

instance (f : Table Value Value → Table Value Value) : Passes (changeDictionary f) := by
  constructor
  rintro ⟨marked, members, body⟩ hk
  cases body <;> simp [Object.kind, Body.kind, Kind.isSealed] at hk <;> rfl

instance (f : Members → Members) : Passes (changeFields f) := by
  constructor
  rintro ⟨marked, members, body⟩ hk
  cases body <;> simp [Object.kind, Body.kind, Kind.isSealed] at hk <;> rfl

instance (f : UserData → UserData) : Passes (Machine.changeUserData f) := by
  constructor
  rintro ⟨marked, members, body⟩ hk
  cases body <;> simp [Object.kind, Body.kind, Kind.isSealed] at hk <;> rfl

inductive Modest : Heap → Heap → Prop
  | intern (h : Heap) (s : String) : Modest h (h.intern s).1
  | alloc (h : Heap) {b : Body} : b.kind ≠ .text → ¬ b.kind.isSealed → Modest h (h.alloc b).1
  | build (h : Heap) {b : Body} (f : Object → Object) [Plain f] : b.kind ≠ .text →
      ¬ b.kind.isSealed → Modest h ((h.alloc b).1.update (h.alloc b).2 f)
  | update (h : Heap) (r : Handle) (f : Object → Object) [Plain f] :
      (∀ o, h.get? r = some o → o.kind.isSealed → f o = o) → Modest h (h.update r f)

/-- The sealed objects are the same. -/
def Respects (h h' : Heap) : Prop :=
  ∀ r o, o.kind.isSealed → (h'.get? r = some o ↔ h.get? r = some o)

theorem kind_ne_fiber {b : Body} (hb : ¬ b.kind.isSealed) : b.kind ≠ .fiber := by
  intro h
  simp [h, Kind.isSealed] at hb

theorem Modest.row (hm : Modest h h') : ReflTransGen Move h h' := by
  cases hm with
  | intern s => exact .single (.intern h s)
  | alloc ht hb => exact .single (.alloc h ht (kind_ne_fiber hb))
  | build f ht hb => exact .tail (.single (.alloc h ht (kind_ne_fiber hb))) (.update _ _ f)
  | update r f _ => exact .single (.update h r f)

theorem Allocated.respects {o : Object} (ha : Allocated h h' r o) (ho : ¬ o.kind.isSealed) :
    Respects h h' := by
  intro s p hk
  rw [ha.get?]
  split
  · rename_i hs
    rw [hs, ha.fresh]
    refine ⟨fun he => ?_, nofun⟩
    cases he
    exact absurd hk ho
  · rfl

theorem Allocated.not_isLive {o : Object} (ha : Allocated h h' r o) : ¬ h.isLive r := by
  rw [Heap.isLive, ha.fresh]
  decide

theorem Modest.respects (hm : Modest h h') (ha : h.Arena) (hfit : h'.slots.size ≤ slotLimit) :
    Respects h h' := by
  cases hm with
  | intern s =>
    cases hs : h.texts.find? s with
    | some r =>
      rw [intern_old hs]
      exact fun _ _ _ => .rfl
    | none =>
      obtain ⟨hnew, -⟩ := intern_allocated ha hs hfit
      exact hnew.respects (by simp [Object.kind, Object.ofBody, Body.kind, Kind.isSealed])
  | alloc ht hb => exact (alloc_allocated ha _ hfit).respects hb
  | @build b f _ ht hb =>
    rw [size_update] at hfit
    have hnew := alloc_allocated ha b hfit
    intro r o hk
    rw [get?_update, ← hnew.respects hb r o hk]
    split
    · -- the new object is not sealed, whatever it is changed into
      rename_i hr
      have hne : ∀ p, p.kind = b.kind → p ≠ o := by
        rintro p hp rfl
        exact hb (hp ▸ hk)
      rw [hr, hnew.get?_self, Option.map_some, Option.some.injEq, Option.some.injEq]
      exact iff_of_false (hne _ (Plain.kind (f := f) (.ofBody b))) (hne (.ofBody b) rfl)
    · rfl
  | update r f hf =>
    intro s o hk
    rw [get?_update]
    split
    · rename_i hs
      rw [hs, Option.map_eq_some_iff]
      constructor
      · rintro ⟨p, hp, rfl⟩
        rw [hf p hp (Plain.kind (f := f) p ▸ hk), hp]
      · intro ho
        exact ⟨o, ho, hf o ho hk⟩
    · rfl

theorem row_sameFibers (hr : ReflTransGen Move h h') (hw : h.WellFormed)
    (hfit : h'.slots.size ≤ slotLimit) : SameFibers h h' := by
  induction hr with
  | refl => exact .refl h
  | tail hrow hm ih =>
    have hfit₁ := Nat.le_trans hm.size_le hfit
    exact (ih hfit₁).trans (hm.sameFibers (row_wellFormed hrow hw hfit₁) hfit)

theorem row_of_modest (hr : ReflTransGen Modest h h') : ReflTransGen Move h h' := by
  induction hr with
  | refl => exact .refl
  | tail _ hm ih => exact ih.trans hm.row

theorem row_respects (hr : ReflTransGen Modest h h') (hw : h.WellFormed)
    (hfit : h'.slots.size ≤ slotLimit) : Respects h h' := by
  induction hr with
  | refl => exact fun _ _ _ => .rfl
  | tail hrow hm ih =>
    have hfit₁ := Nat.le_trans (row_size_le hm.row) hfit
    have hw₁ := row_wellFormed (row_of_modest hrow) hw hfit₁
    exact fun r o hk => (hm.respects hw₁.toArena hfit r o hk).trans (ih hfit₁ r o hk)

/-! ### Modest actions on the heap -/

instance (s : String) : Makes Modest (run (·.intern s)) := .single fun h => .intern h s

theorem modest_alloc {b : Body} (ht : b.kind ≠ .text) (hb : ¬ b.kind.isSealed) :
    Makes Modest (run (·.alloc b)) := .single fun h => .alloc h ht hb

instance (items : Array Value) : Makes Modest (run (·.alloc (.array items))) :=
  modest_alloc nofun nofun

instance (entries : Table Value Value) : Makes Modest (run (·.alloc (.dictionary entries))) :=
  modest_alloc nofun nofun

instance (span : Span) : Makes Modest (run (·.alloc (.span span))) := modest_alloc nofun nofun

/-- A change is modest where it leaves a sealed object alone. -/
theorem row_change {f : Object → Object} [Plain f]
    (hf : ∀ o, h.get? r = some o → o.kind.isSealed → f o = o) :
    ReflTransGen Modest h (after (change r f) h) := by
  simp only [after, change]
  by_cases hr : h.isLive r <;> simp only [hr, ↓reduceIte, Bool.false_eq_true]
  · exact .single (.update h r f hf)
  · exact .refl

instance (r : Handle) (f : Object → Object) [Plain f] [hf : Passes f] : Makes Modest (change r f) :=
  ⟨fun _ => row_change fun o _ => hf.passed o⟩

instance (r : Handle) (v : Value) : Makes Modest (pushItem r v) := by
  unfold pushItem
  exact .parts

instance (cls : Handle) : Makes Modest (newInstance cls) := by
  unfold newInstance
  refine .bind .get fun _ => .bind (.except _) fun o => ⟨fun h => ?_⟩
  rw [after_bind]
  simp only [run, after_bind, change]
  split
  · rename_i heq
    split at heq <;> cases heq
    exact .single (.build h _ nofun nofun)
  · rename_i heq
    split at heq <;> cases heq
    exact .single (.alloc h nofun nofun)

instance (index : Value) (b : Body) : Makes Modest (itemOf index b) := by
  unfold itemOf
  exact .parts

instance (target index : Value) : Makes Modest (item target index) := by
  unfold item
  exact .parts

instance (target start stop : Value) : Makes Modest (slice target start stop) := by
  unfold slice
  exact .parts

instance (a b : Value) : Makes Modest (append a b) := by
  unfold append
  exact .parts

instance (a b : Value) : Makes Modest (sum a b) := by
  unfold sum
  exact .parts

/-- Only the items of an array or the entries of a dictionary change at a subscript. -/
theorem itemChange_eq_ok {index v : Value} {b : Body} {f : Object → Object}
    (h : itemChange index v b = .ok f) :
    (∃ g, f = changeArray g) ∨ ∃ g, f = changeDictionary g := by
  simp only [itemChange] at h
  split at h
  · rename_i items
    cases hi : place index items.size with
    | error fault => simp [hi, Bind.bind, Except.bind] at h
    | ok i =>
      simp only [hi, Bind.bind, Except.bind, Pure.pure, Except.pure, Except.ok.injEq] at h
      exact .inl ⟨_, h.symm⟩
  · cases h
    exact .inr ⟨_, rfl⟩
  · cases h

instance (target index v : Value) : Makes Modest (setItem target index v) := by
  unfold setItem
  split
  · infer_instance
  · refine .bind .get fun h => .bind (.except _) fun o => .bind_except fun f hf => ?_
    obtain ⟨g, rfl⟩ | ⟨g, rfl⟩ := itemChange_eq_ok hf <;> infer_instance

mutual

theorem modest_ofJson (h : Heap) : ∀ j, ReflTransGen Modest h (ofJson h j).1
  | .null | .bool _ | .number _ => .refl
  | .text s => .single (.intern h s)
  | .array items => by
    refine (modest_ofJsonItems h items).tail (.alloc _ ?_ ?_) <;> simp [Body.kind, Kind.isSealed]
  | .object entries => by
    refine .trans (.single (.alloc h ?_ ?_)) (modest_ofJsonEntries _ _ entries) <;>
      simp [Body.kind, Kind.isSealed]

theorem modest_ofJsonItems (h : Heap) : ∀ js, ReflTransGen Modest h (ofJsonItems h js).1
  | [] => .refl
  | j :: rest => (modest_ofJson h j).trans (modest_ofJsonItems _ rest)

theorem modest_ofJsonEntries (h : Heap) (r : Handle) :
    ∀ js, ReflTransGen Modest h (ofJsonEntries h r js)
  | [] => .refl
  | (key, j) :: rest =>
    .trans ((ReflTransGen.single (.intern h key)).trans (modest_ofJson _ j))
      (.trans (.single (.update _ r (changeDictionary _) fun o _ => Passes.passed o))
        (modest_ofJsonEntries _ r rest))

end

instance (j : JsonValue) : Makes Modest (run (·.ofJson j)) := ⟨fun h => modest_ofJson h j⟩

end Heap

namespace NativeCall

open Heap (Modest)

variable (c : NativeCall)

instance : Makes Modest c.arrayLength := by
  unfold arrayLength
  exact .parts

instance : Makes Modest c.arrayAppend := by
  unfold arrayAppend
  exact .parts

instance : Makes Modest c.arrayPop := by
  unfold arrayPop
  exact .parts

instance : Makes Modest c.spanExpand := by
  unfold spanExpand
  exact .parts

instance : Makes Modest c.spanStep := by
  unfold spanStep
  exact .parts

instance : Makes Modest c.dictPut := by
  unfold dictPut
  exact .parts

instance : Makes Modest c.dictGet := by
  unfold dictGet
  exact .parts

instance : Makes Modest c.dictHas := by
  unfold dictHas
  exact .parts

instance : Makes Modest c.dictRemove := by
  unfold dictRemove
  exact .parts

instance : Makes Modest c.dictSize := by
  unfold dictSize
  exact .parts

instance : Makes Modest c.dictKeys := by
  unfold dictKeys
  exact .parts

instance : Makes Modest c.textLength := by
  unfold textLength
  exact .parts

instance (lib : JsonLibrary) : Makes Modest (c.jsonParse lib) := by
  unfold jsonParse
  exact .parts

instance (lib : JsonLibrary) : Makes Modest (c.jsonStringify lib) := by
  unfold jsonStringify
  exact .parts

end NativeCall

end FiberMachine
