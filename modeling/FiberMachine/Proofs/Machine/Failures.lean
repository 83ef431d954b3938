import FiberMachine.Proofs.Machine.Mild

/-!
# Actions that fail mildly

An action that looks at everything that can go wrong before it changes anything has done
only mild things when it fails. The native functions of the library are such actions, and
so are definitions and assignments.
-/

namespace FiberMachine

open Relation (ReflTransGen)

variable {σ α β : Type}

/-- When an action fails it has done nothing but a row of moves. -/
class Fails (M : σ → σ → Prop) (x : EStateM Fault σ α) : Prop where
  row : ∀ s e s', x s = .error e s' → ReflTransGen M s s'

/-- An action that does not fail. -/
class Succeeds (x : EStateM Fault σ α) : Prop where
  ne_error : ∀ s e s', x s ≠ .error e s'

namespace Succeeds

instance pure (a : α) : Succeeds (pure a : EStateM Fault σ α) := ⟨nofun⟩

instance get : Succeeds (get : EStateM Fault σ σ) := ⟨nofun⟩

instance modify (f : σ → σ) : Succeeds (modify f : EStateM Fault σ Unit) := ⟨nofun⟩

instance run (f : Heap → Heap × α) : Succeeds (Heap.run f) := ⟨nofun⟩

instance lift (x : Heap.Act α) [hx : Succeeds x] : Succeeds (liftM x : Machine.Act α) := by
  refine ⟨fun m e m' h => ?_⟩
  rw [Machine.lift_apply] at h
  split at h
  · cases h
  · rename_i hm
    exact hx.ne_error _ _ _ hm

instance onHost (f : Host → α × Host) : Succeeds (Machine.onHost f) :=
  ⟨fun _ _ _ h => by simp only [Machine.onHost, reduceCtorEq] at h⟩

theorem bind {x : EStateM Fault σ α} {f : α → EStateM Fault σ β} (hx : Succeeds x)
    (hf : ∀ a, Succeeds (f a)) : Succeeds (x >>= f) where
  ne_error s e s' h := by
    rcases bind_eq_error h with h | ⟨a, s₁, -, h⟩
    · exact hx.ne_error s e s' h
    · exact (hf a).ne_error s₁ e s' h

instance map {x : EStateM Fault σ α} (g : α → β) [hx : Succeeds x] : Succeeds (g <$> x) where
  ne_error s e s' h := by
    change EStateM.map g x s = _ at h
    simp only [EStateM.map] at h
    cases hs : x s with
    | ok a s₁ => simp only [hs, reduceCtorEq] at h
    | error e₁ s₁ => exact hx.ne_error s e₁ s₁ hs

instance discard {x : EStateM Fault σ α} [hx : Succeeds x] : Succeeds (discard x) :=
  map (Function.const α PUnit.unit)

instance intern (s : String) : Succeeds (Machine.intern s) := .lift (Heap.run (·.intern s))

instance alloc (b : Body) : Succeeds (Machine.alloc b) := .lift (Heap.run (·.alloc b))

instance newNative (n : Native) : Succeeds (Machine.newNative n) :=
  .bind (.alloc _) fun _ => .pure _

instance newModule (name : Handle) (importer : Option Handle) :
    Succeeds (Machine.newModule name importer) :=
  .bind (.alloc _) fun _ => .bind (.modify _) fun _ => .pure _

instance collect : Succeeds Machine.collect := .bind .get fun _ => .lift (Heap.run _)

instance recordExport (name : Handle) : Succeeds (Machine.recordExport name) := .modify _

end Succeeds

namespace Fails

variable {M : σ → σ → Prop} {x : EStateM Fault σ α} {f : α → EStateM Fault σ β}

instance (priority := low) of_makes [hx : Makes M x] : Fails M x where
  row s _ _ h := after_error h ▸ hx.row s

instance (priority := low) of_succeeds [hx : Succeeds x] : Fails M x where
  row _ _ _ h := absurd h (hx.ne_error _ _ _)

theorem bind (hx : Makes M x) (hf : ∀ a, Fails M (f a)) : Fails M (x >>= f) where
  row s e s' h := by
    rcases bind_eq_error h with h | ⟨a, s₁, hok, h⟩
    · exact after_error h ▸ hx.row s
    · exact ((after_ok hok).symm ▸ hx.row s).trans ((hf a).row s₁ e s' h)

/-- What comes last may change anything, if what follows does not fail. -/
theorem last (hx : Fails M x) (hf : ∀ a, Succeeds (f a)) : Fails M (x >>= f) where
  row s e s' h := by
    rcases bind_eq_error h with h | ⟨a, s₁, -, h⟩
    · exact hx.row s e s' h
    · exact absurd h ((hf a).ne_error _ _ _)

theorem bind_except {e : Except Fault α} (hf : ∀ a, e = .ok a → Fails M (f a)) :
    Fails M ((liftM e : EStateM Fault σ α) >>= f) := by
  cases e with
  | ok a => exact ⟨(hf a rfl).row⟩
  | error fault => exact ⟨fun _ _ _ h => by cases h; exact .refl⟩

/-- Goes through an action part by part. -/
theorem parts (hx : Fails M x := by
    repeat' first
      | infer_instance
      | exact Fails.last inferInstance fun _ => inferInstance
      | with_reducible refine Fails.bind inferInstance fun _ => ?_
      | split
      | dsimp only) : Fails M x := hx

end Fails

/-! ## Changes of the heap -/

namespace Heap

variable {M : Heap → Heap → Prop}

instance (r : Handle) (f : Object → Object) : Fails M (change r f) where
  row h e h' he := by
    simp only [change] at he
    split at he <;> cases he
    exact .refl

instance (r : Handle) (v : Value) : Fails M (pushItem r v) := by
  unfold pushItem
  exact .parts

instance (a b : Value) : Fails M (append a b) := by
  unfold append
  exact .parts

instance (a b : Value) : Fails M (sum a b) := by
  unfold sum
  exact .parts

instance (target index v : Value) : Fails M (setItem target index v) := by
  unfold setItem
  exact .parts

end Heap

/-! ## Native functions -/

namespace NativeCall

open Heap (Mild)

variable (c : NativeCall)

instance : Fails Mild c.arrayLength := by
  unfold arrayLength
  exact .parts

instance : Fails Mild c.arrayAppend := by
  unfold arrayAppend
  exact .parts

instance : Fails Mild c.arrayPop := by
  unfold arrayPop
  exact .parts

instance : Fails Mild c.spanExpand := by
  unfold spanExpand
  exact .parts

instance : Fails Mild c.spanStep := by
  unfold spanStep
  exact .parts

instance : Fails Mild c.dictPut := by
  unfold dictPut
  exact .parts

instance : Fails Mild c.dictGet := by
  unfold dictGet
  exact .parts

instance : Fails Mild c.dictHas := by
  unfold dictHas
  exact .parts

instance : Fails Mild c.dictRemove := by
  unfold dictRemove
  exact .parts

instance : Fails Mild c.dictSize := by
  unfold dictSize
  exact .parts

instance : Fails Mild c.dictKeys := by
  unfold dictKeys
  exact .parts

instance : Fails Mild c.textLength := by
  unfold textLength
  exact .parts

instance (lib : JsonLibrary) : Fails Mild (c.jsonParse lib) := by
  unfold jsonParse
  exact .parts

instance (lib : JsonLibrary) : Fails Mild (c.jsonStringify lib) := by
  unfold jsonStringify
  exact .parts

end NativeCall

namespace Machine

instance (x : Heap.Act α) [hx : Fails Heap.Mild x] : Fails Mild (liftM x : Act α) where
  row m e m' h := by
    rw [lift_apply] at h
    cases hm : x m.heap with
    | ok a h₁ =>
      rw [hm] at h
      cases h
    | error e₁ h₁ =>
      rw [hm] at h
      cases h
      have hrow := hx.row m.heap e h₁ hm
      clear hm
      induction hrow with
      | refl => exact .refl
      | tail _ hm ih => exact ih.tail (.heap hm)

end Machine

namespace NativeCall

open Machine (Mild)

instance (c : NativeCall) (ending : String) : Fails Mild (c.print ending) := by
  unfold print
  exact .parts

instance : Fails Mild input := by
  unfold input
  exact .parts

instance : Fails Mild now := by
  unfold now
  exact .parts

instance (c : NativeCall) : Fails Mild c.fileExists := by
  unfold fileExists
  exact .parts

instance (c : NativeCall) : Fails Mild c.fileText := by
  unfold fileText
  exact .parts

end NativeCall

/-- No function of the library changes anything and then fails. -/
instance (b : Builtin) (args : List Value) : Fails Machine.Mild (b.run args) := by
  unfold Builtin.run NativeCall.clock
  exact .parts

/-- The native functions of a host do not change anything and then fail. -/
def HostFunctions.FailsMildly (host : HostFunctions) : Prop :=
  ∀ id args, Fails Machine.Mild (host.call id args)

namespace Machine

variable {M : Machine → Machine → Prop}

instance (r : Handle) (f : Object → Object) : Fails M (change r f) where
  row m e m' h := by
    rw [change_apply] at h
    split at h <;> cases h
    exact .refl

/-! ## Definitions and assignments -/

instance (scope : Option Handle) (name : Handle) (v : Value) : Fails M (define scope name v) := by
  unfold define
  exact .parts

instance (name : Handle) (v : Value) : Fails M (assignGlobal name v) := by
  unfold assignGlobal
  exact .parts

instance (operation : String) (target : Value) (name : Handle) (v : Value) :
    Fails M (setField operation target name v) := by
  unfold setField
  exact .parts

instance (exports : Bool) : Fails Mild (popGlobal exports) := by
  unfold popGlobal
  exact .parts

instance : Fails Mild setGlobal := by
  unfold setGlobal
  exact .parts

/-! ## Calls of functions -/

instance (function : Handle) (argc : Nat) : Fails Mild (spawn function argc) := by
  unfold spawn
  exact .parts

instance (r : Handle) (argc : Nat) (constructs : Bool) :
    Fails Mild (callFunction r argc constructs) := by
  unfold callFunction
  exact .parts

variable {m m₁ m' : Machine}

/-! ## Failing from a machine -/

/-- If the action fails here, and not at a dead handle, then it has done only mild things. -/
def FailsAt (x : Act α) (m : Machine) : Prop :=
  ∀ e m', x m = .error e m' → e ≠ .dangling → m'.room ≤ Heap.slotLimit → ReflTransGen Mild m m'

/-- An action that fails at most at a dead handle. -/
class Dangles (x : Act α) : Prop where
  eq_dangling : ∀ m e m', x m = .error e m' → e = .dangling

theorem failsAt_of_fails {x : Act α} (hx : Fails Mild x) : FailsAt x m :=
  fun e m' h _ _ => hx.row m e m' h

theorem failsAt_of_ne_error {x : Act α} (hx : ∀ e m', x m = .error e m' → e ≠ .dangling →
    m'.room ≤ Heap.slotLimit → False) : FailsAt x m :=
  fun e m' h hne hfit => (hx e m' h hne hfit).elim

theorem failsAt_of_dangles {x : Act α} (hx : Dangles x) : FailsAt x m :=
  fun e m' h hne _ => absurd (hx.eq_dangling m e m' h) hne

namespace FailsAt

variable {x : Act α} {f : α → Act β}

/-- Mild actions may come first. -/
theorem behind [hx : Makes Mild x] (hf : ∀ a m₁, x m = .ok a m₁ → FailsAt (f a) m₁) :
    FailsAt (x >>= f) m := by
  intro e m' h hne hfit
  rcases bind_eq_error h with h | ⟨a, m₁, hok, h⟩
  · exact after_error h ▸ hx.row m
  · exact ((after_ok hok).symm ▸ hx.row m).trans (hf a m₁ hok e m' h hne hfit)

/-- What comes last may change anything, if what follows does not fail. -/
theorem last (hx : FailsAt x m)
    (hf : ∀ a m₁, x m = .ok a m₁ → ∀ e m', f a m₁ = .error e m' → e ≠ .dangling →
      m'.room ≤ Heap.slotLimit → False) : FailsAt (x >>= f) m := by
  intro e m' h hne hfit
  rcases bind_eq_error h with h | ⟨a, m₁, hok, h⟩
  · exact hx e m' h hne hfit
  · exact (hf a m₁ hok e m' h hne hfit).elim

end FailsAt

namespace Dangles

theorem bind {x : Act α} {f : α → Act β} (hx : Dangles x) (hf : ∀ a, Dangles (f a)) :
    Dangles (x >>= f) where
  eq_dangling m e m' h := by
    rcases bind_eq_error h with h | ⟨a, m₁, -, h⟩
    · exact hx.eq_dangling m e m' h
    · exact (hf a).eq_dangling m₁ e m' h

instance (priority := low) of_succeeds {x : Act α} [hx : Succeeds x] : Dangles x where
  eq_dangling _ _ _ h := absurd h (hx.ne_error _ _ _)

instance map {x : Act α} (g : α → β) [hx : Dangles x] : Dangles (g <$> x) where
  eq_dangling m e m' h := by
    change EStateM.map g x m = _ at h
    simp only [EStateM.map] at h
    cases hm : x m with
    | ok a m₁ => simp only [hm, reduceCtorEq] at h
    | error e₁ m₁ =>
      rw [hm] at h
      cases h
      exact hx.eq_dangling m e m' hm

/-- Goes through an action part by part. -/
theorem parts {x : Act α} (hx : Dangles x := by
    repeat' first
      | infer_instance
      | with_reducible refine Dangles.bind ?_ fun _ => ?_
      | split
      | dsimp only) : Dangles x := hx

instance change (r : Handle) (f : Object → Object) : Dangles (change r f) where
  eq_dangling m e m' h := by
    rw [change_apply] at h
    split at h <;> cases h
    rfl

instance define (scope : Option Handle) (name : Handle) (v : Value) :
    Dangles (define scope name v) := by
  unfold Machine.define
  exact .parts

instance defineFunctions (target : Option Handle) (ns : List Native) :
    Dangles (defineFunctions target ns) := by
  induction ns with
  | nil => exact of_succeeds (x := pure ())
  | cons n rest ih =>
    unfold Machine.defineFunctions
    exact .parts

instance defineNumbers (target : Option Handle) (ns : List (String × Float)) :
    Dangles (defineNumbers target ns) := by
  induction ns with
  | nil => exact of_succeeds (x := pure ())
  | cons n rest ih =>
    unfold Machine.defineNumbers
    exact .parts

instance aliasModule (name : Handle) (importer : Option Handle) :
    Dangles (aliasModule name importer) := by
  unfold Machine.aliasModule
  exact .parts

end Dangles

end Machine

end FiberMachine
