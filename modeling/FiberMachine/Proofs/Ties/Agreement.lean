import FiberMachine.Proofs.Machine.Growth
import FiberMachine.Proofs.Ties.Heaps

/-!
# Actions side by side

Actions agree on tied states if all of them end well with tied results, or all of them
with one and the same fault, and leave tied states behind. That takes heaps that do not
outgrow their handles; since heaps never shrink, a bound at the end is one all along.
-/

namespace FiberMachine

open Relation (ReflTransGen)

class Store (σ : Type) where
  room : σ → Nat
  Tied {ι : Type} : Ties ι → (ι → σ) → Prop

instance : Store Heap := ⟨fun h => h.slots.size, fun T h => T.Heaps h⟩

variable {ι σ α β : Type}

theorem map_bind (x : EStateM Fault σ α) (g : α → β) {γ : Type} (f : β → EStateM Fault σ γ) :
    (g <$> x) >>= f = x >>= fun a => f (g a) := by
  funext s
  have hmap : (g <$> x) s = EStateM.map g x s := rfl
  rw [bind_apply, bind_apply, hmap]
  simp only [EStateM.map]
  cases x s <;> rfl

theorem discard_eq_bind (x : EStateM Fault σ α) : discard x = x >>= fun _ => pure () := by
  funext s
  rw [bind_apply]
  change EStateM.map _ x s = _
  simp only [EStateM.map]
  cases x s <;> rfl

variable [Store σ]

/-! ## Actions that give no room back -/

class Grows (x : EStateM Fault σ α) : Prop where
  room_le : ∀ s, Store.room s ≤ Store.room (after x s)

namespace Grows

variable {x : EStateM Fault σ α} {f : α → EStateM Fault σ β}

instance pure (a : α) : Grows (pure a : EStateM Fault σ α) := ⟨fun _ => Nat.le_refl _⟩

instance throw (e : Fault) : Grows (throw e : EStateM Fault σ α) := ⟨fun _ => Nat.le_refl _⟩

instance get : Grows (get : EStateM Fault σ σ) := ⟨fun _ => Nat.le_refl _⟩

instance except (e : Except Fault α) : Grows (liftM e : EStateM Fault σ α) := by
  refine ⟨fun s => ?_⟩
  cases e <;> exact Nat.le_refl _

instance bind [hx : Grows x] [hf : ∀ a, Grows (f a)] : Grows (x >>= f) := by
  refine ⟨fun s => ?_⟩
  have h := hx.room_le s
  rw [after_bind]
  simp only [after] at h
  cases hs : x s with
  | ok a s' =>
    rw [hs] at h
    exact Nat.le_trans h ((hf a).room_le s')
  | error e s' => rwa [hs] at h

theorem andThen [Grows x] (hf : ∀ a, Grows (f a)) : Grows (x >>= f) := inferInstance

instance heap (x : Heap.Act α) [hx : Makes Heap.Move x] : Grows x :=
  ⟨fun h => Heap.row_size_le (hx.row h)⟩

instance alloc (b : Body) : Grows (Heap.run (·.alloc b)) := ⟨fun h => Heap.size_le_alloc h b⟩

instance change (r : Handle) (f : Object → Object) : Grows (Heap.change r f) := by
  refine ⟨fun h => ?_⟩
  simp only [after, Heap.change]
  by_cases hr : h.isLive r
  · simp only [hr, ↓reduceIte]
    exact Nat.le_of_eq (Heap.size_update ..).symm
  · simp only [hr, Bool.false_eq_true, ↓reduceIte]
    exact Nat.le_refl _

instance ite {p : Prop} [Decidable p] {y : EStateM Fault σ α} [hx : Grows x] [hy : Grows y] :
    Grows (if p then x else y) := by
  split
  · exact hx
  · exact hy

instance dite {p : Prop} [Decidable p] {x : p → EStateM Fault σ α} {y : ¬p → EStateM Fault σ α}
    [hx : ∀ hp, Grows (x hp)] [hy : ∀ hp, Grows (y hp)] : Grows (if hp : p then x hp else y hp) := by
  split
  · exact hx _
  · exact hy _

/-- Goes through an action part by part. -/
theorem parts (hx : Grows x := by
    repeat' first
      | infer_instance
      | with_reducible refine Grows.andThen fun _ => ?_
      | split
      | dsimp only) : Grows x := hx

end Grows

/-! ## Agreement -/

/-- What holds when all actions end well, and what holds of the ties when all fail. -/
structure Post (ι σ α : Type) where
  ends : Ties ι → (ι → α) → (ι → σ) → Prop
  fails : Ties ι → Prop

def Agree (s : ι → σ) (x : ι → EStateM Fault σ α) (Q : Post ι σ α) : Prop :=
  (∀ i, Store.room (after (x i) (s i)) ≤ Heap.slotLimit) →
    (∃ T a s', Store.Tied T s' ∧ Q.ends T a s' ∧ ∀ i, x i (s i) = .ok (a i) (s' i)) ∨
    ∃ (T : Ties ι) (e : Fault) (s' : ι → σ),
      Store.Tied T s' ∧ Q.fails T ∧ e ≠ .dangling ∧ ∀ i, x i (s i) = .error e (s' i)

/-- The ties stay as they are. -/
def Stays (T : Ties ι) (P : (ι → α) → Prop) : Post ι σ α :=
  ⟨fun T' a _ => T' = T ∧ P a, T.Within⟩

/-- New ties come to the old ones. -/
def Grown (T : Ties ι) (P : Ties ι → (ι → α) → Prop) : Post ι σ α :=
  ⟨fun T' a _ => T.Within T' ∧ P T' a, T.Within⟩

/-- Old ties may go. -/
def Anyhow (P : Ties ι → (ι → α) → Prop) : Post ι σ α := ⟨fun T' a _ => P T' a, fun _ => True⟩

/-- A post-condition that is met by a fault under `T` or any ties above them. -/
class Post.Bears (Q : Post ι σ α) (T : Ties ι) : Prop where
  fails : ∀ T', T.Within T' → Q.fails T'

instance (T : Ties ι) (P : (ι → α) → Prop) : (Stays T P : Post ι σ α).Bears T := ⟨fun _ h => h⟩

instance (T : Ties ι) (P : Ties ι → (ι → α) → Prop) : (Grown T P : Post ι σ α).Bears T :=
  ⟨fun _ h => h⟩

instance (T : Ties ι) (P : Ties ι → (ι → α) → Prop) : (Anyhow P : Post ι σ α).Bears T :=
  ⟨fun _ _ => trivial⟩

instance (E : Ties ι → (ι → α) → (ι → σ) → Prop) (T : Ties ι) :
    (Post.mk E fun _ => True : Post ι σ α).Bears T := ⟨fun _ _ => trivial⟩

instance (E : Ties ι → (ι → α) → (ι → σ) → Prop) (T : Ties ι) :
    (Post.mk E T.Within : Post ι σ α).Bears T := ⟨fun _ h => h⟩

variable {T : Ties ι} {s : ι → σ} {x : ι → EStateM Fault σ α} {f : ι → α → EStateM Fault σ β}
  {P : (ι → α) → Prop} {G : Ties ι → (ι → α) → Prop} {H : Ties ι → (ι → β) → Prop}
  {Q Q' : Post ι σ α} {R : Post ι σ β}

theorem Agree.imp (hx : Agree s x Q) (h : ∀ T a s', Q.ends T a s' → Q'.ends T a s')
    (hf : ∀ T, Q.fails T → Q'.fails T) : Agree s x Q' := by
  intro hfit
  rcases hx hfit with ⟨T, a, s', hT, hQ, hok⟩ | ⟨T, e, s', hT, hQ, he, herr⟩
  · exact Or.inl ⟨T, a, s', hT, h T a s' hQ, hok⟩
  · exact Or.inr ⟨T, e, s', hT, hf T hQ, he, herr⟩

theorem Agree.bind (hx : Agree s x Q) (hg : ∀ i a, Grows (f i a))
    (hf : ∀ T a s', Store.Tied T s' → Q.ends T a s' → Agree s' (fun i => f i (a i)) R)
    (hR : ∀ T, Q.fails T → R.fails T) : Agree s (fun i => x i >>= f i) R := by
  intro hfit
  have hfit' : ∀ i, Store.room (after (x i) (s i)) ≤ Heap.slotLimit := by
    intro i
    refine Nat.le_trans ?_ (hfit i)
    rw [after_bind]
    simp only [after]
    cases x i (s i) with
    | ok a s' => exact (hg i a).room_le s'
    | error e s' => exact Nat.le_refl _
  rcases hx hfit' with ⟨T, a, s', hT, hQ, hok⟩ | ⟨T, e, s', hT, hQ, he, herr⟩
  · have heq : ∀ i, (x i >>= f i) (s i) = f i (a i) (s' i) := by
      intro i
      rw [bind_apply, hok]
    have hafter : ∀ i, after (x i >>= f i) (s i) = after (f i (a i)) (s' i) := by
      intro i
      simp only [after, heq]
    simp only [hafter] at hfit
    simp only [heq]
    exact hf T a s' hT hQ hfit
  · exact Or.inr ⟨T, e, s', hT, hR T hQ, he, fun i => by simp only [bind_apply, herr]⟩

theorem Agree.nextBy (hx : Agree s x (Stays T P)) [hR : R.Bears T] (hg : ∀ i a, Grows (f i a))
    (hf : ∀ a s', Store.Tied T s' → P a → Agree s' (fun i => f i (a i)) R) :
    Agree s (fun i => x i >>= f i) R := by
  refine hx.bind hg (fun T' a s' hT hQ => ?_) hR.fails
  obtain ⟨rfl, ha⟩ := hQ
  exact hf a s' hT ha

theorem Agree.next (hx : Agree s x (Stays T P)) [R.Bears T] [hg : ∀ i a, Grows (f i a)]
    (hf : ∀ a s', Store.Tied T s' → P a → Agree s' (fun i => f i (a i)) R) :
    Agree s (fun i => x i >>= f i) R := hx.nextBy hg hf

theorem Agree.growBy (hx : Agree s x (Grown T G)) (hg : ∀ i a, Grows (f i a))
    (hf : ∀ T' a s', T.Within T' → Store.Tied T' s' → G T' a →
      Agree s' (fun i => f i (a i)) (Grown T' H)) :
    Agree s (fun i => x i >>= f i) (Grown T H) := by
  refine hx.bind hg (fun T' a s' hT hQ => ?_) fun _ h => h
  obtain ⟨hwithin, ha⟩ := hQ
  refine (hf T' a s' hwithin hT ha).imp ?_ fun _ h => hwithin.trans h
  intro T'' b s'' ⟨hwithin', hb⟩
  exact ⟨hwithin.trans hwithin', hb⟩

theorem Agree.grow (hx : Agree s x (Grown T G)) [hg : ∀ i a, Grows (f i a)]
    (hf : ∀ T' a s', T.Within T' → Store.Tied T' s' → G T' a →
      Agree s' (fun i => f i (a i)) (Grown T' H)) :
    Agree s (fun i => x i >>= f i) (Grown T H) := hx.growBy hg hf

theorem Agree.grown (hx : Agree s x (Stays T P)) (h : ∀ a, P a → G T a) :
    Agree s x (Grown T G) := by
  refine hx.imp ?_ fun _ h => h
  rintro T' a s' ⟨rfl, ha⟩
  exact ⟨.refl _, h a ha⟩

theorem Agree.anyhow (hx : Agree s x (Grown T G)) : Agree s x (Anyhow G) :=
  hx.imp (fun _ _ _ h => h.2) fun _ _ => trivial

theorem Agree.loose (hx : Agree s x (Stays T P)) : Agree s x (Anyhow fun _ _ => True) :=
  hx.imp (fun _ _ _ _ => trivial) fun _ _ => trivial

theorem Agree.beforeBy (hx : Agree s x (Grown T G)) (hg : ∀ i a, Grows (f i a))
    (hf : ∀ T' a s', T.Within T' → Store.Tied T' s' → G T' a →
      Agree s' (fun i => f i (a i)) (Anyhow H)) :
    Agree s (fun i => x i >>= f i) (Anyhow H) :=
  hx.bind hg (fun T' a s' hT h => hf T' a s' h.1 hT h.2) fun _ _ => trivial

/-- After what keeps the ties comes what may lose some. -/
theorem Agree.before (hx : Agree s x (Grown T G)) [hg : ∀ i a, Grows (f i a)]
    (hf : ∀ T' a s', T.Within T' → Store.Tied T' s' → G T' a →
      Agree s' (fun i => f i (a i)) (Anyhow H)) :
    Agree s (fun i => x i >>= f i) (Anyhow H) := hx.beforeBy hg hf

theorem Agree.afterBy (hx : Agree s x (Anyhow G)) (hg : ∀ i a, Grows (f i a))
    (hf : ∀ T' a s', Store.Tied T' s' → G T' a → Agree s' (fun i => f i (a i)) (Anyhow H)) :
    Agree s (fun i => x i >>= f i) (Anyhow H) := hx.bind hg hf fun _ h => h

theorem Agree.after (hx : Agree s x (Anyhow G)) [hg : ∀ i a, Grows (f i a)]
    (hf : ∀ T' a s', Store.Tied T' s' → G T' a → Agree s' (fun i => f i (a i)) (Anyhow H)) :
    Agree s (fun i => x i >>= f i) (Anyhow H) := hx.afterBy hg hf

/-- What each action makes of its own state by itself. -/
theorem Agree.makes {M : σ → σ → Prop} (hx : Agree s x Q) (hM : ∀ i, Makes M (x i)) :
    Agree s x ⟨fun T a s' => Q.ends T a s' ∧ ∀ i, ReflTransGen M (s i) (s' i), Q.fails⟩ := by
  intro hfit
  refine (hx hfit).imp_left ?_
  intro ⟨T, a, s', hT, hQ, hok⟩
  exact ⟨T, a, s', hT, ⟨hQ, fun i => after_ok (hok i) ▸ (hM i).row (s i)⟩, hok⟩

theorem agree_ok {s' : ι → σ} {a : ι → α} (hs : Store.Tied T s') (ha : Q.ends T a s')
    (h : ∀ i, x i (s i) = .ok (a i) (s' i)) : Agree s x Q := fun _ => Or.inl ⟨T, a, s', hs, ha, h⟩

theorem agree_error (hs : Store.Tied T s) {e : Fault} (he : e ≠ .dangling)
    (h : ∀ i, x i (s i) = .error e (s i)) [hQ : Q.Bears T] : Agree s x Q :=
  fun _ => Or.inr ⟨T, e, s, hs, hQ.fails T (.refl T), he, h⟩

theorem agree_pure (hs : Store.Tied T s) {a : ι → α} (ha : Q.ends T a s) :
    Agree s (fun i => pure (a i)) Q := agree_ok hs ha fun _ => rfl

theorem agree_throw (hs : Store.Tied T s) {e : Fault} (he : e ≠ .dangling) [Q.Bears T] :
    Agree s (fun _ => throw e) Q := agree_error hs he fun _ => rfl

theorem agree_fault (hs : Store.Tied T s) {κ : Type} {c : ι → κ} (hc : Same c) (e : κ → Fault)
    (he : ∀ c, e c ≠ .dangling) [Q.Bears T] : Agree s (fun i => throw (e (c i))) Q := by
  obtain ⟨c, hc⟩ := hc
  simp only [hc]
  exact agree_throw hs (he c)

theorem agree_mismatch (hs : Store.Tied T s) {operation expected : String} {found : ι → String}
    (hf : Same found) [Q.Bears T] :
    Agree s (fun i => throw (.typeMismatch operation expected (found i))) Q :=
  agree_fault hs hf (.typeMismatch operation expected) nofun

theorem agree_get {f : ι → σ → EStateM Fault σ β} (h : Agree s (fun i => f i (s i)) R) :
    Agree s (fun i => get >>= f i) R := h

theorem agree_set {g : ι → σ → σ} {f : ι → Unit → EStateM Fault σ β}
    (h : Agree (fun i => g i (s i)) (fun i => f i ()) R) :
    Agree s (fun i => modify (g i) >>= f i) R := h

/-! ## Computations without effects -/

/-- All of them end well, or all with the same fault. -/
def Settled (P : (ι → α) → Prop) (e : ι → Except Fault α) : Prop :=
  (∃ a, P a ∧ ∀ i, e i = .ok (a i)) ∨ ∃ fault : Fault, fault ≠ .dangling ∧ ∀ i, e i = .error fault

variable {e : ι → Except Fault α}

theorem Settled.ok {a : ι → α} (ha : P a) : Settled P fun i => .ok (a i) :=
  Or.inl ⟨a, ha, fun _ => rfl⟩

theorem Settled.error {fault : Fault} (hf : fault ≠ .dangling) :
    Settled P fun _ => .error fault := Or.inr ⟨fault, hf, fun _ => rfl⟩

theorem Settled.mismatch {operation expected : String} {found : ι → String} (hf : Same found) :
    Settled P fun i => .error (.typeMismatch operation expected (found i)) := by
  obtain ⟨name, hname⟩ := hf
  exact Or.inr ⟨.typeMismatch operation expected name, nofun, fun i => by simp only [hname]⟩

theorem Settled.bind {P' : (ι → β) → Prop} {f : ι → α → Except Fault β} (he : Settled P e)
    (hf : ∀ a, P a → Settled P' fun i => f i (a i)) : Settled P' fun i => e i >>= f i := by
  rcases he with ⟨a, ha, hok⟩ | ⟨fault, hfault, herr⟩
  · simp only [hok]
    exact hf a ha
  · simp only [herr]
    exact .error hfault

/-- What is the same for all and never dangles. -/
theorem Settled.of_same {e : Except Fault α} (he : e ≠ .error .dangling) :
    Settled (ι := ι) Same fun _ => e := by
  cases e with
  | ok a => exact .ok (.const a)
  | error fault => exact .error fun h => he (h ▸ rfl)

theorem agree_settled (hs : Store.Tied T s) (he : Settled P e) :
    Agree s (fun i => (liftM (e i) : EStateM Fault σ α)) (Stays T P) := by
  rcases he with ⟨a, ha, hok⟩ | ⟨fault, hfault, herr⟩
  · simp only [hok]
    exact agree_pure hs ⟨rfl, ha⟩
  · simp only [herr]
    exact agree_throw hs hfault

/-! ## Heaps -/

variable {h : ι → Heap} {k : Kind} {r : ι → Handle}

theorem agree_intern (hT : T.Heaps h) (s : String) :
    Agree h (fun _ => Heap.run (·.intern s)) (Grown T fun T' r => T'.handles .text r) := by
  intro hfit
  obtain ⟨T', hwithin, hT', hr⟩ := hT.intern s hfit
  exact Or.inl ⟨T', _, _, hT', ⟨hwithin, hr⟩, fun _ => rfl⟩

theorem agree_alloc (hT : T.Heaps h) {b : ι → Body} (hb : T.Bodies k b) (hk : k ≠ .text) :
    Agree h (fun i => Heap.run (·.alloc (b i))) (Grown T fun T' r => T'.handles k r) := by
  intro hfit
  obtain ⟨T', hwithin, hT', hr⟩ := hT.alloc hb hk hfit
  exact Or.inl ⟨T', _, _, hT', ⟨hwithin, hr⟩, fun _ => rfl⟩

theorem agree_change (hT : T.Heaps h) (hr : T.handles k r) (htext : k ≠ .text)
    (hfunction : k ≠ .function) {f : ι → Object → Object}
    (hf : ∀ o, T.Objects k o → T.Objects k fun i => f i (o i)) :
    Agree h (fun i => Heap.change (r i) (f i)) (Stays T fun _ => True) := by
  intro _
  refine Or.inl ⟨T, fun _ => (), _, hT.update hr htext hfunction hf, ⟨rfl, trivial⟩, fun i => ?_⟩
  simp only [Heap.change, hT.isLive hr i, ↓reduceIte]

end FiberMachine
