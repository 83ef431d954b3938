import Mathlib.Logic.Relation
import FiberMachine.Machine.Embedding
import FiberMachine.Proofs.Heap.WellFormed
import FiberMachine.Proofs.Object.Limits

/-!
# Quiet actions

Most actions only build objects, change what is in a container, or work on the
operands and the frames of the running fiber. Such an action is a row of quiet
moves, whether it fails or not, and what quiet moves keep needs no look at the
action itself.
-/

namespace FiberMachine

variable {σ α β : Type}

theorem bind_apply (x : EStateM Fault σ α) (f : α → EStateM Fault σ β) (s : σ) :
    (x >>= f) s = match x s with
      | .ok a s' => f a s'
      | .error e s' => .error e s' := by
  change EStateM.bind x f s = _
  simp only [EStateM.bind]
  cases x s <;> rfl

theorem bind_eq_ok {x : EStateM Fault σ α} {f : α → EStateM Fault σ β} {s s' : σ} {b : β}
    (h : (x >>= f) s = .ok b s') :
    ∃ a s₁, x s = .ok a s₁ ∧ f a s₁ = .ok b s' := by
  rw [bind_apply] at h
  cases hx : x s with
  | ok a s₁ =>
    rw [hx] at h
    exact ⟨a, s₁, rfl, h⟩
  | error e s₁ => simp [hx] at h

theorem bind_eq_error {x : EStateM Fault σ α} {f : α → EStateM Fault σ β} {s s' : σ} {e : Fault}
    (h : (x >>= f) s = .error e s') :
    x s = .error e s' ∨ ∃ a s₁, x s = .ok a s₁ ∧ f a s₁ = .error e s' := by
  rw [bind_apply] at h
  cases hx : x s with
  | ok a s₁ =>
    rw [hx] at h
    exact Or.inr ⟨a, s₁, rfl, h⟩
  | error e₁ s₁ =>
    rw [hx] at h
    cases h
    exact Or.inl rfl

theorem pure_apply (a : α) (s : σ) : (pure a : EStateM Fault σ α) s = .ok a s := rfl

theorem throw_apply (e : Fault) (s : σ) : (throw e : EStateM Fault σ α) s = .error e s := rfl

theorem get_apply (s : σ) : (get : EStateM Fault σ σ) s = .ok s s := rfl

theorem modify_apply (f : σ → σ) (s : σ) : (modify f : EStateM Fault σ Unit) s = .ok () (f s) := rfl

theorem except_apply (e : Except Fault α) (s : σ) :
    (liftM e : EStateM Fault σ α) s = match e with
      | .ok a => .ok a s
      | .error fault => .error fault s := by
  cases e <;> rfl

@[simp] theorem liftM_ok_bind (a : α) (f : α → EStateM Fault σ β) :
    ((liftM (.ok a : Except Fault α) : EStateM Fault σ α) >>= f) = f a := rfl

@[simp] theorem liftM_error_bind (fault : Fault) (f : α → EStateM Fault σ β) :
    ((liftM (.error fault : Except Fault α) : EStateM Fault σ α) >>= f) = throw fault := rfl

/-- What an action leaves behind. -/
def after (x : EStateM Fault σ α) (s : σ) : σ :=
  match x s with
  | .ok _ s' => s'
  | .error _ s' => s'

/-- An action does nothing but a row of moves. -/
class Makes (M : σ → σ → Prop) (x : EStateM Fault σ α) : Prop where
  row : ∀ s, Relation.ReflTransGen M s (after x s)

theorem after_ok {x : EStateM Fault σ α} {s s' : σ} {a : α} (h : x s = .ok a s') :
    after x s = s' := by
  simp only [after, h]

theorem after_error {x : EStateM Fault σ α} {s s' : σ} {e : Fault} (h : x s = .error e s') :
    after x s = s' := by
  simp only [after, h]

theorem after_bind (x : EStateM Fault σ α) (f : α → EStateM Fault σ β) (s : σ) :
    after (x >>= f) s = match x s with
      | .ok a s' => after (f a) s'
      | .error _ s' => s' := by
  simp only [after, bind_apply]
  cases x s <;> rfl

namespace Makes

variable {M : σ → σ → Prop} {x y : EStateM Fault σ α} {f : α → EStateM Fault σ β}

theorem single (h : ∀ s, M s (after x s)) : Makes M x := ⟨fun s => .single (h s)⟩

instance pure (a : α) : Makes M (pure a : EStateM Fault σ α) := ⟨fun _ => .refl⟩

instance throw (e : Fault) : Makes M (throw e : EStateM Fault σ α) := ⟨fun _ => .refl⟩

instance get : Makes M (get : EStateM Fault σ σ) := ⟨fun _ => .refl⟩

instance except (e : Except Fault α) : Makes M (liftM e : EStateM Fault σ α) := by
  refine ⟨fun s => ?_⟩
  cases e <;> exact .refl

theorem bind (hx : Makes M x) (hf : ∀ a, Makes M (f a)) : Makes M (x >>= f) := by
  refine ⟨fun s => ?_⟩
  have hrow := hx.row s
  rw [after_bind]
  simp only [after] at hrow
  cases h : x s with
  | ok a s' =>
    rw [h] at hrow
    exact hrow.trans ((hf a).row s')
  | error e s' =>
    rw [h] at hrow
    exact hrow

instance map (g : α → β) [hx : Makes M x] : Makes M (g <$> x) := by
  refine ⟨fun s => ?_⟩
  have hrow := hx.row s
  change Relation.ReflTransGen M s (after (EStateM.map g x) s)
  simp only [after, EStateM.map] at hrow ⊢
  cases h : x s <;> simpa [h] using hrow

instance discard [hx : Makes M x] : Makes M (discard x) :=
  map (Function.const α PUnit.unit)

/-- What follows a computation without effects may use what it yields. -/
theorem bind_except {e : Except Fault α} (hf : ∀ a, e = .ok a → Makes M (f a)) :
    Makes M ((liftM e : EStateM Fault σ α) >>= f) := by
  cases e with
  | ok a => exact ⟨(hf a rfl).row⟩
  | error fault => exact ⟨fun _ => .refl⟩

theorem mono {N : σ → σ → Prop} (hx : Makes M x) (h : ∀ s s', M s s' → N s s') : Makes N x :=
  ⟨fun s => Relation.ReflTransGen.mono h _ _ (hx.row s)⟩

end Makes

/-! ## Moves in the heap -/

namespace Heap

/-- A change that keeps marks, kinds, texts and the bodies of fibers. -/
class Plain (f : Object → Object) : Prop where
  marked : ∀ o, (f o).marked = o.marked
  kind : ∀ o, (f o).kind = o.kind
  text : ∀ o s, o.body = .text s → (f o).body = .text s
  fiber : ∀ o b, o.body = .fiber b → (f o).body = .fiber b

inductive Move : Heap → Heap → Prop
  | intern (h : Heap) (s : String) : Move h (h.intern s).1
  | alloc (h : Heap) {b : Body} : b.kind ≠ .text → b.kind ≠ .fiber → Move h (h.alloc b).1
  | update (h : Heap) (r : Handle) (f : Object → Object) [Plain f] : Move h (h.update r f)

instance (members : Members) : Plain (withMembers members) :=
  ⟨fun _ => rfl, fun _ => rfl, fun _ _ h => h, fun _ _ h => h⟩

instance (name : Handle) (v : Value) : Plain (insertMember name v) :=
  ⟨fun _ => rfl, fun _ => rfl, fun _ _ h => h, fun _ _ h => h⟩

instance (f : Array Value → Array Value) : Plain (changeArray f) := by
  constructor <;> rintro ⟨marked, members, body⟩ <;> cases body <;> simp [changeArray, Object.kind,
    Body.kind]

instance (f : Table Value Value → Table Value Value) : Plain (changeDictionary f) := by
  constructor <;> rintro ⟨marked, members, body⟩ <;> cases body <;> simp [changeDictionary,
    Object.kind, Body.kind]

instance (f : Members → Members) : Plain (changeFields f) := by
  constructor <;> rintro ⟨marked, members, body⟩ <;> cases body <;> simp [changeFields, Object.kind,
    Body.kind]

instance (f : UserData → UserData) : Plain (Machine.changeUserData f) := by
  constructor <;> rintro ⟨marked, members, body⟩ <;> cases body <;> simp [Machine.changeUserData,
    Object.kind, Body.kind]

instance (s : String) : Makes Move (run (·.intern s)) := .single fun h => .intern h s

theorem makes_alloc {b : Body} (ht : b.kind ≠ .text) (hf : b.kind ≠ .fiber) :
    Makes Move (run (·.alloc b)) := .single fun h => .alloc h ht hf

instance (r : Handle) (f : Object → Object) [Plain f] : Makes Move (change r f) := by
  refine ⟨fun h => ?_⟩
  simp only [after, change]
  by_cases hr : h.isLive r
  · simp only [hr, ↓reduceIte]
    exact .single (.update h r f)
  · simp only [hr, Bool.false_eq_true, ↓reduceIte]
    exact .refl

end Heap

/-! ## Moves of the machine -/

namespace Running

/-- What others know of the running fiber: all but its operands and its frames. -/
def outline (r : Running) : Handle × Option Handle × FiberKind × FiberState × Option Handle :=
  (r.id, r.fiber.caller, r.fiber.kind, r.fiber.state, r.fiber.module)

end Running

namespace Machine

/-- The machines differ at most in what has nothing to do with the switching of fibers. -/
structure SameOutline (m m' : Machine) : Prop where
  running : m'.running.map Running.outline = m.running.map Running.outline
  root : m'.root = m.root
  ready : m'.ready = m.ready
  events : m'.events = m.events
  timers : m'.timers = m.timers

inductive Move : Machine → Machine → Prop
  | heap {m : Machine} {h : Heap} : Heap.Move m.heap h → Move m { m with heap := h }
  | work {m m' : Machine} : m'.heap = m.heap → SameOutline m m' → Move m m'

/-- The machines differ at most in what no fiber and no switch depends on. -/
structure SameCore (m m' : Machine) : Prop where
  config : m'.config = m.config
  running : m'.running = m.running
  root : m'.root = m.root
  ready : m'.ready = m.ready
  events : m'.events = m.events
  timers : m'.timers = m.timers

/-- A move that leaves the running fiber as it is. -/
inductive Still : Machine → Machine → Prop
  | heap {m : Machine} {h : Heap} : Heap.Move m.heap h → Still m { m with heap := h }
  | beside {m m' : Machine} : m'.heap = m.heap → SameCore m m' → Still m m'

theorem SameCore.sameOutline {m m' : Machine} (hs : SameCore m m') : SameOutline m m' :=
  ⟨by rw [hs.running], hs.root, hs.ready, hs.events, hs.timers⟩

/-- The running fiber, if there is one, keeps to the limits. -/
def RunsWithin (c : Config) (m : Machine) : Prop := ∀ t, m.running = some t → t.fiber.Within c

/-- A move that keeps the running fiber to the limits. -/
inductive Steady : Machine → Machine → Prop
  | heap {m : Machine} {h : Heap} : Heap.Move m.heap h → Steady m { m with heap := h }
  | work {m m' : Machine} : m'.heap = m.heap → m'.config = m.config → SameOutline m m' →
      (∀ c, RunsWithin c m → RunsWithin c m') → Steady m m'

theorem Still.steady {m m' : Machine} (hs : Still m m') : Steady m m' := by
  cases hs with
  | heap hm => exact .heap hm
  | beside hh hs =>
    refine .work hh hs.config hs.sameOutline fun c hc t ht => hc t ?_
    rw [← hs.running]
    exact ht

theorem Steady.move {m m' : Machine} (hs : Steady m m') : Move m m' := by
  cases hs with
  | heap hm => exact .heap hm
  | work hh _ ho _ => exact .work hh ho

instance (priority := low) {α : Type} (x : Act α) [hx : Makes Still x] : Makes Steady x :=
  hx.mono fun _ _ => Still.steady

instance (priority := low) {α : Type} (x : Act α) [hx : Makes Steady x] : Makes Move x :=
  hx.mono fun _ _ => Steady.move

def SameRunning (m m' : Machine) : Prop := m'.running = m.running

theorem Still.sameRunning {m m' : Machine} (hs : Still m m') : SameRunning m m' := by
  cases hs with
  | heap _ => rfl
  | beside _ hs => exact hs.running

theorem sameRunning_of_row {m m' : Machine} (hr : Relation.ReflTransGen SameRunning m m') :
    m'.running = m.running := by
  induction hr with
  | refl => rfl
  | tail _ hs ih => exact Eq.trans hs ih

instance (priority := low) {α : Type} (x : Act α) [hx : Makes Still x] : Makes SameRunning x :=
  hx.mono fun _ _ => Still.sameRunning

theorem lift_apply {α : Type} (x : Heap.Act α) (m : Machine) :
    (liftM x : Act α) m = match x m.heap with
      | .ok a heap => .ok a { m with heap }
      | .error fault heap => .error fault { m with heap } := rfl

theorem after_lift {α : Type} (x : Heap.Act α) (m : Machine) :
    after (liftM x : Act α) m = { m with heap := after x m.heap } := by
  simp only [after, lift_apply]
  cases x m.heap <;> rfl

theorem change_apply (r : Handle) (f : Object → Object) (m : Machine) :
    change r f m = if m.heap.isLive r then .ok () { m with heap := m.heap.update r f }
      else .error .dangling m := by
  simp only [change, lift_apply, Heap.change]
  by_cases hr : m.heap.isLive r <;> simp only [hr, ↓reduceIte, Bool.false_eq_true]

instance {α : Type} (x : Heap.Act α) : Makes SameRunning (liftM x : Act α) :=
  .single fun m => by simp only [SameRunning, after_lift]

instance (b : Body) : Makes SameRunning (alloc b) := by
  unfold alloc
  infer_instance

instance {α : Type} (x : Heap.Act α) [hx : Makes Heap.Move x] : Makes Still (liftM x : Act α) := by
  refine ⟨fun m => ?_⟩
  have hrow := hx.row m.heap
  rw [after_lift]
  generalize after x m.heap = h at hrow
  induction hrow with
  | refl => exact .refl
  | tail _ hm ih => exact ih.tail (.heap hm)

theorem makes_alloc {b : Body} (ht : b.kind ≠ .text) (hf : b.kind ≠ .fiber) :
    Makes Still (alloc b) := by
  have := Heap.makes_alloc ht hf
  unfold alloc
  infer_instance

theorem steady_alloc {b : Body} (ht : b.kind ≠ .text) (hf : b.kind ≠ .fiber) :
    Makes Steady (alloc b) := (makes_alloc ht hf).mono fun _ _ => Still.steady

theorem moves_alloc {b : Body} (ht : b.kind ≠ .text) (hf : b.kind ≠ .fiber) :
    Makes Move (alloc b) := (steady_alloc ht hf).mono fun _ _ => Steady.move

end Machine

namespace Makes

variable {M : σ → σ → Prop} {x : EStateM Fault σ α}

/-- Goes through an action part by part. -/
theorem parts (hx : Makes M x := by
    repeat' first
      | infer_instance
      | exact Heap.makes_alloc nofun nofun
      | exact Machine.makes_alloc nofun nofun
      | exact Machine.steady_alloc nofun nofun
      | exact Machine.moves_alloc nofun nofun
      | with_reducible refine Makes.bind ?_ fun _ => ?_
      | split
      | dsimp only) : Makes M x := hx

end Makes

/-! ## Quiet actions on the heap -/

namespace Heap

instance (r : Handle) (v : Value) : Makes Move (pushItem r v) := by
  unfold pushItem
  exact .parts

instance (cls : Handle) : Makes Move (newInstance cls) := by
  unfold newInstance
  exact .parts

instance (index : Value) (b : Body) : Makes Move (itemOf index b) := by
  unfold itemOf
  exact .parts

instance (target index : Value) : Makes Move (item target index) := by
  unfold item
  exact .parts

instance (target start stop : Value) : Makes Move (slice target start stop) := by
  unfold slice
  exact .parts

instance (a b : Value) : Makes Move (append a b) := by
  unfold append
  exact .parts

instance (a b : Value) : Makes Move (sum a b) := by
  unfold sum
  exact .parts

theorem plain_itemChange {index v : Value} {b : Body} {f : Object → Object}
    (h : itemChange index v b = .ok f) : Plain f := by
  simp only [itemChange] at h
  split at h
  · rename_i items
    cases hi : place index items.size with
    | error fault => simp [hi, Bind.bind, Except.bind] at h
    | ok i =>
      simp only [hi, Bind.bind, Except.bind, Pure.pure, Except.pure, Except.ok.injEq] at h
      subst h
      infer_instance
  · cases h
    infer_instance
  · cases h

instance (target index v : Value) : Makes Move (setItem target index v) := by
  unfold setItem
  split
  · infer_instance
  · refine .bind .get fun h => .bind (.except _) fun o => .bind_except fun f hf => ?_
    have := plain_itemChange hf
    infer_instance

open Relation in
mutual

theorem row_loadConstant (module : Option Handle) (h : Heap) :
    ∀ c, ReflTransGen Move h (loadConstant module h c).1
  | .nil | .bool _ | .number _ => .refl
  | .text s => .single (.intern h s)
  | .function p => row_load module h p

theorem row_loadConstants (module : Option Handle) (h : Heap) :
    ∀ cs, ReflTransGen Move h (loadConstants module h cs).1
  | [] => .refl
  | c :: rest => (row_loadConstant module h c).trans (row_loadConstants module _ rest)

theorem row_load (module : Option Handle) (h : Heap) :
    ∀ p, ReflTransGen Move h (load module h p).1
  | ⟨name, _, _, _, constants, _⟩ => by
    rw [load]
    refine ((row_loadConstants module h constants).tail (.intern _ name)).tail ?_
    exact .alloc _ (by simp [Body.kind]) (by simp [Body.kind])

end

instance (module : Option Handle) (p : Prototype) : Makes Move (run (·.load module p)) :=
  ⟨fun h => row_load module h p⟩

open Relation in
mutual

theorem row_ofJson (h : Heap) : ∀ j, ReflTransGen Move h (ofJson h j).1
  | .null | .bool _ | .number _ => .refl
  | .text s => .single (.intern h s)
  | .array items => by
    refine (row_ofJsonItems h items).tail ?_
    exact .alloc _ (by simp [Body.kind]) (by simp [Body.kind])
  | .object entries => by
    refine .trans (.single (.alloc h ?_ ?_)) (row_ofJsonEntries _ _ entries) <;> simp [Body.kind]

theorem row_ofJsonItems (h : Heap) : ∀ js, ReflTransGen Move h (ofJsonItems h js).1
  | [] => .refl
  | j :: rest => (row_ofJson h j).trans (row_ofJsonItems _ rest)

theorem row_ofJsonEntries (h : Heap) (r : Handle) :
    ∀ js, ReflTransGen Move h (ofJsonEntries h r js)
  | [] => .refl
  | (key, j) :: rest =>
    .trans ((ReflTransGen.single (.intern h key)).trans (row_ofJson _ j))
      (.trans (.single (.update _ r _)) (row_ofJsonEntries _ r rest))

end

instance (j : JsonValue) : Makes Move (run (·.ofJson j)) := ⟨fun h => row_ofJson h j⟩

end Heap

/-! ## Built-in functions -/

namespace NativeCall

open Heap (Move)

variable (c : NativeCall) (i : Nat)

instance : Makes Move (c.number i) := by
  unfold number
  exact .parts

instance : Makes Move (c.text i) := by
  unfold text
  exact .parts

instance (kind : Kind) : Makes Move (c.object i kind) := by
  unfold object
  exact .parts

instance : Makes Move (c.natural i) := by
  unfold natural
  exact .parts

instance : Makes Move c.arrayLength := by
  unfold arrayLength
  exact .parts

instance : Makes Move c.arrayAppend := by
  unfold arrayAppend
  exact .parts

instance : Makes Move c.arrayPop := by
  unfold arrayPop
  exact .parts

instance : Makes Move c.spanExpand := by
  unfold spanExpand
  exact .parts

instance : Makes Move c.spanStep := by
  unfold spanStep
  exact .parts

instance : Makes Move c.dictPut := by
  unfold dictPut
  exact .parts

instance : Makes Move c.dictGet := by
  unfold dictGet
  exact .parts

instance : Makes Move c.dictHas := by
  unfold dictHas
  exact .parts

instance : Makes Move c.dictRemove := by
  unfold dictRemove
  exact .parts

instance : Makes Move c.dictSize := by
  unfold dictSize
  exact .parts

instance : Makes Move c.dictKeys := by
  unfold dictKeys
  exact .parts

instance : Makes Move c.textLength := by
  unfold textLength
  exact .parts

instance (lib : JsonLibrary) : Makes Move (c.jsonParse lib) := by
  unfold jsonParse
  exact .parts

instance (lib : JsonLibrary) : Makes Move (c.jsonStringify lib) := by
  unfold jsonStringify
  exact .parts

end NativeCall

/-! ## Quiet actions of the machine -/

namespace Machine

instance (r : Handle) (f : Object → Object) [Heap.Plain f] : Makes Still (change r f) := by
  unfold change
  infer_instance

instance (s : String) : Makes Still (intern s) := by
  unfold intern
  infer_instance

instance (f : Host → α × Host) : Makes Still (onHost f) :=
  .single fun _ => .beside rfl ⟨rfl, rfl, rfl, rfl, rfl, rfl⟩

instance (globals : Machine → Members) (modules : Machine → Members)
    (loading : Machine → List Handle) (host : Machine → Host) (library : Machine → Library)
    (exported : Machine → List String) :
    Makes Still (modify fun m : Machine => { m with
      globals := globals m, modules := modules m, loading := loading m, host := host m
      library := library m, exported := exported m }) :=
  .single fun _ => .beside rfl ⟨rfl, rfl, rfl, rfl, rfl, rfl⟩

instance : Makes Still fiber := by
  refine ⟨fun m => ?_⟩
  simp only [after, fiber]
  cases m.running <;> exact .refl

instance : Makes Still runningId := by
  refine ⟨fun m => ?_⟩
  simp only [after, runningId]
  cases m.running <;> exact .refl

/-- Changes to the operands and the frames of the running fiber. -/
theorem work_of_running {m : Machine} {id : Handle} {f : Fiber} (h : m.running = some ⟨id, f⟩)
    {stack : OperandStack} {frames : List Frame}
    (hw : ∀ c, f.Within c → Fiber.Within c { f with stack, frames }) :
    Steady m { m with running := some ⟨id, { f with stack, frames }⟩ } := by
  refine .work rfl rfl ⟨by rw [h]; rfl, rfl, rfl, rfl, rfl⟩ fun c hc t ht => ?_
  cases ht
  exact hw c (hc _ h)

instance (stack : Fiber → OperandStack) (frames : Fiber → List Frame) :
    Makes Move (changeFiber fun f => { f with stack := stack f, frames := frames f }) := by
  refine ⟨fun m => ?_⟩
  simp only [after, changeFiber]
  cases h : m.running with
  | none => exact .refl
  | some running => exact .single (.work rfl ⟨by rw [h]; rfl, rfl, rfl, rfl, rfl⟩)

instance : Makes Steady (changeFiber fun f => { f with frames := f.frames.tail }) := by
  refine ⟨fun m => ?_⟩
  simp only [after, changeFiber]
  cases h : m.running with
  | none => exact .refl
  | some t =>
    refine .single (work_of_running h fun c hc => hc.withFrames ?_ fun frame hf => ?_)
    · exact Nat.le_trans (by simp) hc.frames
    · exact hc.ip frame (List.mem_of_mem_tail hf)

instance (count : Nat) :
    Makes Steady (changeFiber fun f => { f with stack := f.stack.truncate count }) := by
  refine ⟨fun m => ?_⟩
  simp only [after, changeFiber]
  cases h : m.running with
  | none => exact .refl
  | some t =>
    exact .single (work_of_running h fun c hc => hc.withStack (OperandStack.fits_truncate ..))

instance (f : OperandStack → Except Fault OperandStack) : Makes Move (changeStack f) := by
  refine ⟨fun m => ?_⟩
  simp only [after, changeStack]
  rcases h : m.running with _ | ⟨id, stack, frames, caller, kind, state, module⟩
  · exact .refl
  · simp only
    cases f stack with
    | ok stack => exact .single (.work rfl ⟨by rw [h]; rfl, rfl, rfl, rfl, rfl⟩)
    | error fault => exact .refl

instance (f : OperandStack → Except Fault OperandStack) [hf : OperandStack.Limited f] :
    Makes Steady (changeStack f) := by
  refine ⟨fun m => ?_⟩
  simp only [after, changeStack]
  rcases h : m.running with _ | ⟨id, stack, frames, caller, kind, state, module⟩
  · exact .refl
  · simp only
    cases hs : f stack with
    | ok stack' => exact .single (work_of_running h fun c hc => hc.withStack (hf.fits _ _ hs))
    | error fault => exact .refl

instance (v : Value) : Makes Steady (push v) := by
  unfold push
  infer_instance

instance (distance : Nat) (v : Value) : Makes Steady (poke distance v) := by
  unfold poke
  infer_instance

instance (count : Nat) (v : Value) : Makes Steady (replaceTop count v) := by
  unfold replaceTop
  infer_instance

instance (distance : Nat) : Makes Still (peek distance) := by
  refine ⟨fun m => ?_⟩
  simp only [after, peek]
  cases m.running with
  | none => exact .refl
  | some running =>
    simp only
    cases running.fiber.stack.peek distance <;> exact .refl

instance : Makes Steady pop := by
  refine ⟨fun m => ?_⟩
  simp only [after, pop]
  rcases h : m.running with _ | ⟨id, stack, frames, caller, kind, state, module⟩
  · exact .refl
  · simp only
    cases hs : stack.pop with
    | ok p =>
      exact .single (work_of_running h fun c hc => hc.withStack (OperandStack.fits_pop hs))
    | error fault => exact .refl

instance : Makes Steady readByte := by
  refine ⟨fun m => ?_⟩
  simp only [after, readByte]
  rcases h : m.running with _ | ⟨id, stack, _ | ⟨f, rest⟩, caller, kind, state, module⟩
  · exact .refl
  · exact .refl
  · simp only
    cases hb : f.chunk.code[f.ip]? with
    | none => exact .refl
    | some byte =>
      refine .single (work_of_running h fun c hc => hc.withFrames hc.frames ?_)
      obtain ⟨hlt, -⟩ := Array.getElem?_eq_some_iff.mp hb
      exact List.forall_mem_cons.mpr ⟨hlt, fun frame hf => hc.ip frame (List.mem_cons_of_mem _ hf)⟩

instance (count : Nat) : Makes Still (top count) := by
  unfold top
  exact .parts

instance : Makes Still frame := by
  unfold frame
  exact .parts

end Machine

namespace NativeCall

open Machine (Still)

instance (c : NativeCall) (ending : String) : Makes Still (c.print ending) := by
  unfold print
  exact .parts

instance : Makes Still input := by
  unfold input
  exact .parts

instance (c : NativeCall) : Makes Still c.fileExists := by
  unfold fileExists
  exact .parts

instance (c : NativeCall) : Makes Still c.fileText := by
  unfold fileText
  exact .parts

end NativeCall

instance (b : Builtin) (args : List Value) : Makes Machine.Still (b.run args) := by
  unfold Builtin.run NativeCall.clock NativeCall.now
  exact .parts

namespace Machine

instance : Makes Steady readShort := by
  unfold readShort
  exact .parts

instance : Makes Steady readCount := by
  unfold readCount
  exact .parts

instance : Makes Steady readIndex := by
  unfold readIndex
  exact .parts

instance (index : Nat) : Makes Still (constant index) := by
  unfold constant
  exact .parts

instance : Makes Steady readName := by
  unfold readName
  exact .parts

theorem frame_eq_ok {m m' : Machine} {f : Frame} (h : frame m = .ok f m') :
    m' = m ∧ ∃ t rest, m.running = some t ∧ t.fiber.frames = f :: rest := by
  simp only [frame, bind_apply, fiber] at h
  cases ht : m.running with
  | none => simp [ht] at h
  | some t =>
    simp only [ht] at h
    cases hf : t.fiber.frames with
    | nil => simp [hf, throw_apply] at h
    | cons f' rest =>
      rw [hf] at h
      cases h
      exact ⟨rfl, t, rest, rfl, hf⟩

/-- A jump stays inside the code. -/
instance (target : Nat) : Makes Steady (jumpTo target) := by
  refine ⟨fun m => ?_⟩
  simp only [jumpTo, after_bind]
  cases h : frame m with
  | error e m' => exact after_error h ▸ Makes.row m
  | ok running m' =>
    obtain ⟨rfl, t, rest, ht, hframes⟩ := frame_eq_ok h
    dsimp only
    split
    · rename_i hle
      simp only [after, changeFiber, ht]
      refine .single (work_of_running ht fun c hc => hc.withFrames ?_ ?_)
      · simpa [hframes] using hc.frames
      · refine List.forall_mem_cons.mpr ⟨hle, fun f hf => hc.ip f ?_⟩
        exact List.mem_of_mem_tail hf
    · exact .refl

instance (distance : Nat) : Makes Steady (jumpForward distance) := by
  unfold jumpForward
  exact .parts

instance (distance : Nat) : Makes Steady (jumpBack distance) := by
  unfold jumpBack
  exact .parts

instance : Makes Still scope := by
  unfold scope
  exact .parts

instance (scope : Option Handle) (name : Handle) (v : Value) : Makes Still (define scope name v) := by
  unfold define
  exact .parts

instance : Makes Still scopeMembers := by
  unfold scopeMembers
  exact .parts

instance (name : Handle) : Makes Still (global name) := by
  unfold global
  exact .parts

instance (name : Handle) (v : Value) : Makes Still (assignGlobal name v) := by
  unfold assignGlobal
  exact .parts

instance (name : Handle) : Makes Still (recordExport name) := by
  refine .single fun m => ?_
  change Still m (if m.exported.contains (m.nameText name) then m else _)
  split
  · exact .beside rfl ⟨rfl, rfl, rfl, rfl, rfl, rfl⟩
  · exact .beside rfl ⟨rfl, rfl, rfl, rfl, rfl, rfl⟩

instance (module : Handle) : Makes Still (completeModule module) := by
  unfold completeModule
  exact .parts

instance (r : Handle) : Makes Still (object r) := by
  unfold object
  exact .parts

instance : Makes Still frameLimitCheck := by
  unfold frameLimitCheck
  exact .parts

instance (receiver : Value) (name : Handle) : Makes Still (property receiver name) := by
  unfold property
  exact .parts

instance (operation : String) (target : Value) (name : Handle) (v : Value) :
    Makes Still (setField operation target name v) := by
  unfold setField setFieldChange
  exact .parts

instance (name : Handle) : Makes Steady (defineMethod name) := by
  unfold defineMethod
  exact .parts

instance (name : Handle) (importer : Option Handle) : Makes Still (newModule name importer) := by
  unfold newModule
  exact .parts

instance (name : Handle) (importer : Option Handle) : Makes Still (aliasModule name importer) := by
  unfold aliasModule
  exact .parts

instance (n : Native) : Makes Still (newNative n) := by
  unfold newNative
  exact .parts

instance (target : Option Handle) (ns : List Native) : Makes Still (defineFunctions target ns) := by
  induction ns with
  | nil => exact .pure ()
  | cons n rest ih =>
    unfold defineFunctions
    exact .parts

instance (target : Option Handle) (ns : List (String × Float)) :
    Makes Still (defineNumbers target ns) := by
  induction ns with
  | nil => exact .pure ()
  | cons n rest ih =>
    unfold defineNumbers
    exact .parts

instance (native : NativeModule) (as : Option Handle) : Makes Still (importNative native as) := by
  unfold importNative
  exact .parts

instance (f : Value → Except Fault Value) : Makes Steady (unary f) := by
  unfold unary
  exact .parts

instance (a b : Value) : Makes Still (equal a b) := by
  unfold equal
  exact .parts

instance (index : Nat) : Makes Steady (loadConstant index) := by
  unfold loadConstant
  exact .parts

instance : Makes Steady pushGlobal := by
  unfold pushGlobal
  exact .parts

instance (exports : Bool) : Makes Steady (popGlobal exports) := by
  unfold popGlobal
  exact .parts

instance : Makes Steady setGlobal := by
  unfold setGlobal
  exact .parts

instance : Makes Steady localIndex := by
  unfold localIndex
  exact .parts

instance : Makes Steady pushLocal := by
  unfold pushLocal
  exact .parts

instance : Makes Steady setLocal := by
  unfold setLocal
  exact .parts

instance : Makes Steady branchIfFalse := by
  unfold branchIfFalse
  exact .parts

instance (count : Nat) : Makes Steady (createList count) := by
  unfold createList
  exact .parts

instance (count : Nat) : Makes Steady (interpolate count) := by
  unfold interpolate
  exact .parts

instance (start stop : Value) : Makes Still (createSpan start stop) := by
  unfold createSpan
  exact .parts

instance : Makes Steady writeItem := by
  unfold writeItem
  exact .parts

instance : Makes Steady createSlice := by
  unfold createSlice
  exact .parts

instance : Makes Steady createClass := by
  unfold createClass
  exact .parts

instance : Makes Steady getProperty := by
  unfold getProperty
  exact .parts

instance : Makes Steady assignProperty := by
  unfold assignProperty
  exact .parts

instance : Makes Steady iterate := by
  unfold iterate
  exact .parts

instance (f : Value → Value → Act Value) [hf : ∀ a b, Makes Steady (f a b)] :
    Makes Steady (binary f) := by
  unfold binary
  exact .parts

/-! ### Families of instructions -/

instance (op : Opcode) : Makes Steady (arithmetic op) := by
  unfold arithmetic strange
  exact .parts

instance (op : Opcode) : Makes Steady (comparison op) := by
  unfold comparison strange
  exact .parts

instance (op : Opcode) : Makes Steady (bindings op) := by
  unfold bindings strange
  exact .parts

instance (op : Opcode) : Makes Steady (collections op) := by
  unfold collections strange
  exact .parts

instance (op : Opcode) : Makes Steady (objects op) := by
  unfold objects strange
  exact .parts

instance (op : Opcode) : Makes Steady (iterators op) := by
  unfold iterators strange
  exact .parts

instance (op : Opcode) : Makes Steady (strings op) := by
  unfold strings strange
  exact .parts

end Machine
end FiberMachine
