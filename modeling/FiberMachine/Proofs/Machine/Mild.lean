import FiberMachine.Proofs.Heap.Remains
import FiberMachine.Proofs.Machine.Switches

/-!
# Mild actions

A mild action changes no object and nothing that fibers share: it works on the operands and
the frames of the running fiber, builds objects, and asks the host for a file, a line or the
time.
-/

namespace FiberMachine

open Relation (ReflTransGen)

variable {α : Type}

/-! ## Mild moves in the heap -/

namespace Heap

variable {h h' : Heap}

/-- A new text, a new object, or one that is changed before anything knows of it. -/
inductive Mild : Heap → Heap → Prop
  | intern (h : Heap) (s : String) : Mild h (h.intern s).1
  | alloc (h : Heap) (b : Body) : Mild h (h.alloc b).1
  | build (h : Heap) (b : Body) (f : Object → Object) :
      Mild h ((h.alloc b).1.update (h.alloc b).2 f)

/-- Every object is as it was, and so is the handle of every text. -/
structure Spared (h h' : Heap) : Prop where
  remains : Remains h h'
  texts : ∀ s r, h.texts.find? s = some r → h'.texts.find? s = some r

theorem Spared.refl (h : Heap) : Spared h h := ⟨.refl h, fun _ _ hr => hr⟩

theorem Spared.trans {h₁ : Heap} (hs : Spared h h₁) (hs' : Spared h₁ h') : Spared h h' :=
  ⟨hs.remains.trans hs'.remains, fun s r hr => hs'.texts s r (hs.texts s r hr)⟩

theorem Allocated.spared {r : Handle} {o : Object} (ha : Allocated h h' r o) : Spared h h' :=
  ⟨fun _ _ ho => ha.get?_of_get? ho, fun _ _ hr => ha.texts ▸ hr⟩

theorem spared_intern (ha : h.Arena) (s : String) (hfit : (h.intern s).1.slots.size ≤ slotLimit) :
    (h.intern s).1.Arena ∧ Spared h (h.intern s).1 := by
  cases hs : h.texts.find? s with
  | some r =>
    rw [intern_old hs]
    exact ⟨ha, .refl h⟩
  | none =>
    obtain ⟨hnew, htexts⟩ := intern_allocated ha hs hfit
    refine ⟨hnew.arena.congr rfl rfl rfl, .intern ha s hfit, fun t r ht => ?_⟩
    rw [htexts, Table.find?_insert_ne _ fun he => by simp [← he, ht] at hs]
    exact ht

theorem Mild.size_le (hm : Mild h h') : h.slots.size ≤ h'.slots.size := by
  cases hm with
  | intern s => exact size_le_intern h s
  | alloc b => exact size_le_alloc h b
  | build b f => exact (size_update ..).symm ▸ size_le_alloc h b

theorem Mild.spared (hm : Mild h h') (ha : h.Arena) (hfit : h'.slots.size ≤ slotLimit) :
    h'.Arena ∧ Spared h h' := by
  cases hm with
  | intern s => exact spared_intern ha s hfit
  | alloc b =>
    have hb := alloc_allocated ha b hfit
    exact ⟨hb.arena, hb.spared⟩
  | build b f =>
    rw [size_update] at hfit
    have hb := alloc_allocated ha b hfit
    refine ⟨hb.arena.update _ f, hb.spared.remains.update hb.fresh f, fun s r hr => ?_⟩
    rw [update_texts]
    exact hb.spared.texts s r hr

instance (s : String) : Makes Mild (run (·.intern s)) := .single fun h => .intern h s

instance (b : Body) : Makes Mild (run (·.alloc b)) := .single fun h => .alloc h b

/-- What a new instance gets from its class is given to it before anything knows of it. -/
instance (cls : Handle) : Makes Mild (newInstance cls) := by
  unfold newInstance
  refine .bind .get fun _ => .bind (.except _) fun o => ⟨fun h => ?_⟩
  rw [after_bind]
  simp only [run, after_bind, change]
  split
  · rename_i heq
    split at heq <;> cases heq
    exact .single (.build h _ _)
  · rename_i heq
    split at heq <;> cases heq
    exact .single (.alloc h _)

instance (index : Value) (b : Body) : Makes Mild (itemOf index b) := by
  unfold itemOf
  exact .parts

instance (target index : Value) : Makes Mild (item target index) := by
  unfold item
  exact .parts

instance (target start stop : Value) : Makes Mild (slice target start stop) := by
  unfold slice
  exact .parts

end Heap

/-! ## Readings -/

section
variable {M : Heap → Heap → Prop} (c : NativeCall) (i : Nat)

instance : Makes M (c.number i) := by
  unfold NativeCall.number
  exact .parts

instance : Makes M (c.text i) := by
  unfold NativeCall.text
  exact .parts

instance (kind : Kind) : Makes M (c.object i kind) := by
  unfold NativeCall.object
  exact .parts

instance : Makes M (c.natural i) := by
  unfold NativeCall.natural
  exact .parts

end

namespace Machine

section
variable {M : Machine → Machine → Prop}

instance : Makes M fiber := by
  refine ⟨fun m => ?_⟩
  simp only [after, fiber]
  cases m.running <;> exact .refl

instance : Makes M runningId := by
  refine ⟨fun m => ?_⟩
  simp only [after, runningId]
  cases m.running <;> exact .refl

instance (distance : Nat) : Makes M (peek distance) := by
  refine ⟨fun m => ?_⟩
  simp only [after, peek]
  cases m.running with
  | none => exact .refl
  | some running =>
    simp only
    cases running.fiber.stack.peek distance <;> exact .refl

instance (count : Nat) : Makes M (top count) := by
  unfold top
  exact .parts

instance : Makes M frame := by
  unfold frame
  exact .parts

instance (index : Nat) : Makes M (constant index) := by
  unfold constant
  exact .parts

instance : Makes M scope := by
  unfold scope
  exact .parts

instance : Makes M scopeMembers := by
  unfold scopeMembers
  exact .parts

instance (name : Handle) : Makes M (global name) := by
  unfold global
  exact .parts

instance (r : Handle) : Makes M (object r) := by
  unfold object
  exact .parts

instance : Makes M frameLimitCheck := by
  unfold frameLimitCheck
  exact .parts

instance (a b : Value) : Makes M (equal a b) := by
  unfold equal
  exact .parts

end

/-! ## Mild moves of the machine -/

variable {m m' : Machine}

inductive Mild : Machine → Machine → Prop
  | heap {m : Machine} {h : Heap} : Heap.Mild m.heap h → Mild m { m with heap := h }
  | work {m : Machine} {t : Running} (stack : OperandStack) (frames : List Frame) :
      m.running = some t →
      Mild m { m with running := some ⟨t.id, { t.fiber with stack, frames }⟩ }
  | host {m : Machine} {host : Host} : host.output = m.host.output → Mild m { m with host }

/-- What fibers share is as it was, and so is every object. -/
structure Spared (m m' : Machine) : Prop extends SameOutline m m' where
  heap : Heap.Spared m.heap m'.heap
  config : m'.config = m.config
  globals : m'.globals = m.globals
  modules : m'.modules = m.modules
  loading : m'.loading = m.loading
  methods : m'.methods = m.methods
  library : m'.library = m.library
  exported : m'.exported = m.exported
  output : m'.host.output = m.host.output

namespace Spared

theorem refl (m : Machine) : Spared m m :=
  ⟨.refl m, .refl m.heap, rfl, rfl, rfl, rfl, rfl, rfl, rfl, rfl⟩

theorem trans {m₁ : Machine} (hs : Spared m m₁) (hs' : Spared m₁ m') : Spared m m' where
  toSameOutline := hs.toSameOutline.trans hs'.toSameOutline
  heap := hs.heap.trans hs'.heap
  config := hs'.config.trans hs.config
  globals := hs'.globals.trans hs.globals
  modules := hs'.modules.trans hs.modules
  loading := hs'.loading.trans hs.loading
  methods := hs'.methods.trans hs.methods
  library := hs'.library.trans hs.library
  exported := hs'.exported.trans hs.exported
  output := hs'.output.trans hs.output

end Spared

theorem Mild.room_le (hm : Mild m m') : m.room ≤ m'.room := by
  cases hm with
  | heap hh => exact hh.size_le
  | work => exact Nat.le_refl _
  | host => exact Nat.le_refl _

theorem Mild.spared (hm : Mild m m') (ha : m.heap.Arena) (hfit : m'.room ≤ Heap.slotLimit) :
    m'.heap.Arena ∧ Spared m m' := by
  cases hm with
  | heap hh =>
    obtain ⟨harena, hs⟩ := hh.spared ha hfit
    exact ⟨harena, ⟨rfl, rfl, rfl, rfl, rfl⟩, hs, rfl, rfl, rfl, rfl, rfl, rfl, rfl, rfl⟩
  | work stack frames ht =>
    exact ⟨ha, ⟨by rw [ht]; rfl, rfl, rfl, rfl, rfl⟩, .refl _, rfl, rfl, rfl, rfl, rfl, rfl, rfl, rfl⟩
  | host ho =>
    exact ⟨ha, ⟨rfl, rfl, rfl, rfl, rfl⟩, .refl _, rfl, rfl, rfl, rfl, rfl, rfl, rfl, ho⟩

theorem spared_of_mild (hr : ReflTransGen Mild m m') (ha : m.heap.Arena)
    (hfit : m'.room ≤ Heap.slotLimit) : m'.heap.Arena ∧ Spared m m' := by
  induction hr with
  | refl => exact ⟨ha, .refl m⟩
  | tail _ hm ih =>
    obtain ⟨ha', hs⟩ := ih (Nat.le_trans hm.room_le hfit)
    obtain ⟨ha'', hs'⟩ := hm.spared ha' hfit
    exact ⟨ha'', hs.trans hs'⟩

instance (x : Heap.Act α) [hx : Makes Heap.Mild x] : Makes Mild (liftM x : Act α) := by
  refine ⟨fun m => ?_⟩
  have hrow := hx.row m.heap
  rw [after_lift]
  generalize after x m.heap = h at hrow
  induction hrow with
  | refl => exact .refl
  | tail _ hm ih => exact ih.tail (.heap hm)

instance (s : String) : Makes Mild (intern s) := by
  unfold intern
  infer_instance

instance (b : Body) : Makes Mild (alloc b) := by
  unfold alloc
  infer_instance

instance (path : String) : Makes Mild (onHost (·.fetch path)) := by
  refine .single fun m => .host ?_
  change (m.host.fetch path).2.output = _
  simp only [Host.fetch]
  split <;> rfl

instance : Makes Mild (onHost Host.readLine) := by
  refine .single fun m => .host ?_
  change m.host.readLine.2.output = _
  simp only [Host.readLine]
  split <;> rfl

instance : Makes Mild (onHost Host.readClock) := by
  refine .single fun m => .host ?_
  change m.host.readClock.2.output = _
  simp only [Host.readClock]
  split <;> rfl

/-! ## Operands and frames -/

instance (stack : Fiber → OperandStack) (frames : Fiber → List Frame) :
    Makes Mild (changeFiber fun f => { f with stack := stack f, frames := frames f }) := by
  refine ⟨fun m => ?_⟩
  simp only [after, changeFiber]
  cases h : m.running with
  | none => exact .refl
  | some t => exact .single (.work _ _ h)

instance (f : OperandStack → Except Fault OperandStack) : Makes Mild (changeStack f) := by
  refine ⟨fun m => ?_⟩
  simp only [after, changeStack]
  rcases h : m.running with _ | ⟨id, stack, frames, caller, kind, state, module⟩
  · exact .refl
  · simp only
    cases f stack with
    | ok stack => exact .single (.work stack frames h)
    | error fault => exact .refl

instance (v : Value) : Makes Mild (push v) := by
  unfold push
  infer_instance

instance (distance : Nat) (v : Value) : Makes Mild (poke distance v) := by
  unfold poke
  infer_instance

instance (count : Nat) (v : Value) : Makes Mild (replaceTop count v) := by
  unfold replaceTop
  infer_instance

instance : Makes Mild pop := by
  refine ⟨fun m => ?_⟩
  simp only [after, pop]
  rcases h : m.running with _ | ⟨id, stack, frames, caller, kind, state, module⟩
  · exact .refl
  · simp only
    cases stack.pop with
    | ok p => exact .single (.work p.2 frames h)
    | error fault => exact .refl

instance : Makes Mild readByte := by
  refine ⟨fun m => ?_⟩
  simp only [after, readByte]
  rcases h : m.running with _ | ⟨id, stack, _ | ⟨f, rest⟩, caller, kind, state, module⟩
  · exact .refl
  · exact .refl
  · simp only
    cases f.chunk.code[f.ip]? with
    | none => exact .refl
    | some byte => exact .single (.work stack _ h)

instance : Makes Mild readShort := by
  unfold readShort
  exact .parts

instance : Makes Mild readCount := by
  unfold readCount
  exact .parts

instance : Makes Mild readIndex := by
  unfold readIndex
  exact .parts

instance : Makes Mild readName := by
  unfold readName
  exact .parts

instance (target : Nat) : Makes Mild (jumpTo target) := by
  unfold jumpTo
  exact .parts

instance (distance : Nat) : Makes Mild (jumpForward distance) := by
  unfold jumpForward
  exact .parts

instance (distance : Nat) : Makes Mild (jumpBack distance) := by
  unfold jumpBack
  exact .parts

/-! ## Mild instructions -/

instance (receiver : Value) (name : Handle) : Makes Mild (property receiver name) := by
  unfold property
  exact .parts

instance (n : Native) : Makes Mild (newNative n) := by
  unfold newNative
  exact .parts

instance (kind : FiberKind) (function : Handle) (args : List Value)
    (caller module : Option Handle) : Makes Mild (newFiber kind function args caller module) := by
  unfold newFiber
  exact .parts

instance (f : Value → Except Fault Value) : Makes Mild (unary f) := by
  unfold unary
  exact .parts

instance (index : Nat) : Makes Mild (loadConstant index) := by
  unfold loadConstant
  exact .parts

instance : Makes Mild pushGlobal := by
  unfold pushGlobal
  exact .parts

instance : Makes Mild localIndex := by
  unfold localIndex
  exact .parts

instance : Makes Mild pushLocal := by
  unfold pushLocal
  exact .parts

instance : Makes Mild setLocal := by
  unfold setLocal
  exact .parts

instance : Makes Mild branchIfFalse := by
  unfold branchIfFalse
  exact .parts

instance (count : Nat) : Makes Mild (createList count) := by
  unfold createList
  exact .parts

instance (count : Nat) : Makes Mild (interpolate count) := by
  unfold interpolate
  exact .parts

instance (start stop : Value) : Makes Mild (createSpan start stop) := by
  unfold createSpan
  exact .parts

instance : Makes Mild createSlice := by
  unfold createSlice
  exact .parts

instance : Makes Mild createClass := by
  unfold createClass
  exact .parts

instance : Makes Mild getProperty := by
  unfold getProperty
  exact .parts

instance : Makes Mild iterate := by
  unfold iterate
  exact .parts

instance (f : Value → Value → Act Value) [hf : ∀ a b, Makes Mild (f a b)] :
    Makes Mild (binary f) := by
  unfold binary
  exact .parts

end Machine

end FiberMachine
