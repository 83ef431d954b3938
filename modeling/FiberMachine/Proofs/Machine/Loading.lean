import FiberMachine.Proofs.Heap.Remains
import FiberMachine.Proofs.Machine.Mild
import FiberMachine.Proofs.Machine.Work
import FiberMachine.Proofs.Ties.Soundness

/-!
# The table of modules

Modules come into the table when they are imported and stay there. Only imports and the end
of a module's code change the table or the list of the modules that load; whatever else a
machine does leaves both alone, whether it fails or not.
-/

namespace FiberMachine

open Relation (ReflTransGen)

namespace Heap

variable {h h' : Heap} {k : Kind} {r : Handle}

theorem Remains.has (hr : Remains h h') (hk : h.Has k r) : h'.Has k r := by
  obtain ⟨o, ho, hkind⟩ := hk
  exact ⟨o, hr r o ho, hkind⟩

namespace Has

theorem isLive (hk : h.Has k r) : h.isLive r := by
  obtain ⟨o, ho, -⟩ := hk
  exact isLive_iff.mpr ⟨o, ho⟩

/-- A change that keeps kinds. -/
theorem update (hk : h.Has k r) {s : Handle} {f : Object → Object}
    (hf : ∀ o, (f o).kind = o.kind) : (h.update s f).Has k r := by
  obtain ⟨o, ho, hkind⟩ := hk
  by_cases hr : r = s
  · exact ⟨f o, by rw [get?_update, if_pos hr, ← hr, ho, Option.map_some], (hf o).trans hkind⟩
  · exact ⟨o, by rw [get?_update, if_neg hr, ho], hkind⟩

theorem move (hk : h.Has k r) (hm : Move h h') (hw : h.WellFormed)
    (hfit : h'.slots.size ≤ slotLimit) : h'.Has k r := by
  cases hm with
  | intern s => exact (Remains.intern hw.toArena s hfit).has hk
  | alloc _ _ => exact (Remains.alloc hw.toArena _ hfit).has hk
  | update s f => exact hk.update (Plain.kind (f := f))

end Has

end Heap

/-- Instructions that define a global or assign to one. -/
def Opcode.binds (op : Opcode) : Bool :=
  op = .defineGlobal || op = .exportGlobal || op = .setGlobal

namespace Machine

variable {α : Type} {m m' : Machine} {r : Handle}

/-- Every entry in the table of modules is a live module. -/
def Stocked (m : Machine) : Prop :=
  ∀ k v, m.modules.find? k = some v → ∃ r, v = .ofHandle r ∧ m.heap.Has .module r

theorem Stocked.mono (hs : m.Stocked) (hm : m'.modules = m.modules)
    (hh : ∀ r, m.heap.Has .module r → m'.heap.Has .module r) : m'.Stocked := by
  intro k v hv
  obtain ⟨r, rfl, hmod⟩ := hs k v (hm ▸ hv)
  exact ⟨r, rfl, hh r hmod⟩

/-- The modules in the table are roots. -/
theorem mem_roots_of_modules {k : Handle} (hv : m.modules.find? k = some (.ofHandle r)) :
    r ∈ m.roots := by
  have hmem : r ∈ Body.memberHandles m.modules :=
    List.mem_flatMap.mpr ⟨_, Table.find?_eq_some_iff.mp hv, by simp [Value.toHandle?_ofHandle]⟩
  simp only [roots, List.mem_append]
  exact Or.inl (Or.inr hmem)

theorem Stocked.collected (hs : m.Stocked) (hw : m.heap.WellFormed) : m.collected.Stocked := by
  intro k v hv
  obtain ⟨r, rfl, o, ho, hk⟩ := hs k v hv
  have hreached : Heap.Reached m.heap m.roots r :=
    .root (mem_roots_of_modules hv) (Heap.isLive_iff.mpr ⟨o, ho⟩)
  exact ⟨r, rfl, o, (Heap.get?_collect_of_reached hw hreached).trans ho, hk⟩

/-- The table of modules is as it was, and so is the list of those that load. What becomes of
the globals is left open. -/
structure Keeps (G : Members → Members → Prop) (m m' : Machine) : Prop extends Tends m m' where
  modules : m'.modules = m.modules
  loading : m'.loading = m.loading
  stocked : m.heap.WellFormed → m'.room ≤ Heap.slotLimit → m.Stocked → m'.Stocked
  globals : G m.globals m'.globals

variable {G : Members → Members → Prop}

namespace Keeps

theorem trans [IsTrans Members G] {m₁ : Machine} (h : Keeps G m m₁) (h' : Keeps G m₁ m') :
    Keeps G m m' where
  toTends := h.toTends.trans h'.toTends
  modules := h'.modules.trans h.modules
  loading := h'.loading.trans h.loading
  stocked hw hfit hs := by
    have hfit₁ := Nat.le_trans h'.room_le hfit
    exact h'.stocked (h.wellFormed hw hfit₁) hfit (h.stocked hw hfit₁ hs)
  globals := trans_of G h.globals h'.globals

/-- Nothing but the kinds of objects matters. -/
theorem of_has [Std.Refl G] (ht : Tends m m') (hm : m'.modules = m.modules)
    (hl : m'.loading = m.loading) (hg : m'.globals = m.globals)
    (hh : m.heap.WellFormed → m'.room ≤ Heap.slotLimit →
      ∀ r, m.heap.Has .module r → m'.heap.Has .module r) : Keeps G m m' :=
  ⟨ht, hm, hl, fun hw hfit hs => hs.mono hm (hh hw hfit), hg ▸ refl_of G m.globals⟩

theorem of_eq (hh : m'.heap = m.heap) (hm : m'.modules = m.modules)
    (hl : m'.loading = m.loading) (hg : G m.globals m'.globals) : Keeps G m m' :=
  ⟨.of_heap_eq hh, hm, hl, fun _ _ hs => hs.mono hm (hh ▸ fun _ h => h), hg⟩

theorem of_move [Std.Refl G] {h : Heap} (hm : Heap.Move m.heap h) : Keeps G m { m with heap := h } :=
  .of_has (Move.heap hm).tends rfl rfl rfl fun hw hfit _ hr => hr.move hm hw hfit

theorem mono {G' : Members → Members → Prop} (h : Keeps G m m')
    (hg : ∀ g g', G g g' → G' g g') : Keeps G' m m' := { h with globals := hg _ _ h.globals }

variable [IsPreorder Members G]

theorem refl (m : Machine) : Keeps G m m := .of_eq rfl rfl rfl (refl_of G m.globals)

theorem of_row (hr : ReflTransGen (Keeps G) m m') : Keeps G m m' := by
  induction hr with
  | refl => exact refl _
  | tail _ h ih => exact ih.trans h

end Keeps

section

variable [IsPreorder Members G]

theorem keeps_after (G : Members → Members → Prop) [IsPreorder Members G] (x : Act α)
    [hx : Makes (Keeps G) x] (m : Machine) : Keeps G m (after x m) := .of_row (hx.row m)

/-! ## Operands, frames and objects -/

instance (x : Heap.Act α) [hx : Makes Heap.Move x] : Makes (Keeps G) (liftM x : Act α) := by
  refine ⟨fun m => ?_⟩
  have hrow := hx.row m.heap
  rw [after_lift]
  generalize after x m.heap = h at hrow
  induction hrow with
  | refl => exact .refl
  | tail _ hm ih => exact ih.tail (.of_move hm)

instance (s : String) : Makes (Keeps G) (intern s) := by
  unfold intern
  infer_instance

theorem keeps_alloc {b : Body} (ht : ∀ s, b ≠ .text s) : Makes (Keeps G) (alloc b) :=
  .single fun _ => .of_has ⟨Heap.size_le_alloc .., fun hw hfit => hw.alloc ht hfit⟩ rfl rfl rfl
    fun hw hfit _ hr => (Heap.Remains.alloc hw.toArena b hfit).has hr

instance (items : Array Value) : Makes (Keeps G) (alloc (.array items)) := keeps_alloc nofun

instance (entries : Table Value Value) : Makes (Keeps G) (alloc (.dictionary entries)) :=
  keeps_alloc nofun

instance (span : Span) : Makes (Keeps G) (alloc (.span span)) := keeps_alloc nofun

instance (name : Handle) : Makes (Keeps G) (alloc (.classObject name)) := keeps_alloc nofun

instance (receiver : Value) (method : Handle) :
    Makes (Keeps G) (alloc (.boundMethod receiver method)) := keeps_alloc nofun

instance (f : Option Fiber) : Makes (Keeps G) (alloc (.fiber f)) := keeps_alloc nofun

instance (r : Handle) (f : Object → Object) [Heap.Plain f] : Makes (Keeps G) (change r f) := by
  unfold change
  infer_instance

instance (f : Host → α × Host) : Makes (Keeps G) (onHost f) :=
  .single fun m => .of_eq rfl rfl rfl (refl_of G m.globals)

instance (f : Fiber → Fiber) : Makes (Keeps G) (changeFiber f) := by
  refine .single fun m => ?_
  simp only [after, changeFiber]
  cases m.running <;> exact .of_eq rfl rfl rfl (refl_of G m.globals)

instance (f : OperandStack → Except Fault OperandStack) : Makes (Keeps G) (changeStack f) := by
  refine .single fun m => ?_
  simp only [after, changeStack]
  rcases m.running with _ | ⟨id, stack, frames, caller, kind, state, module⟩
  · exact .refl m
  · simp only
    cases f stack <;> exact .of_eq rfl rfl rfl (refl_of G m.globals)

instance (v : Value) : Makes (Keeps G) (push v) := by
  unfold push
  infer_instance

instance (distance : Nat) (v : Value) : Makes (Keeps G) (poke distance v) := by
  unfold poke
  infer_instance

instance (count : Nat) (v : Value) : Makes (Keeps G) (replaceTop count v) := by
  unfold replaceTop
  infer_instance

instance : Makes (Keeps G) pop := by
  refine .single fun m => ?_
  simp only [after, pop]
  rcases m.running with _ | ⟨id, stack, frames, caller, kind, state, module⟩
  · exact .refl m
  · simp only
    cases stack.pop <;> exact .of_eq rfl rfl rfl (refl_of G m.globals)

instance : Makes (Keeps G) readByte := by
  refine .single fun m => ?_
  simp only [after, readByte]
  rcases m.running with _ | ⟨id, stack, _ | ⟨f, rest⟩, caller, kind, state, module⟩
  · exact .refl m
  · exact .refl m
  · simp only
    cases f.chunk.code[f.ip]? <;> exact .of_eq rfl rfl rfl (refl_of G m.globals)

instance : Makes (Keeps G) readCount := by
  unfold readCount
  exact .parts

instance : Makes (Keeps G) readIndex := by
  unfold readIndex readShort
  exact .parts

instance : Makes (Keeps G) readName := by
  unfold readName
  exact .parts

instance (distance : Nat) : Makes (Keeps G) (jumpForward distance) := by
  unfold jumpForward jumpTo
  exact .parts

instance (f : Value → Value → Act Value) [hf : ∀ a b, Makes (Keeps G) (f a b)] :
    Makes (Keeps G) (binary f) := by
  unfold binary
  exact .parts

instance (start stop : Value) : Makes (Keeps G) (createSpan start stop) := by
  unfold createSpan
  exact .parts

instance (receiver : Value) (name : Handle) : Makes (Keeps G) (property receiver name) := by
  unfold property
  exact .parts

/-! ## Instructions -/

instance (op : Opcode) : Makes (Keeps G) (arithmetic op) := by
  unfold arithmetic unary strange
  exact .parts

instance (op : Opcode) : Makes (Keeps G) (comparison op) := by
  unfold comparison unary strange
  exact .parts

instance (op : Opcode) : Makes (Keeps G) (collections op) := by
  unfold collections createList writeItem createSlice strange
  exact .parts

instance (op : Opcode) : Makes (Keeps G) (objects op) := by
  unfold objects createClass getProperty assignProperty setField setFieldChange defineMethod strange
  exact .parts

instance (op : Opcode) : Makes (Keeps G) (iterators op) := by
  unfold iterators iterate strange
  exact .parts

instance (op : Opcode) : Makes (Keeps G) (strings op) := by
  unfold strings interpolate strange
  exact .parts

theorem keeps_bindings {op : Opcode} (hop : ¬ op.binds) : Makes (Keeps G) (bindings op) := by
  cases op <;> simp [Opcode.binds] at hop <;>
    unfold bindings loadConstant pushGlobal pushLocal setLocal localIndex strange <;> exact .parts

theorem keeps_control {op : Opcode} (hop : op ≠ .ret) : Makes (Keeps G) (control op) := by
  cases op <;> simp at hop <;> unfold control branchIfFalse jumpBack jumpTo strange <;> exact .parts

/-! ## Fibers and calls -/

instance (root : Machine → Option Handle) (ready : Machine → List Handle)
    (events : Machine → List Event) (timers : Machine → Timers) :
    Makes (Keeps G) (modify fun m : Machine => { m with
      root := root m, ready := ready m, events := events m, timers := timers m }) :=
  .single fun m => .of_eq rfl rfl rfl (refl_of G m.globals)

instance (kind : FiberKind) (function : Handle) (args : List Value)
    (caller module : Option Handle) :
    Makes (Keeps G) (newFiber kind function args caller module) := by
  unfold newFiber
  exact .parts

theorem kind_withFiber (f : Option Fiber) (o : Object) : (withFiber f o).kind = o.kind := by
  unfold withFiber
  split
  · rename_i hb
    simp only [Object.kind, hb, Body.kind]
  · rfl

instance (id : Handle) (f : Option Fiber) : Makes (Keeps G) (change id (withFiber f)) := by
  refine .single fun m => ?_
  simp only [after, change_apply]
  by_cases hl : m.heap.isLive id <;> simp only [hl, ↓reduceIte, Bool.false_eq_true]
  · exact .of_has ⟨(Heap.size_update ..).ge, fun hw _ => wellFormed_withFiber hw id f⟩ rfl rfl rfl
      fun _ _ _ hr => hr.update (kind_withFiber f)
  · exact .refl m

instance (running : Machine → Option Running) :
    Makes (Keeps G) (modify fun m : Machine => { m with running := running m }) :=
  .single fun m => .of_eq rfl rfl rfl (refl_of G m.globals)

instance (state : FiberState) : Makes (Keeps G) (leave state) := by
  unfold leave
  exact .parts

instance (id : Handle) : Makes (Keeps G) (enter id) := by
  unfold enter
  exact .parts

instance : Makes (Keeps G) collect := .single fun m =>
  ⟨tends_collected m, rfl, rfl, fun hw _ hs => hs.collected hw, refl_of G m.globals⟩

instance (function : Handle) (argc : Nat) : Makes (Keeps G) (spawn function argc) := by
  unfold spawn
  exact .parts

instance (r : Handle) (argc : Nat) (constructs : Bool) :
    Makes (Keeps G) (callFunction r argc constructs) := by
  unfold callFunction
  exact .parts

instance (b : Builtin) (args : List Value) : Makes (Keeps G) (b.run args) := by
  unfold Builtin.run NativeCall.clock NativeCall.now NativeCall.print NativeCall.input
    NativeCall.fileExists NativeCall.fileText
  exact .parts

variable {host : HostFunctions} [hh : ∀ id args, Makes (Keeps G) (host.call id args)]

instance (n : Native) (args : List Value) : Makes (Keeps G) (runNative host n args) := by
  unfold runNative
  exact .parts

instance (n : Native) (argc : Nat) (receiver : Option Value) :
    Makes (Keeps G) (callNative host n argc receiver) := by
  unfold callNative
  exact .parts

instance (cls : Handle) (argc : Nat) : Makes (Keeps G) (callClass host cls argc) := by
  unfold callClass
  exact .parts

instance (r : Handle) (argc : Nat) : Makes (Keeps G) (callUnbound host r argc) := by
  unfold callUnbound
  exact .parts

instance (receiver : Value) (r : Handle) (argc : Nat) :
    Makes (Keeps G) (callBound host receiver r argc) := by
  unfold callBound
  exact .parts

instance (callee : Value) (argc : Nat) : Makes (Keeps G) (callValue host callee argc) := by
  unfold callValue
  exact .parts

instance (receiver method : Value) (argc : Nat) :
    Makes (Keeps G) (callMethod host receiver method argc) := by
  unfold callMethod
  exact .parts

instance (name : Handle) (argc : Nat) : Makes (Keeps G) (invoke host name argc) := by
  unfold invoke
  exact .parts

instance (op : Opcode) : Makes (Keeps G) (functions host op) := by
  unfold functions call callMember strange
  exact .parts

end

/-! ## Definitions -/

/-- Names may be bound. -/
class Admits (G : Members → Members → Prop) : Prop where
  insert : ∀ g k v, G g (g.insert k v)

/-- Nothing is said of what becomes of the globals. -/
def Whatever (_ _ : Members) : Prop := True

instance : IsPreorder Members Whatever where
  refl _ := trivial
  trans _ _ _ _ _ := trivial

instance : Admits Whatever := ⟨fun _ _ _ => trivial⟩

theorem Keeps.whatever (h : Keeps G m m') : Keeps Whatever m m' := h.mono fun _ _ _ => trivial

/-- Names are bound, one after another. -/
def Inserted : Members → Members → Prop := ReflTransGen fun g g' => ∃ k v, g' = g.insert k v

instance : IsPreorder Members Inserted where
  refl _ := .refl
  trans _ _ _ h h' := h.trans h'

instance : Admits Inserted := ⟨fun _ k v => .single ⟨k, v, rfl⟩⟩

section

variable [IsPreorder Members G]

instance (n : Native) : Makes (Keeps G) (newNative n) := by
  have : Makes (Keeps G) (alloc (.native n)) := keeps_alloc nofun
  unfold newNative
  exact .parts

/-- What is defined in a module is no global. -/
instance (M name : Handle) (v : Value) : Makes (Keeps G) (define (some M) name v) :=
  inferInstanceAs (Makes (Keeps G) (change M (Heap.insertMember name v)))

instance (M : Handle) (ns : List Native) : Makes (Keeps G) (defineFunctions (some M) ns) := by
  induction ns with
  | nil => exact .pure ()
  | cons n rest ih =>
    unfold defineFunctions
    exact .parts

instance (M : Handle) (ns : List (String × Float)) :
    Makes (Keeps G) (defineNumbers (some M) ns) := by
  induction ns with
  | nil => exact .pure ()
  | cons n rest ih =>
    unfold defineNumbers
    exact .parts

variable [ha : Admits G]

instance (scope : Option Handle) (name : Handle) (v : Value) :
    Makes (Keeps G) (define scope name v) := by
  unfold define
  split
  · infer_instance
  · exact .single fun _ => .of_eq rfl rfl rfl (ha.insert ..)

instance (name : Handle) (v : Value) : Makes (Keeps G) (assignGlobal name v) := by
  unfold assignGlobal
  exact .parts

instance (name : Handle) : Makes (Keeps G) (recordExport name) := by
  refine .single fun m => ?_
  change Keeps _ m (if m.exported.contains (m.nameText name) then m else _)
  split <;> exact .of_eq rfl rfl rfl (refl_of G m.globals)

instance (op : Opcode) : Makes (Keeps G) (bindings op) := by
  unfold bindings loadConstant pushGlobal popGlobal setGlobal pushLocal setLocal localIndex strange
  exact .parts

instance (target : Option Handle) (ns : List Native) :
    Makes (Keeps G) (defineFunctions target ns) := by
  induction ns with
  | nil => exact .pure ()
  | cons n rest ih =>
    unfold defineFunctions
    exact .parts

instance (target : Option Handle) (ns : List (String × Float)) :
    Makes (Keeps G) (defineNumbers target ns) := by
  induction ns with
  | nil => exact .pure ()
  | cons n rest ih =>
    unfold defineNumbers
    exact .parts

end

end Machine

end FiberMachine
