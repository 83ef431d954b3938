import FiberMachine.Proofs.Machine.Histories
import FiberMachine.Proofs.Machine.Views

/-!
# What a machine does to views

Work with operands, frames and fibers leaves a coarse view of every object as it is. What builds
objects upholds it, and a collection takes some of the objects away. What writes entries of
dictionaries or members of objects does no harm to a view that does not show them.
-/

namespace FiberMachine

open Relation (ReflTransGen)

namespace Heap

variable {β : Type} {view : Object → β} {h h₁ h' : Heap}

/-- An object that is there before and afterwards bears the same. -/
def Accords (view : Object → β) (h h' : Heap) : Prop :=
  ∀ r c c', h.seen view r = some c → h'.seen view r = some c' → c' = c

theorem Bears.accords (hs : Bears view h h') : Accords view h h' := fun r c _ hc hc' =>
  Option.some.inj (hc'.symm.trans (hs r c hc))

/-- So it is where objects only go. -/
theorem Bears.accords_symm (hs : Bears view h' h) : Accords view h h' := fun r _ c' hc hc' =>
  Option.some.inj ((hs r c' hc').symm.trans hc)

theorem Bears.then (hs : Bears view h h₁) (hm : Accords view h₁ h') : Accords view h h' :=
  fun r c c' hc => hm r c c' (hs r c hc)

/-- What was there and is there still bears what it showed. -/
theorem Accords.seen_eq (hm : Accords view h h') {r : Handle} {c : β}
    (hc : h.seen view r = some c) (hr : h'.isLive r) : h'.seen view r = some c := by
  obtain ⟨o, ho⟩ := isLive_iff.mp hr
  have hc' : h'.seen view r = some (view o) := seen_of_get? ho
  rw [hc', hm r c _ hc hc']

end Heap

namespace Machine

open Heap (Hidden Coarse)

variable {α β : Type} {view : Object → β} {m m₁ m' : Machine}

/-- All views of objects are the same. -/
structure Unmoved (view : Object → β) (m m' : Machine) : Prop where
  room : m'.room = m.room
  wellFormed : m.heap.WellFormed → m'.heap.WellFormed
  seen : ∀ r, m'.heap.seen view r = m.heap.seen view r

/-- The views of the objects that are there stay as they are. -/
def Upholds (view : Object → β) (m m' : Machine) : Prop := Heap.Upholds view m.heap m'.heap

/-- The views of the objects that are left are as they were. -/
structure Wanes (view : Object → β) (m m' : Machine) : Prop extends Tends m m' where
  bears : m.heap.WellFormed → m'.room ≤ Heap.slotLimit → Heap.Bears view m'.heap m.heap

/-- An object that is there before and afterwards bears the same. -/
structure Honours (view : Object → β) (m m' : Machine) : Prop extends Tends m m' where
  same : m.heap.WellFormed → m'.room ≤ Heap.slotLimit → Heap.Accords view m.heap m'.heap

namespace Unmoved

theorem of_eq (hh : m'.heap = m.heap) : Unmoved view m m' where
  room := congrArg (·.slots.size) hh
  wellFormed hw := hh ▸ hw
  seen _ := by rw [hh]

theorem refl (m : Machine) : Unmoved view m m := .of_eq rfl

theorem trans (h : Unmoved view m m₁) (h' : Unmoved view m₁ m') : Unmoved view m m' where
  room := h'.room.trans h.room
  wellFormed hw := h'.wellFormed (h.wellFormed hw)
  seen r := (h'.seen r).trans (h.seen r)

instance : IsPreorder Machine (Unmoved view) where
  refl := refl
  trans _ _ _ := trans

theorem tends (h : Unmoved view m m') : Tends m m' :=
  ⟨Nat.le_of_eq h.room.symm, fun hw _ => h.wellFormed hw⟩

theorem upholds (h : Unmoved view m m') : Upholds view m m' where
  size_le := h.tends.room_le
  wellFormed := h.tends.wellFormed
  bears _ _ r _ hc := (h.seen r).trans hc

theorem wanes (h : Unmoved view m m') : Wanes view m m' :=
  ⟨h.tends, fun _ _ r _ hc => (h.seen r).symm.trans hc⟩

end Unmoved

instance : IsPreorder Machine (Upholds view) where
  refl m := Heap.Upholds.refl m.heap
  trans _ _ _ h h' := Heap.Upholds.trans h h'

theorem Upholds.tends (h : Upholds view m m') : Tends m m' := ⟨h.size_le, h.wellFormed⟩

theorem Upholds.honours (h : Upholds view m m') : Honours view m m' :=
  ⟨h.tends, fun hw hfit => (h.bears hw hfit).accords⟩

namespace Wanes

theorem trans (h : Wanes view m m₁) (h' : Wanes view m₁ m') : Wanes view m m' where
  toTends := h.toTends.trans h'.toTends
  bears hw hfit := by
    have hfit₁ := h'.room_le.trans hfit
    exact (h'.bears (h.wellFormed hw hfit₁) hfit).trans (h.bears hw hfit₁)

instance : IsPreorder Machine (Wanes view) where
  refl m := (Unmoved.refl m).wanes
  trans _ _ _ := trans

theorem honours (h : Wanes view m m') : Honours view m m' :=
  ⟨h.toTends, fun hw hfit => (h.bears hw hfit).accords_symm⟩

end Wanes

/-- What is there must have been there in the middle, too. -/
theorem Upholds.then (h : Upholds view m m₁) (h' : Honours view m₁ m') : Honours view m m' where
  toTends := h.tends.trans h'.toTends
  same hw hfit := by
    have hfit₁ := h'.room_le.trans hfit
    exact (h.bears hw hfit₁).then (h'.same (h.wellFormed hw hfit₁) hfit)

theorem Honours.then (h : Honours view m m₁) (h' : Unmoved view m₁ m') : Honours view m m' where
  toTends := h.toTends.trans h'.tends
  same hw hfit r c c' hc hc' :=
    h.same hw (h'.room ▸ hfit) r c c' hc ((h'.seen r).symm.trans hc')

theorem Spared.honours (hs : Spared m m') (ht : Tends m m') : Honours view m m' :=
  ⟨ht, fun _ _ => hs.heap.remains.bears.accords⟩

theorem upholds_after (x : Act α) [hx : Makes (Upholds view) x] (m : Machine) :
    Upholds view m (after x m) := hx.preorder m

theorem wanes_after (x : Act α) [hx : Makes (Wanes view) x] (m : Machine) :
    Wanes view m (after x m) := hx.preorder m

instance (priority := low) (x : Act α) [hx : Makes (Unmoved view) x] : Makes (Upholds view) x :=
  hx.mono fun _ _ h => h.upholds

instance (priority := low) (x : Act α) [hx : Makes (Unmoved view) x] : Makes (Wanes view) x :=
  hx.mono fun _ _ h => h.wanes

/-! ## Operands, frames and fibers -/

/-- A change may depend on what the object is. -/
theorem unmoved_update {f : Object → Object} {r : Handle}
    (hf : ∀ o, m.heap.get? r = some o → view (f o) = view o)
    (hw : m.heap.WellFormed → (m.heap.update r f).WellFormed) :
    Unmoved view m (after (change r f) m) := by
  simp only [after, change_apply]
  by_cases hr : m.heap.isLive r <;> simp only [hr, ↓reduceIte, Bool.false_eq_true]
  · exact ⟨Heap.size_update .., hw, fun s => Heap.seen_update r s hf⟩
  · exact .refl m

instance (r : Handle) (f : Object → Object) [Heap.Plain f] [hf : Hidden view f] :
    Makes (Unmoved view) (change r f) :=
  .single fun _ => unmoved_update (fun o _ => hf.same o) fun hw =>
    hw.update (fun o _ => Heap.Plain.marked o) fun o _ => Heap.text_plain f o

instance (f : Host → α × Host) : Makes (Unmoved view) (onHost f) := .single fun _ => .of_eq rfl

instance (f : Fiber → Fiber) : Makes (Unmoved view) (changeFiber f) := by
  refine .single fun m => ?_
  simp only [after, changeFiber]
  cases m.running <;> exact .of_eq rfl

instance (f : OperandStack → Except Fault OperandStack) : Makes (Unmoved view) (changeStack f) := by
  refine .single fun m => ?_
  simp only [after, changeStack]
  rcases m.running with _ | ⟨id, stack, frames, caller, kind, state, module⟩
  · exact .refl m
  · simp only
    cases f stack <;> exact .of_eq rfl

instance (v : Value) : Makes (Unmoved view) (push v) := by
  unfold push
  infer_instance

instance (distance : Nat) (v : Value) : Makes (Unmoved view) (poke distance v) := by
  unfold poke
  infer_instance

instance (count : Nat) (v : Value) : Makes (Unmoved view) (replaceTop count v) := by
  unfold replaceTop
  infer_instance

instance : Makes (Unmoved view) pop := by
  refine .single fun m => ?_
  simp only [after, pop]
  rcases m.running with _ | ⟨id, stack, frames, caller, kind, state, module⟩
  · exact .refl m
  · simp only
    cases stack.pop <;> exact .of_eq rfl

instance : Makes (Unmoved view) readByte := by
  refine .single fun m => ?_
  simp only [after, readByte]
  rcases m.running with _ | ⟨id, stack, _ | ⟨f, rest⟩, caller, kind, state, module⟩
  · exact .refl m
  · exact .refl m
  · simp only
    cases f.chunk.code[f.ip]? <;> exact .of_eq rfl

instance : Makes (Unmoved view) readCount := by
  unfold readCount
  exact .parts

instance : Makes (Unmoved view) readIndex := by
  unfold readIndex readShort
  exact .parts

instance : Makes (Unmoved view) readName := by
  unfold readName
  exact .parts

instance (distance : Nat) : Makes (Unmoved view) (jumpForward distance) := by
  unfold jumpForward jumpTo
  exact .parts

instance (distance : Nat) : Makes (Unmoved view) (jumpBack distance) := by
  unfold jumpBack jumpTo
  exact .parts

instance (running : Machine → Option Running) (globals modules : Machine → Members)
    (root : Machine → Option Handle) (loading ready : Machine → List Handle)
    (events : Machine → List Event) (timers : Machine → Timers) (library : Machine → Library)
    (exported : Machine → List String) :
    Makes (Unmoved view) (modify fun m : Machine => { m with
      running := running m, globals := globals m, modules := modules m, root := root m
      loading := loading m, ready := ready m, events := events m, timers := timers m
      library := library m, exported := exported m }) := .single fun _ => .of_eq rfl

instance (e : Event) : Makes (Unmoved view) (modify (Machine.post e)) := .single fun _ => .of_eq rfl

instance (d : Duration) : Makes (Unmoved view) (modify (Machine.advance d)) :=
  .single fun _ => .of_eq rfl

instance (name : Handle) (v : Value) : Makes (Unmoved view) (define none name v) := by
  unfold define
  exact .parts

instance (name : Handle) : Makes (Unmoved view) (recordExport name) := by
  refine .single fun m => .of_eq ?_
  change (if m.exported.contains (m.nameText name) then m else _).heap = m.heap
  split <;> rfl

instance (f : Timers → Timers × List Event) : Makes (Unmoved view) (fire f) :=
  .single fun _ => .of_eq rfl

section

variable [Coarse view]

instance (r : Handle) (b : Option Fiber) : Makes (Unmoved view) (change r (withFiber b)) :=
  .single fun _ => unmoved_update (fun o _ => (Coarse.fiber b).same o) fun hw =>
    wellFormed_withFiber hw r b

instance (operation : String) (target : Value) (name : Handle) (v : Value) :
    Makes (Unmoved view) (setField operation target name v) := by
  unfold setField setFieldChange
  exact .parts

instance (state : FiberState) : Makes (Unmoved view) (leave state) := by
  unfold leave
  exact .parts

instance (id : Handle) : Makes (Unmoved view) (enter id) := by
  unfold enter
  exact .parts

instance (target : Handle) : Makes (Unmoved view) (resume target) := by
  unfold resume
  exact .parts

instance (state : FiberState) : Makes (Unmoved view) (returnToCaller state) := by
  unfold returnToCaller
  exact .parts

instance (delay : Duration) : Makes (Unmoved view) (sleep delay) := by
  unfold sleep
  exact .parts

instance (rs : List Handle) : Makes (Unmoved view) (startFirst rs) := by
  induction rs with
  | nil => exact .pure false
  | cons r rest ih =>
    unfold startFirst
    exact .parts

instance : Makes (Unmoved view) startReady := by
  unfold startReady
  exact .parts

end

/-! ## Safe points -/

theorem wanes_collected (m : Machine) : Wanes view m m.collected where
  toTends := tends_collected m
  bears hw _ r c hc := by
    obtain ⟨o, ho, rfl⟩ := Heap.seen_eq_some.mp hc
    exact Heap.seen_of_get? (Heap.get?_of_get?_collect hw ho)

instance : Makes (Wanes view) collect := .single wanes_collected

instance : Makes (Wanes view) collectIfDue := by
  unfold collectIfDue
  exact .parts

section

variable [Coarse view]

instance (event : Event) : Makes (Wanes view) (handle event) := by
  unfold handle
  exact .parts

instance (events : List Event) : Makes (Wanes view) (handleAll events) := by
  induction events with
  | nil => exact .pure ()
  | cons event rest ih =>
    unfold handleAll
    exact .parts

instance (again : Nat) : Makes (Wanes view) (findFiber again) := by
  induction again with
  | zero => exact .throw _
  | succ again ih =>
    unfold findFiber
    exact .parts

instance : Makes (Wanes view) safePoint := by
  unfold safePoint
  exact .parts

end

/-! ## Objects that are built -/

instance (x : Heap.Act α) [hx : Makes (Heap.Upholds view) x] :
    Makes (Upholds view) (liftM x : Act α) := by
  refine .single fun m => ?_
  rw [after_lift]
  exact hx.preorder m.heap

instance (s : String) : Makes (Upholds view) (intern s) := by
  unfold intern
  infer_instance

theorem upholds_alloc {b : Body} (ht : b.kind ≠ .text) : Makes (Upholds view) (alloc b) := by
  have : Makes (Heap.Upholds view) (Heap.run (·.alloc b)) := Heap.upholds_alloc ht
  unfold alloc
  infer_instance

instance (items : Array Value) : Makes (Upholds view) (alloc (.array items)) := upholds_alloc nofun

instance (entries : Table Value Value) : Makes (Upholds view) (alloc (.dictionary entries)) :=
  upholds_alloc nofun

instance (span : Span) : Makes (Upholds view) (alloc (.span span)) := upholds_alloc nofun

instance (name : Handle) : Makes (Upholds view) (alloc (.classObject name)) := upholds_alloc nofun

instance (receiver : Value) (method : Handle) :
    Makes (Upholds view) (alloc (.boundMethod receiver method)) := upholds_alloc nofun

instance (name : Handle) (importer : Option Handle) :
    Makes (Upholds view) (alloc (.module name importer)) := upholds_alloc nofun

instance (data : UserData) : Makes (Upholds view) (alloc (.userData data)) := upholds_alloc nofun

instance (f : Option Fiber) : Makes (Upholds view) (alloc (.fiber f)) := upholds_alloc nofun

instance (n : Native) : Makes (Upholds view) (newNative n) := by
  have : Makes (Upholds view) (alloc (.native n)) := upholds_alloc nofun
  unfold newNative
  exact .parts

instance (receiver : Value) (name : Handle) : Makes (Upholds view) (property receiver name) := by
  unfold property
  exact .parts

instance (start stop : Value) : Makes (Upholds view) (createSpan start stop) := by
  unfold createSpan
  exact .parts

instance (f : Value → Value → Act Value) [hf : ∀ a b, Makes (Upholds view) (f a b)] :
    Makes (Upholds view) (binary f) := by
  unfold binary
  exact .parts

instance (kind : FiberKind) (function : Handle) (args : List Value)
    (caller module : Option Handle) :
    Makes (Upholds view) (newFiber kind function args caller module) := by
  unfold newFiber
  exact .parts

instance (function : Handle) (argc : Nat) : Makes (Upholds view) (spawn function argc) := by
  unfold spawn
  exact .parts

instance (r : Handle) (argc : Nat) (constructs : Bool) :
    Makes (Upholds view) (callFunction r argc constructs) := by
  unfold callFunction
  exact .parts

instance (name : Handle) (importer : Option Handle) :
    Makes (Upholds view) (newModule name importer) := by
  unfold newModule
  exact .parts

instance (name : String) (v : Value) : Makes (Upholds view) (bindGlobal name v) := by
  unfold bindGlobal
  exact .parts

instance (n : Native) : Makes (Upholds view) (addFunction n) := by
  unfold addFunction
  exact .parts

section

variable [Coarse view]

instance (key : Handle) (code : Prototype) : Makes (Upholds view) (startModule key code) := by
  unfold startModule
  exact .parts

instance (name : String) (key : Handle) : Makes (Upholds view) (importFile name key) := by
  unfold importFile
  exact .parts

instance (p : Prototype) : Makes (Upholds view) (start p) := by
  unfold start
  exact .parts

instance (target : Value) (name : String) (v : Value) :
    Makes (Upholds view) (bindField target name v) := by
  unfold bindField
  exact .parts

end

/-! ## Instructions -/

instance (op : Opcode) : Makes (Upholds view) (comparison op) := by
  unfold comparison unary strange
  exact .parts

instance (op : Opcode) : Makes (Upholds view) (iterators op) := by
  unfold iterators iterate strange
  exact .parts

instance (op : Opcode) : Makes (Upholds view) (strings op) := by
  unfold strings interpolate strange
  exact .parts

theorem upholds_bindings {op : Opcode} (hop : ¬ op.binds) : Makes (Upholds view) (bindings op) := by
  cases op <;> simp [Opcode.binds] at hop <;>
    unfold bindings loadConstant pushGlobal pushLocal setLocal localIndex strange <;> exact .parts

theorem upholds_control {op : Opcode} (hop : op ≠ .ret) : Makes (Upholds view) (control op) := by
  cases op <;> simp at hop <;> unfold control branchIfFalse strange <;> exact .parts

theorem upholds_collections {op : Opcode} (hop : op ≠ .subscriptWrite) :
    Makes (Upholds view) (collections op) := by
  cases op <;> simp at hop <;> unfold collections createList createSlice strange <;> exact .parts

section

variable [Coarse view]

instance (op : Opcode) : Makes (Upholds view) (arithmetic op) := by
  unfold arithmetic unary strange
  exact .parts

instance (op : Opcode) : Makes (Upholds view) (suspensions op) := by
  unfold suspensions await strange
  exact .parts

instance [∀ name, Makes (Unmoved view) (defineMethod name)] (op : Opcode) :
    Makes (Upholds view) (objects op) := by
  unfold objects createClass getProperty assignProperty strange
  exact .parts

/-- Only two built-in functions change a dictionary. -/
theorem upholds_builtin {b : Builtin} (hput : b ≠ .dictPut) (hremove : b ≠ .dictRemove)
    (args : List Value) : Makes (Upholds view) (b.run args) := by
  unfold Builtin.run
  cases b with
  | dictPut => exact absurd rfl hput
  | dictRemove => exact absurd rfl hremove
  | print | printLine =>
    dsimp only
    unfold NativeCall.print
    exact .parts
  | input =>
    dsimp only
    unfold NativeCall.input
    exact .parts
  | now =>
    dsimp only
    unfold NativeCall.now
    exact .parts
  | clock =>
    dsimp only
    unfold NativeCall.clock
    exact .parts
  | fileExists =>
    dsimp only
    unfold NativeCall.fileExists
    exact .parts
  | fileText =>
    dsimp only
    unfold NativeCall.fileText
    exact .parts
  | _ => exact .parts

end

/-! ### Entries of dictionaries -/

section

variable [Coarse view] [∀ f, Hidden view (Heap.changeDictionary f)]

instance (op : Opcode) : Makes (Upholds view) (collections op) := by
  by_cases hop : op = .subscriptWrite
  · subst hop
    unfold collections writeItem
    exact .parts
  · exact upholds_collections hop

instance (b : Builtin) (args : List Value) : Makes (Upholds view) (b.run args) := by
  by_cases hput : b = .dictPut
  · subst hput
    unfold Builtin.run
    exact .parts
  · by_cases hremove : b = .dictRemove
    · subst hremove
      unfold Builtin.run
      exact .parts
    · exact upholds_builtin hput hremove args

end

/-! ### Calls -/

section

variable {host : HostFunctions} [Coarse view] [∀ f, Hidden view (Heap.changeDictionary f)]
  [∀ id args, Makes (Upholds view) (host.call id args)]

instance (n : Native) (args : List Value) : Makes (Upholds view) (runNative host n args) := by
  unfold runNative
  exact .parts

instance (n : Native) (argc : Nat) (receiver : Option Value) :
    Makes (Upholds view) (callNative host n argc receiver) := by
  unfold callNative
  exact .parts

instance (cls : Handle) (argc : Nat) (v : Value) (name : Handle) :
    Makes (Upholds view) (callConstruct host cls argc v name) := by
  unfold callConstruct
  exact .parts

instance (cls : Handle) (argc : Nat) : Makes (Upholds view) (callClass host cls argc) := by
  rw [callClass_eq]
  exact .parts

instance (r : Handle) (argc : Nat) : Makes (Upholds view) (callUnbound host r argc) := by
  unfold callUnbound
  exact .parts

instance (receiver : Value) (r : Handle) (argc : Nat) :
    Makes (Upholds view) (callBound host receiver r argc) := by
  unfold callBound
  exact .parts

instance (callee : Value) (argc : Nat) : Makes (Upholds view) (callValue host callee argc) := by
  unfold callValue
  exact .parts

instance (receiver method : Value) (argc : Nat) :
    Makes (Upholds view) (callMethod host receiver method argc) := by
  unfold callMethod
  exact .parts

instance (name : Handle) (argc : Nat) : Makes (Upholds view) (invoke host name argc) := by
  unfold invoke
  exact .parts

instance (op : Opcode) : Makes (Upholds view) (functions host op) := by
  unfold functions call callMember strange
  exact .parts

end

/-! ### Members of objects -/

section

variable [∀ name v, Hidden view (Heap.insertMember name v)]

instance (scope : Option Handle) (name : Handle) (v : Value) :
    Makes (Unmoved view) (define scope name v) := by
  unfold define
  exact .parts

instance (name : Handle) (v : Value) : Makes (Unmoved view) (assignGlobal name v) := by
  unfold assignGlobal
  exact .parts

instance (module : Handle) : Makes (Unmoved view) (completeModule module) := by
  unfold completeModule
  exact .parts

instance (name : Handle) : Makes (Unmoved view) (defineMethod name) := by
  unfold defineMethod
  exact .parts

instance (op : Opcode) : Makes (Upholds view) (bindings op) := by
  unfold bindings loadConstant popGlobal pushGlobal setGlobal pushLocal setLocal localIndex strange
  exact .parts

instance (name : Handle) (importer : Option Handle) :
    Makes (Upholds view) (aliasModule name importer) := by
  unfold aliasModule
  exact .parts

instance (target : Option Handle) (ns : List Native) :
    Makes (Upholds view) (defineFunctions target ns) := by
  induction ns with
  | nil => exact .pure ()
  | cons n rest ih =>
    unfold defineFunctions
    exact .parts

instance (target : Option Handle) (ns : List (String × Float)) :
    Makes (Upholds view) (defineNumbers target ns) := by
  induction ns with
  | nil => exact .pure ()
  | cons n rest ih =>
    unfold defineNumbers
    exact .parts

instance (native : NativeModule) (as : Option Handle) :
    Makes (Upholds view) (importNative native as) := by
  unfold importNative
  exact .parts

instance (name : String) (methods : List Native) : Makes (Upholds view) (addClass name methods) := by
  unfold addClass
  exact .parts

variable [Coarse view]

instance : Makes (Unmoved view) finish := by
  unfold finish
  exact .parts

instance : Makes (Unmoved view) returnFromCall := by
  unfold returnFromCall
  exact .parts

instance (op : Opcode) : Makes (Upholds view) (control op) := by
  unfold control branchIfFalse strange
  exact .parts

instance (op : Opcode) : Makes (Upholds view) (imports op) := by
  unfold imports importModule strange
  exact .parts

end

end Machine

end FiberMachine
