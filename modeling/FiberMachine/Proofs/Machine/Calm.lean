import FiberMachine.Proofs.Machine.Moves

/-!
# Faults of actions

All actions end with the faults of a program, but for those that take a call apart: these
count on operands that their callers have seen, and crash without them. What holds of every
fault of a program is therefore known of every fault that an action ends with. An action is
calm when it never crashes, whatever state it starts in.
-/

namespace FiberMachine

variable {σ α β : Type} {P : Fault → Prop}

/-- A program can bring a fault about with any opcode that there is. -/
def Fault.isCommon : Fault → Bool
  | .unknownOpcode _ => false
  | fault => !fault.isCrash

/-- A property of all the faults that opcodes bring about. -/
class Common (P : Fault → Prop) : Prop where
  of_common : ∀ fault : Fault, fault.isCommon = true → P fault

/-- A computation without effects ends with no fault but those with a property. -/
class Raises (P : Fault → Prop) (e : Except Fault α) : Prop where
  fault : ∀ fault, e = .error fault → P fault

/-- An action ends with no fault but those with a property, whatever state it starts in. -/
class Throws (P : Fault → Prop) (x : EStateM Fault σ α) : Prop where
  fault : ∀ s fault s', x s = .error fault s' → P fault

namespace Raises

variable {e : Except Fault α} {f : α → Except Fault β}

instance ok (a : α) : Raises P (.ok a : Except Fault α) := ⟨nofun⟩

instance pure (a : α) : Raises P (pure a : Except Fault α) := ⟨nofun⟩

theorem error_of {fault : Fault} (h : P fault) : Raises P (.error fault : Except Fault α) := by
  refine ⟨fun _ he => ?_⟩
  cases he
  exact h

theorem error [hP : Common P] {fault : Fault} (h : fault.isCommon = true) :
    Raises P (.error fault : Except Fault α) := error_of (hP.of_common fault h)

/-- A fault that is handed on has the property where it comes from. -/
theorem of_eq [he : Raises P e] {fault : Fault} (h : e = .error fault) :
    Raises P (.error fault : Except Fault β) := error_of (he.fault fault h)

theorem bind_ok (he : Raises P e) (hf : ∀ a, e = .ok a → Raises P (f a)) :
    Raises P (e >>= f) := by
  cases e with
  | ok a => exact hf a rfl
  | error fault => exact error_of (he.fault fault rfl)

theorem bind (he : Raises P e) (hf : ∀ a, Raises P (f a)) : Raises P (e >>= f) :=
  he.bind_ok fun a _ => hf a

theorem mapM {f : β → Except Fault α} (hf : ∀ b, Raises P (f b)) (bs : List β) :
    Raises P (bs.mapM f) := by
  induction bs with
  | nil => exact .pure []
  | cons b bs ih =>
    rw [List.mapM_cons]
    exact (hf b).bind fun _ => ih.bind fun _ => .pure _

/-- Goes through a computation part by part. -/
theorem parts (he : Raises P e := by
    repeat' first
      | infer_instance
      | exact Raises.error rfl
      | exact Raises.of_eq (by assumption)
      | with_reducible refine Raises.bind ?_ fun _ => ?_
      | split
      | dsimp only) : Raises P e := he

end Raises

namespace Throws

variable {x : EStateM Fault σ α} {f : α → EStateM Fault σ β}

instance pure (a : α) : Throws P (pure a : EStateM Fault σ α) := ⟨nofun⟩

instance get : Throws P (get : EStateM Fault σ σ) := ⟨nofun⟩

instance modify (f : σ → σ) : Throws P (modify f : EStateM Fault σ Unit) := ⟨nofun⟩

theorem throw_of {fault : Fault} (h : P fault) :
    Throws P (throw fault : EStateM Fault σ α) := by
  refine ⟨fun _ _ _ he => ?_⟩
  cases he
  exact h

theorem throw [hP : Common P] {fault : Fault} (h : fault.isCommon = true) :
    Throws P (throw fault : EStateM Fault σ α) := throw_of (hP.of_common fault h)

instance except (e : Except Fault α) [he : Raises P e] :
    Throws P (liftM e : EStateM Fault σ α) := by
  refine ⟨fun _ _ _ h => ?_⟩
  rw [except_apply] at h
  split at h <;> cases h
  exact he.fault _ rfl

theorem bind (hx : Throws P x) (hf : ∀ a, Throws P (f a)) : Throws P (x >>= f) := by
  refine ⟨fun s fault s' h => ?_⟩
  rw [bind_apply] at h
  cases hs : x s with
  | ok a s₁ =>
    rw [hs] at h
    exact (hf a).fault _ _ _ h
  | error e s₁ =>
    rw [hs] at h
    cases h
    exact hx.fault _ _ _ hs

instance map (g : α → β) [hx : Throws P x] : Throws P (g <$> x) := by
  refine ⟨fun s fault s' h => ?_⟩
  change EStateM.map g x s = _ at h
  simp only [EStateM.map] at h
  cases hs : x s with
  | ok a s₁ => simp [hs] at h
  | error e s₁ =>
    rw [hs] at h
    cases h
    exact hx.fault _ _ _ hs

instance discard [hx : Throws P x] : Throws P (discard x) := map (Function.const α PUnit.unit)

instance run (f : Heap → Heap × α) : Throws P (Heap.run f) := ⟨nofun⟩

instance lift (x : Heap.Act α) [hx : Throws P x] : Throws P (liftM x : Machine.Act α) := by
  refine ⟨fun m fault m' h => ?_⟩
  rw [Machine.lift_apply] at h
  cases hs : x m.heap with
  | ok a heap => simp [hs] at h
  | error e heap =>
    rw [hs] at h
    cases h
    exact hx.fault _ _ _ hs

/-- Goes through an action part by part. -/
theorem parts (hx : Throws P x := by
    repeat' first
      | infer_instance
      | exact Throws.throw rfl
      | with_reducible refine Throws.bind ?_ fun _ => ?_
      | split
      | dsimp only) : Throws P x := hx

end Throws

/-! ## Crashes -/

/-- An action crashes in no state. -/
class Calm (x : EStateM Fault σ α) : Prop where
  isCrash : ∀ s fault s', x s = .error fault s' → fault.isCrash = false

def Fault.NoCrash (fault : Fault) : Prop := fault.isCrash = false

instance : Common Fault.NoCrash where
  of_common fault h := by cases fault <;> simp_all [Fault.isCommon, Fault.NoCrash, Fault.isCrash]

instance (priority := low) (x : EStateM Fault σ α) [hx : Throws Fault.NoCrash x] : Calm x :=
  ⟨hx.fault⟩

variable [hP : Common P]

/-! ## Computations without effects -/

namespace Value

instance (operation : String) (a b : Value) : Raises P (bothNumbers operation a b) := by
  unfold bothNumbers
  exact .parts

instance (operation : String) (f : Float → Float → Float) (a b : Value) :
    Raises P (combine operation f a b) := by
  unfold combine
  exact .parts

instance (f : Float → Float → Bool) (a b : Value) : Raises P (compare f a b) := by
  unfold compare
  exact .parts

instance (operation : String) (f : Float → Float) (a : Value) :
    Raises P (change operation f a) := by
  unfold change
  exact .parts

variable (a b : Value)

instance : Raises P (a.subtract b) := inferInstanceAs (Raises P (combine ..))

instance : Raises P (a.multiply b) := inferInstanceAs (Raises P (combine ..))

instance : Raises P (a.divide b) := inferInstanceAs (Raises P (combine ..))

instance : Raises P (a.power b) := inferInstanceAs (Raises P (combine ..))

instance : Raises P (a.modulo b) := inferInstanceAs (Raises P (combine ..))

instance : Raises P (a.less b) := inferInstanceAs (Raises P (compare ..))

instance : Raises P (a.greater b) := inferInstanceAs (Raises P (compare ..))

instance : Raises P a.negate := inferInstanceAs (Raises P (change ..))

instance (delta : Float) : Raises P (a.step delta) := inferInstanceAs (Raises P (change ..))

end Value

namespace Span

variable (s : Span)

instance (cursor : Float) : Raises P (s.advance cursor) := by
  unfold advance
  exact .parts

instance : Raises P s.length := by
  unfold length tooLong
  exact .parts

theorem raises_valuesFrom (room : Nat) (cursor : Float) (seen : Array Float) :
    Raises P (s.valuesFrom room cursor seen) := by
  induction room generalizing cursor seen with
  | zero =>
    unfold valuesFrom tooLong
    exact .parts
  | succ room ih =>
    unfold valuesFrom
    split
    · split
      · exact .of_eq (by assumption)
      · exact ih _ _
    · exact .ok _

instance : Raises P s.values := by
  have := s.raises_valuesFrom (P := P)
  unfold values
  exact .parts

end Span

namespace OperandStack

variable (s : OperandStack)

instance (v : Value) : Raises P (s.push v) := by
  unfold push
  exact .parts

instance : Raises P s.pop := by
  unfold pop
  exact .parts

instance (distance : Nat) : Raises P (s.peek distance) := by
  by_cases h : distance < s.values.size
  · rw [peek_of_lt h]
    exact .ok _
  · rw [peek_of_le (Nat.not_lt.mp h)]
    exact .error rfl

instance (distance : Nat) (v : Value) : Raises P (s.poke distance v) := by
  by_cases h : distance < s.values.size
  · rw [poke_of_lt h]
    exact .ok _
  · rw [poke_of_le (Nat.not_lt.mp h)]
    exact .error rfl

instance (count : Nat) : Raises P (s.top count) := by
  by_cases h : count ≤ s.values.size
  · rw [top_of_le h]
    exact .ok _
  · rw [top_of_lt (Nat.not_le.mp h)]
    exact .error rfl

theorem raises_replaceTop {count : Nat} (h : count ≤ s.size) (v : Value) :
    Raises P (s.replaceTop count v) := by
  rw [replaceTop_of_le h]
  infer_instance

theorem raises_pushAll (vs : List Value) : Raises P (s.pushAll vs) := by
  induction vs generalizing s with
  | nil => exact .ok s
  | cons v vs ih => exact .bind inferInstance ih

instance (vs : List Value) : Raises P (s.pushAll vs) := s.raises_pushAll vs

end OperandStack

namespace Heap

variable (h : Heap)

instance (r : Handle) : Raises P (h.get r) := by
  unfold Heap.get
  exact .parts

instance (r : Handle) : Raises P (h.text r) := by
  unfold text
  exact .parts

instance (r : Handle) : Raises P (h.array r) := by
  unfold array
  exact .parts

instance (r : Handle) : Raises P (h.span r) := by
  unfold span
  exact .parts

instance (r : Handle) : Raises P (h.dictionary r) := by
  unfold dictionary
  exact .parts

instance (r : Handle) : Raises P (h.function r) := by
  unfold function
  exact .parts

instance (r : Handle) : Raises P (h.module r) := by
  unfold module
  exact .parts

instance (operation : String) (v : Value) : Raises P (integer operation v) := by
  unfold integer
  exact .parts

instance (v : Value) (size : Nat) : Raises P (place v size) := by
  unfold place
  exact .parts

instance (v : Value) (size : Nat) : Raises P (sliceBound v size) := by
  unfold sliceBound
  exact .parts

instance (index v : Value) (b : Body) : Raises P (itemChange index v b) := by
  unfold itemChange
  exact .parts

theorem sliceBound_le {v : Value} {size n : Nat} (h : sliceBound v size = .ok n) : n ≤ size := by
  simp only [sliceBound] at h
  split at h
  · cases h
  · split at h
    · cases h
      omega
    · cases h

/-- The bounds of a slice are checked one by one, and then against each other. -/
instance (items : Array Value) (start stop : Value) : Raises P (sliceOf items start stop) := by
  refine .bind_ok inferInstance fun first _ => .bind_ok inferInstance fun last hlast => ?_
  split
  · exact .error rfl
  · rename_i hle
    rw [Checked.slice_of_le (Nat.not_lt.mp hle) (sliceBound_le hlast)]
    exact .ok _

instance (sequence cursor : Value) : Raises P (h.nextItem sequence cursor) := by
  unfold nextItem
  exact .parts

omit hP in
theorem raises_jsonObject {key : α → Except Fault String} {value : Value → Except Fault JsonValue}
    (hkey : ∀ a, Raises P (key a)) (hvalue : ∀ v, Raises P (value v)) (entries : List (α × Value)) :
    Raises P (jsonObject key value entries) :=
  .bind (.mapM (fun e : α × Value => (hkey e.1).bind fun _ => (hvalue e.2).bind fun _ => .pure _) _)
    fun _ => .pure _

theorem raises_bodyToJson (v : Value) {inside : Value → Except Fault JsonValue}
    (hi : ∀ v, Raises P (inside v)) (b : Body) : Raises P (h.bodyToJson v inside b) := by
  cases b with
  | array items => exact .bind (.mapM hi _) fun _ => .pure _
  | dictionary entries => exact raises_jsonObject (fun _ => .ok _) hi _
  | instanceOf cls fields => exact raises_jsonObject (fun _ => inferInstance) hi _
  | _ => exact .ok _

theorem raises_toJson (room : Nat) (v : Value) : Raises P (h.toJson room v) := by
  induction room generalizing v with
  | zero => exact .error rfl
  | succ room ih =>
    unfold toJson
    split
    · exact .ok _
    · exact .ok _
    · exact .bind inferInstance fun _ => h.raises_bodyToJson v ih _
    · exact .ok _

instance (room : Nat) (v : Value) : Raises P (h.toJson room v) := h.raises_toJson room v

/-! ## Actions on the heap -/

instance (r : Handle) (f : Object → Object) : Throws P (change r f) := by
  refine ⟨fun h fault h' he => ?_⟩
  simp only [change] at he
  split at he <;> cases he
  exact hP.of_common _ rfl

instance (r : Handle) (v : Value) : Throws P (pushItem r v) := by
  unfold pushItem
  exact .parts

instance (cls : Handle) : Throws P (newInstance cls) := by
  unfold newInstance
  exact .parts

instance (index : Value) (b : Body) : Throws P (itemOf index b) := by
  unfold itemOf
  exact .parts

instance (target index : Value) : Throws P (item target index) := by
  unfold item
  exact .parts

instance (target index v : Value) : Throws P (setItem target index v) := by
  unfold setItem
  exact .parts

instance (target start stop : Value) : Throws P (slice target start stop) := by
  unfold slice
  exact .parts

instance (a b : Value) : Throws P (append a b) := by
  unfold append
  exact .parts

instance (a b : Value) : Throws P (sum a b) := by
  unfold sum
  exact .parts

end Heap

/-! ## Built-in functions -/

namespace NativeCall

variable (c : NativeCall) (i : Nat)

instance : Raises P (c.value i) := by
  unfold value
  exact .parts

instance : Throws P (c.number i) := by
  unfold number mismatch
  exact .parts

instance : Throws P (c.text i) := by
  unfold text mismatch
  exact .parts

instance (kind : Kind) : Throws P (c.object i kind) := by
  unfold object mismatch
  exact .parts

instance : Throws P (c.natural i) := by
  unfold natural
  exact .parts

instance : Throws P c.arrayLength := by
  unfold arrayLength
  exact .parts

instance : Throws P c.arrayAppend := by
  unfold arrayAppend
  exact .parts

instance : Throws P c.arrayPop := by
  unfold arrayPop
  exact .parts

instance : Throws P c.spanExpand := by
  unfold spanExpand
  exact .parts

instance : Throws P c.spanStep := by
  unfold spanStep
  exact .parts

instance : Throws P c.dictPut := by
  unfold dictPut
  exact .parts

instance : Throws P c.dictGet := by
  unfold dictGet
  exact .parts

instance : Throws P c.dictHas := by
  unfold dictHas
  exact .parts

instance : Throws P c.dictRemove := by
  unfold dictRemove
  exact .parts

instance : Throws P c.dictSize := by
  unfold dictSize
  exact .parts

instance : Throws P c.dictKeys := by
  unfold dictKeys
  exact .parts

instance : Throws P c.textLength := by
  unfold textLength
  exact .parts

instance (lib : JsonLibrary) : Throws P (c.jsonParse lib) := by
  unfold jsonParse
  exact .parts

instance (lib : JsonLibrary) : Throws P (c.jsonStringify lib) := by
  unfold jsonStringify
  exact .parts

end NativeCall

/-! ## The running fiber -/

namespace Machine

instance (r : Handle) (f : Object → Object) : Throws P (change r f) := by
  unfold change
  infer_instance

instance (s : String) : Throws P (intern s) := by
  unfold intern
  infer_instance

instance (b : Body) : Throws P (alloc b) := by
  unfold alloc
  infer_instance

instance (f : Host → α × Host) : Throws P (onHost f) := by
  refine ⟨fun m fault m' h => ?_⟩
  simp only [onHost] at h
  cases h

instance : Throws P fiber := by
  refine ⟨fun m fault m' h => ?_⟩
  simp only [fiber] at h
  split at h <;> cases h
  exact hP.of_common _ rfl

instance : Throws P runningId := by
  refine ⟨fun m fault m' h => ?_⟩
  simp only [runningId] at h
  split at h <;> cases h
  exact hP.of_common _ rfl

instance (f : Fiber → Fiber) : Throws P (changeFiber f) := by
  refine ⟨fun m fault m' h => ?_⟩
  simp only [changeFiber] at h
  split at h <;> cases h
  exact hP.of_common _ rfl

theorem throws_changeStack {f : OperandStack → Except Fault OperandStack}
    (hf : ∀ s, Raises P (f s)) : Throws P (changeStack f) := by
  refine ⟨fun m fault m' h => ?_⟩
  simp only [changeStack] at h
  split at h
  · split at h
    · cases h
    · cases h
      exact (hf _).fault _ (by assumption)
  · cases h
    exact hP.of_common _ rfl

instance (v : Value) : Throws P (push v) := throws_changeStack fun _ => inferInstance

instance (distance : Nat) (v : Value) : Throws P (poke distance v) :=
  throws_changeStack fun _ => inferInstance

instance (distance : Nat) : Throws P (peek distance) := by
  refine ⟨fun m fault m' h => ?_⟩
  simp only [peek] at h
  split at h
  · split at h
    · cases h
    · cases h
      exact Raises.fault _ (by assumption)
  · cases h
    exact hP.of_common _ rfl

instance : Throws P pop := by
  refine ⟨fun m fault m' h => ?_⟩
  simp only [pop] at h
  split at h
  · split at h
    · cases h
    · cases h
      exact Raises.fault _ (by assumption)
  · cases h
    exact hP.of_common _ rfl

instance (count : Nat) : Throws P (top count) := by
  unfold top
  exact .parts

instance : Throws P frame := by
  unfold frame
  exact .parts

instance : Throws P readByte := by
  refine ⟨fun m fault m' h => ?_⟩
  simp only [readByte] at h
  split at h
  · cases h
    exact hP.of_common _ rfl
  · split at h
    · cases h
      exact hP.of_common _ rfl
    · split at h <;> cases h
      exact hP.of_common _ rfl

end Machine

/-! ## Actions of the machine -/

namespace NativeCall

instance (c : NativeCall) (ending : String) : Throws P (c.print ending) := by
  unfold print
  exact .parts

instance : Throws P input := by
  unfold input
  exact .parts

instance (c : NativeCall) : Throws P c.fileExists := by
  unfold fileExists
  exact .parts

instance (c : NativeCall) : Throws P c.fileText := by
  unfold fileText
  exact .parts

end NativeCall

instance (b : Builtin) (args : List Value) : Throws P (b.run args) := by
  unfold Builtin.run NativeCall.clock NativeCall.now
  exact .parts

namespace Machine

instance : Throws P readShort := by
  unfold readShort
  exact .parts

instance : Throws P readCount := by
  unfold readCount
  exact .parts

instance : Throws P readIndex := by
  unfold readIndex
  exact .parts

instance (index : Nat) : Throws P (constant index) := by
  unfold constant
  exact .parts

instance : Throws P readName := by
  unfold readName
  exact .parts

instance (target : Nat) : Throws P (jumpTo target) := by
  unfold jumpTo
  exact .parts

instance (distance : Nat) : Throws P (jumpForward distance) := by
  unfold jumpForward
  exact .parts

instance (distance : Nat) : Throws P (jumpBack distance) := by
  unfold jumpBack
  exact .parts

instance : Throws P scope := by
  unfold scope
  exact .parts

instance (scope : Option Handle) (name : Handle) (v : Value) : Throws P (define scope name v) := by
  unfold define
  exact .parts

instance : Throws P scopeMembers := by
  unfold scopeMembers
  exact .parts

instance (name : Handle) : Throws P (global name) := by
  unfold global
  exact .parts

instance (name : Handle) (v : Value) : Throws P (assignGlobal name v) := by
  unfold assignGlobal
  exact .parts

instance (name : Handle) : Throws P (recordExport name) := by
  unfold recordExport
  exact .parts

instance (module : Handle) : Throws P (completeModule module) := by
  unfold completeModule
  exact .parts

instance (r : Handle) : Throws P (object r) := by
  unfold object
  exact .parts

instance : Throws P frameLimitCheck := by
  unfold frameLimitCheck
  exact .parts

instance (receiver : Value) (name : Handle) : Throws P (property receiver name) := by
  unfold property
  exact .parts

instance (operation : String) (target : Value) (name : Handle) (v : Value) :
    Throws P (setField operation target name v) := by
  unfold setField
  exact .parts

instance (name : Handle) : Throws P (defineMethod name) := by
  unfold defineMethod
  exact .parts

/-! ### Fibers and imports -/

instance (kind : FiberKind) (function : Handle) (args : List Value)
    (caller module : Option Handle) : Throws P (newFiber kind function args caller module) := by
  unfold newFiber
  exact .parts

instance (id : Handle) : Throws P (enter id) := by
  unfold enter
  exact .parts

instance (state : FiberState) : Throws P (leave state) := by
  unfold leave
  exact .parts

instance (target : Handle) : Throws P (resume target) := by
  unfold resume
  exact .parts

instance (state : FiberState) : Throws P (returnToCaller state) := by
  unfold returnToCaller
  exact .parts

instance (delay : Duration) : Throws P (sleep delay) := by
  unfold sleep
  exact .parts

instance : Throws P finish := by
  unfold finish
  exact .parts

instance (rs : List Handle) : Throws P (startFirst rs) := by
  induction rs with
  | nil => exact .pure false
  | cons r rest ih =>
    unfold startFirst
    exact .parts

instance : Throws P startReady := by
  unfold startReady
  exact .parts

instance (name : Handle) (importer : Option Handle) : Throws P (newModule name importer) := by
  unfold newModule
  exact .parts

instance (name : Handle) (importer : Option Handle) : Throws P (aliasModule name importer) := by
  unfold aliasModule
  exact .parts

instance (n : Native) : Throws P (newNative n) := by
  unfold newNative
  exact .parts

instance (target : Option Handle) (ns : List Native) : Throws P (defineFunctions target ns) := by
  induction ns with
  | nil => exact .pure ()
  | cons n rest ih =>
    unfold defineFunctions
    exact .parts

instance (target : Option Handle) (ns : List (String × Float)) :
    Throws P (defineNumbers target ns) := by
  induction ns with
  | nil => exact .pure ()
  | cons n rest ih =>
    unfold defineNumbers
    exact .parts

instance (native : NativeModule) (as : Option Handle) : Throws P (importNative native as) := by
  unfold importNative
  exact .parts

instance (key : Handle) (code : Prototype) : Throws P (startModule key code) := by
  unfold startModule
  exact .parts

instance (name : String) (key : Handle) : Throws P (importFile name key) := by
  unfold importFile
  exact .parts

instance (name : Handle) (as : Option Handle) : Throws P (importModule name as) := by
  unfold importModule
  exact .parts

/-! ### Safe points -/

instance : Throws P collect := by
  unfold collect
  exact .parts

instance : Throws P collectIfDue := by
  unfold collectIfDue
  exact .parts

instance (f : Timers → Timers × List Event) : Throws P (fire f) := by
  unfold fire
  exact .parts

instance (event : Event) : Throws P (handle event) := by
  unfold handle
  exact .parts

instance (events : List Event) : Throws P (handleAll events) := by
  induction events with
  | nil => exact .pure ()
  | cons event rest ih =>
    unfold handleAll
    exact .parts

instance (again : Nat) : Throws P (findFiber again) := by
  induction again with
  | zero => exact .throw rfl
  | succ again ih =>
    unfold findFiber
    exact .parts

instance : Throws P safePoint := by
  unfold safePoint
  exact .parts

instance (p : Prototype) : Throws P (start p) := by
  unfold start
  exact .parts

/-! ### Instructions without calls -/

instance (f : Value → Except Fault Value) [∀ v, Raises P (f v)] : Throws P (unary f) := by
  unfold unary
  exact .parts

instance (f : Value → Value → Act Value) [∀ a b, Throws P (f a b)] : Throws P (binary f) := by
  unfold binary
  exact .parts

instance (a b : Value) : Throws P (equal a b) := by
  unfold equal
  exact .parts

instance (index : Nat) : Throws P (loadConstant index) := by
  unfold loadConstant
  exact .parts

instance : Throws P pushGlobal := by
  unfold pushGlobal
  exact .parts

instance (exports : Bool) : Throws P (popGlobal exports) := by
  unfold popGlobal
  exact .parts

instance : Throws P setGlobal := by
  unfold setGlobal
  exact .parts

instance : Throws P localIndex := by
  unfold localIndex
  exact .parts

instance : Throws P pushLocal := by
  unfold pushLocal
  exact .parts

instance : Throws P setLocal := by
  unfold setLocal
  refine .bind inferInstance fun index => .bind inferInstance fun v => throws_changeStack fun s => ?_
  cases s.set? index v with
  | none => exact .error rfl
  | some stack => exact .ok stack

instance : Throws P branchIfFalse := by
  unfold branchIfFalse
  exact .parts

instance (start stop : Value) : Throws P (createSpan start stop) := by
  unfold createSpan
  exact .parts

instance : Throws P writeItem := by
  unfold writeItem
  exact .parts

instance : Throws P createSlice := by
  unfold createSlice
  exact .parts

instance : Throws P createClass := by
  unfold createClass
  exact .parts

instance : Throws P getProperty := by
  unfold getProperty
  exact .parts

instance : Throws P assignProperty := by
  unfold assignProperty
  exact .parts

instance : Throws P iterate := by
  unfold iterate
  exact .parts

instance : Throws P await := by
  unfold await
  exact .parts

instance : Throws P returnFromCall := by
  unfold returnFromCall
  exact .parts

end Machine

end FiberMachine
