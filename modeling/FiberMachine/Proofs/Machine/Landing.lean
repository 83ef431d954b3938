import FiberMachine.Proofs.Machine.Fetching
import FiberMachine.Proofs.Machine.Frames

/-!
# Where an instruction lands

Once its bytes are read, an instruction moves its frame only by a jump. Any other one leaves the
frame behind its row: a call puts a frame on top of it, and a fiber that hands over keeps it.
-/

namespace FiberMachine

open Relation (ReflTransGen)
open Listing (Shown rowAt)

namespace Machine

variable {host : HostFunctions} {m m₁ m' : Machine} {α β : Type}

/-- The running fiber and its frames. -/
def frames? (m : Machine) : Option (Handle × List Frame) :=
  m.running.map fun t => (t.id, t.fiber.frames)

/-- The same fiber runs, in the same frames. -/
def SameFrames (m m' : Machine) : Prop := m'.frames? = m.frames?

theorem sameFrames_of_row (hr : ReflTransGen SameFrames m m') : m'.frames? = m.frames? := by
  induction hr with
  | refl => rfl
  | tail _ hs ih => exact Eq.trans hs ih

theorem frames?_of_ok {x : Act α} [hx : Makes SameFrames x] {a : α} (h : x m = .ok a m') :
    m'.frames? = m.frames? := sameFrames_of_row (after_ok h ▸ hx.row m)

theorem SameRunning.sameFrames (h : SameRunning m m') : SameFrames m m' := by
  have h : m'.running = m.running := h
  rw [SameFrames, frames?, frames?, h]

instance (priority := low) (x : Act α) [hx : Makes SameRunning x] : Makes SameFrames x :=
  hx.mono fun _ _ => SameRunning.sameFrames

theorem sameFrames_changeStack (f : OperandStack → Except Fault OperandStack) (m : Machine) :
    (after (changeStack f) m).frames? = m.frames? := by
  cases ht : m.running with
  | none => simp [after, changeStack, ht]
  | some t =>
    obtain ⟨id, stack, frames, caller, kind, state, module⟩ := t
    cases hs : f stack <;> simp [after, changeStack, ht, hs, frames?]

instance (f : OperandStack → Except Fault OperandStack) : Makes SameFrames (changeStack f) :=
  .single fun m => sameFrames_changeStack f m

instance (v : Value) : Makes SameFrames (push v) := inferInstanceAs (Makes _ (changeStack _))

instance (distance : Nat) (v : Value) : Makes SameFrames (poke distance v) :=
  inferInstanceAs (Makes _ (changeStack _))

instance (count : Nat) (v : Value) : Makes SameFrames (replaceTop count v) :=
  inferInstanceAs (Makes _ (changeStack _))

instance : Makes SameFrames pop := by
  refine .single fun m => ?_
  cases ht : m.running with
  | none => simp [SameFrames, after, pop, ht]
  | some t =>
    obtain ⟨id, stack, frames, caller, kind, state, module⟩ := t
    cases hs : stack.pop <;> simp [SameFrames, after, pop, ht, hs, frames?]

/-! ## Instructions that stay in their frame -/

instance (f : Value → Except Fault Value) : Makes SameFrames (unary f) := by
  unfold unary
  exact .parts

instance (f : Value → Value → Act Value) [∀ a b, Makes SameRunning (f a b)] :
    Makes SameFrames (binary f) := by
  unfold binary
  exact .parts

instance (exports : Bool) (name : Handle) : Makes SameFrames (defineGlobal exports name) := by
  unfold defineGlobal
  exact .parts

instance (slot : Nat) : Makes SameFrames (getLocal slot) := by
  unfold getLocal
  exact .parts

instance (slot : Nat) : Makes SameFrames (assignLocal slot) := by
  unfold assignLocal
  exact .parts

instance (count : Nat) : Makes SameFrames (createList count) := by
  unfold createList
  exact .parts

instance (count : Nat) : Makes SameFrames (interpolate count) := by
  unfold interpolate
  exact .parts

instance : Makes SameFrames writeItem := by
  unfold writeItem
  exact .parts

instance : Makes SameFrames createSlice := by
  unfold createSlice
  exact .parts

instance (name : Handle) : Makes SameFrames (writeProperty name) := by
  unfold writeProperty
  exact .parts

instance (name : Handle) : Makes SameFrames (defineMethod name) := by
  unfold defineMethod
  exact .parts

theorem sameFrames_execute {op : Opcode} (hlocal : op.isLocal) (hnone : op.layout = .none) :
    Makes SameFrames (execute host op) := by
  cases op
  all_goals first
    | exact absurd hlocal (by decide)
    | exact absurd hnone (by decide)
    | skip
  all_goals
    simp only [execute, arithmetic, comparison, bindings, control, collections]
    exact .parts

/-- What is neither a jump nor a call, does not return and does not hand over stays where it is. -/
theorem sameFrames_perform {op : Opcode} (hlocal : op.isLocal) (hjump : op.layout ≠ .jump)
    (x : Inputs) : Makes SameFrames (perform host op x) := by
  unfold perform strange
  split
  case h_1 =>
    split
    · exact sameFrames_execute hlocal (by assumption)
    · exact .throw _
  all_goals first
    | exact absurd hlocal (by decide)
    | exact absurd rfl hjump
    | exact .parts

/-! ## Jumps -/

variable {f : Frame} {rest : List Frame} {r : Handle} {u : Unit}

theorem exists_running_of_frames? {frames : List Frame} (h : m.frames? = some (r, frames)) :
    ∃ t, m.running = some t ∧ t.id = r ∧ t.fiber.frames = frames := by
  simp only [frames?, Option.map_eq_some_iff, Prod.mk.injEq] at h
  exact h

theorem frame_of_frames? (h : m.frames? = some (r, f :: rest)) : frame m = .ok f m := by
  obtain ⟨t, ht, -, hf⟩ := exists_running_of_frames? h
  simp only [frame, bind_apply, fiber, ht, hf, pure_apply]

theorem jumpTo_eq_ok {target : Nat} (hm : m.frames? = some (r, f :: rest))
    (h : jumpTo target m = .ok u m') : m'.frames? = some (r, { f with ip := target } :: rest) := by
  rw [jumpTo, bind_apply, frame_of_frames? hm] at h
  dsimp only at h
  split at h
  · obtain ⟨t, ht, hid, hf⟩ := exists_running_of_frames? hm
    rw [changeFiber_eq_ok ht h]
    simp [frames?, hid, hf]
  · cases h

theorem jumpForward_eq_ok {distance : Nat} (hm : m.frames? = some (r, f :: rest))
    (h : jumpForward distance m = .ok u m') :
    m'.frames? = some (r, { f with ip := f.ip + distance } :: rest) := by
  rw [jumpForward, bind_apply, frame_of_frames? hm] at h
  exact jumpTo_eq_ok hm h

theorem jumpBack_eq_ok {distance : Nat} (hm : m.frames? = some (r, f :: rest))
    (h : jumpBack distance m = .ok u m') :
    m'.frames? = some (r, { f with ip := f.ip - distance } :: rest) := by
  rw [jumpBack, bind_apply, frame_of_frames? hm] at h
  dsimp only at h
  split at h
  · exact jumpTo_eq_ok hm h
  · cases h

/-! ## Calls -/

/-- The running fiber keeps its frames, and there is at most one more on top of them. -/
inductive OnTop (m m' : Machine) : Prop
  | same : m'.frames? = m.frames? → OnTop m m'
  | entered {r : Handle} {frames : List Frame} (g : Frame) : m.frames? = some (r, frames) →
      m'.frames? = some (r, g :: frames) → OnTop m m'

theorem OnTop.behind (hs : m₁.frames? = m.frames?) (h : OnTop m₁ m') : OnTop m m' := by
  cases h with
  | same h => exact .same (h.trans hs)
  | entered g hm h => exact .entered g (hs.symm.trans hm) h

namespace OnTop

variable {x : Act α} {g : α → Act β}

instance (priority := low) quiet [hx : Makes SameFrames x] : Leads OnTop x where
  leads _ _ _ h := .same (frames?_of_ok h)

theorem bind (hx : Makes SameFrames x) (hg : ∀ a, Leads OnTop (g a)) : Leads OnTop (x >>= g) where
  leads _ _ _ h := by
    obtain ⟨a, m₁, hxm, hgm⟩ := bind_eq_ok h
    exact .behind (frames?_of_ok hxm) ((hg a).leads _ _ _ hgm)

theorem throw (e : Fault) : Leads OnTop (throw e : Act α) := ⟨fun _ _ _ h => by cases h⟩

theorem parts (hx : Leads OnTop x := by
    repeat' first
      | infer_instance
      | exact OnTop.throw _
      | with_reducible refine OnTop.bind inferInstance fun _ => ?_
      | split
      | dsimp only) : Leads OnTop x := hx

end OnTop

instance (g : Fiber → Frame) :
    Leads OnTop (changeFiber fun fiber => { fiber with frames := g fiber :: fiber.frames }) where
  leads m _ m' h := by
    cases ht : m.running with
    | none => simp [changeFiber, ht] at h
    | some t =>
      rw [changeFiber_eq_ok ht h]
      refine .entered (g t.fiber) ?_ rfl
      rw [frames?, ht, Option.map_some]

instance (r : Handle) (argc : Nat) : Makes SameFrames (spawn r argc) := by
  have hready (r : Handle) : Makes SameFrames
      (modify fun m => { m with ready := m.ready ++ [r] } : Act Unit) := .single fun _ => rfl
  unfold spawn newFiber
  exact .parts

instance (r : Handle) (argc : Nat) (constructs : Bool) :
    Leads OnTop (callFunction r argc constructs) := by
  unfold callFunction
  exact OnTop.parts

section Natives

variable [∀ n args, Makes SameRunning (runNative host n args)]

instance (n : Native) (argc : Nat) (receiver : Option Value) :
    Makes SameFrames (callNative host n argc receiver) := by
  unfold callNative
  exact .parts

instance (cls : Handle) (argc : Nat) : Leads OnTop (callClass host cls argc) := by
  unfold callClass
  exact OnTop.parts

instance (r : Handle) (argc : Nat) : Leads OnTop (callUnbound host r argc) := by
  unfold callUnbound
  exact OnTop.parts

instance (receiver : Value) (r : Handle) (argc : Nat) :
    Leads OnTop (callBound host receiver r argc) := by
  unfold callBound
  exact OnTop.parts

instance (callee : Value) (argc : Nat) : Leads OnTop (callValue host callee argc) := by
  unfold callValue
  exact OnTop.parts

instance (receiver method : Value) (argc : Nat) :
    Leads OnTop (callMethod host receiver method argc) := by
  unfold callMethod
  exact OnTop.parts

instance (name : Handle) (argc : Nat) : Leads OnTop (invoke host name argc) := by
  unfold invoke
  exact OnTop.parts

end Natives

/-! ## Landing -/

/-- Where an instruction that a row shows leaves its fiber: in its frame, at the next row or at the
target that the row shows, with a new frame on top when it calls. -/
inductive Landed (op : Opcode) (shown : Shown) (f : Frame) (rest : List Frame) (next : Nat) :
    List Frame → Prop
  | on : op ≠ .jump → op ≠ .loop → Landed op shown f rest next ({ f with ip := next } :: rest)
  | jumped {target : Nat} : shown.target? = some target →
      Landed op shown f rest next ({ f with ip := target } :: rest)
  | called (g : Frame) : op = .call ∨ op = .invoke →
      Landed op shown f rest next (g :: { f with ip := next } :: rest)

theorem frames?_skip (hm : m.frames? = some (r, f :: rest)) (k : Nat) :
    (m.skip k).frames? = some (r, f.skip k :: rest) := by
  obtain ⟨t, ht, hid, hf⟩ := exists_running_of_frames? hm
  rw [frames?, running_skip ht, Option.map_some, Running.frames_skip_cons hf]
  exact congrArg (fun id => some (id, f.skip k :: rest)) hid

variable {op : Opcode} {shown : Shown} {x : Inputs}

theorem landed_next (hm : m.frames? = some (r, f :: rest))
    (hs : m'.frames? = (m.skip op.size).frames?) (hj : op ≠ .jump) (hl : op ≠ .loop) :
    ∃ frames, m'.frames? = some (r, frames) ∧ Landed op shown f rest (f.ip + op.size) frames :=
  ⟨_, hs.trans (frames?_skip hm op.size), .on hj hl⟩

/-- A jump goes where its row says, or it goes on. -/
theorem landed_jump (hm : m.frames? = some (r, f :: rest)) (hjump : op.layout = .jump)
    {distance target : Nat} (htarget : Listing.jumpTarget op (f.ip + op.size) distance = target)
    (h : perform host op (.number distance) (m.skip op.size) = .ok u m') : ∃ frames,
      m'.frames? = some (r, frames) ∧
        Landed op (.jump distance target) f rest (f.ip + op.size) frames := by
  subst htarget
  have hskip := frames?_skip hm op.size
  cases op with
  | jump => exact ⟨_, jumpForward_eq_ok hskip h, .jumped rfl⟩
  | loop => exact ⟨_, jumpBack_eq_ok hskip h, .jumped rfl⟩
  | jumpIfFalse =>
    obtain ⟨v, m₁, hpeek, h⟩ := bind_eq_ok h
    have hsame : m₁.frames? = _ := frames?_of_ok hpeek
    split at h
    · exact ⟨_, jumpForward_eq_ok (hsame.trans hskip) h, .jumped rfl⟩
    · cases h
      exact landed_next hm hsame (by decide) (by decide)
  | iterate =>
    obtain ⟨sequence, m₁, hsequence, h⟩ := bind_eq_ok h
    obtain ⟨cursor, m₂, hcursor, h⟩ := bind_eq_ok h
    obtain ⟨m₃, m₄, hget, h⟩ := bind_eq_ok h
    obtain ⟨item, m₅, hitem, h⟩ := bind_eq_ok h
    have hsame : m₅.frames? = (m.skip Opcode.iterate.size).frames? :=
      (frames?_of_ok hitem).trans <| (frames?_of_ok hget).trans <|
        (frames?_of_ok hcursor).trans (frames?_of_ok hsequence)
    split at h
    · obtain ⟨_, m₆, hpoke, h⟩ := bind_eq_ok h
      have hpokes := (frames?_of_ok h).trans (frames?_of_ok hpoke)
      exact landed_next hm (hpokes.trans hsame) (by decide) (by decide)
    · exact ⟨_, jumpForward_eq_ok (hsame.trans hskip) h, .jumped rfl⟩
  | _ => exact absurd hjump (by decide)

theorem leads_perform_call [∀ n args, Makes SameRunning (runNative host n args)]
    (hop : op = .call ∨ op = .invoke) (x : Inputs) : Leads OnTop (perform host op x) := by
  rcases hop with rfl | rfl
  all_goals
    cases x <;> simp only [perform, strange]
    all_goals exact OnTop.parts

theorem landed_perform [∀ n args, Makes SameRunning (runNative host n args)]
    (hm : m.frames? = some (r, f :: rest)) (hrow : rowAt f.chunk.code f.ip = .instruction op shown)
    (hx : shown.inputs m.heap f.chunk op = .ok x)
    (hop : op.isLocal ∨ op = .call ∨ op = .invoke)
    (h : perform host op x (m.skip op.size) = .ok u m') :
    ∃ frames, m'.frames? = some (r, frames) ∧ Landed op shown f rest (f.ip + op.size) frames := by
  by_cases hjump : op.layout = .jump
  · obtain ⟨-, rfl⟩ := Listing.within_of_rowAt hrow
    simp only [Listing.shownAt, hjump] at hx ⊢
    cases hx
    exact landed_jump hm hjump (by rw [Opcode.size, hjump]; rfl) h
  · have hnext : op ≠ .jump ∧ op ≠ .loop :=
      ⟨fun he => hjump (he ▸ rfl), fun he => hjump (he ▸ rfl)⟩
    rcases hop with hlocal | hcall
    · have hmakes : Makes SameFrames (perform host op x) := sameFrames_perform hlocal hjump x
      exact landed_next hm (frames?_of_ok h) hnext.1 hnext.2
    · cases (leads_perform_call hcall x).leads _ _ _ h with
      | same hs => exact landed_next hm hs hnext.1 hnext.2
      | entered g hm₁ hs =>
        cases (frames?_skip hm op.size).symm.trans hm₁
        exact ⟨_, hs, .called g hcall⟩

/-! ## Handing over -/

variable {row : List Handle} {t : Running}

theorem HandsOver.frames_skip {k : Nat} (hs : HandsOver (m.skip k) m') (hn : Nested row m)
    (ht : m.running = some t) (hf : t.fiber.frames = f :: rest) (hfit : m'.room ≤ Heap.slotLimit) :
    ∃ w, m'.work? t.id = some w ∧ w.frames = f.skip k :: rest := by
  obtain ⟨row', hn', htended, hwork⟩ := hs.keeps row (t.skip k) (hn.skip k) (running_skip ht) hfit
  exact ⟨_, hwork, Running.frames_skip_cons hf k⟩

/-- A fiber that sleeps or imports keeps its frame behind the row, whether it is parked or not. -/
theorem Nested.frames_perform (hn : Nested row m) (ht : m.running = some t)
    (hf : t.fiber.frames = f :: rest)
    (hop : op = .await ∨ op = .importModule ∨ op = .importModuleAs)
    (h : perform host op x (m.skip op.size) = .ok () m') (hfit : m'.room ≤ Heap.slotLimit) :
    ∃ w, m'.work? t.id = some w ∧ w.frames = f.skip op.size :: rest := by
  rcases hop with rfl | rfl | rfl
  · cases x with
    | nothing =>
      have h : execute host .await (m.skip 1) = .ok () m' := h
      obtain ⟨v, below, delay, hpop, -, hrow, hsleep⟩ := await_eq_ok ht h
      have hs : HandsOver ((m.skip 1).withStack (t.skip 1) below) m' := Leads.leads _ _ _ hsleep
      obtain ⟨hw, ha⟩ := row_alike hrow (hn.skip 1).wellFormed (hs.room_le.trans hfit)
      obtain ⟨row', hn', htended, hwork⟩ := hs.keeps row _ ((hn.skip 1).alike hw ha) rfl hfit
      exact ⟨_, hwork, Running.frames_skip_cons hf 1⟩
    | _ => cases h
  · cases x with
    | name name =>
      have h : importModule name none (m.skip Opcode.importModule.size) = .ok () m' := h
      have hs : HandsOver (m.skip Opcode.importModule.size) m' := Leads.leads _ _ _ h
      exact hs.frames_skip hn ht hf hfit
    | _ => cases h
  · cases x with
    | pair name other =>
      have h : importModule name (some other) (m.skip Opcode.importModuleAs.size) = .ok () m' := h
      have hs : HandsOver (m.skip Opcode.importModuleAs.size) m' := Leads.leads _ _ _ h
      exact hs.frames_skip hn ht hf hfit
    | _ => cases h

end Machine

end FiberMachine
