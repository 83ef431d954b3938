import FiberMachine.Proofs.Machine.Leads
import FiberMachine.Proofs.Object.Operands

/-!
# What instructions take

An instruction that finds its operands above a level of the stack changes nothing below
it, and the frames stay but for how far the innermost one has come. This is so for every
instruction that does not call, return or hand over to another fiber.
-/

namespace FiberMachine

open OperandStack (SameBelow Takes)

/-- The innermost frame comes to another place in its code. -/
inductive Onward : List Frame → List Frame → Prop
  | nil : Onward [] []
  | cons (f : Frame) (ip : Nat) (rest : List Frame) : Onward (f :: rest) ({ f with ip } :: rest)

theorem Onward.refl (frames : List Frame) : Onward frames frames := by
  cases frames with
  | nil => exact .nil
  | cons f rest => exact .cons f f.ip rest

theorem Onward.trans {frames frames' frames'' : List Frame} (h : Onward frames frames')
    (h' : Onward frames' frames'') : Onward frames frames'' := by
  cases h with
  | nil => exact h'
  | cons f ip rest =>
    cases h' with
    | cons _ ip' _ => exact .cons f ip' rest

theorem Onward.exists_ip {f : Frame} {rest frames : List Frame} (h : Onward (f :: rest) frames) :
    ∃ ip, frames = { f with ip } :: rest := by
  cases h with
  | cons _ ip _ => exact ⟨ip, rfl⟩

/-- A fiber goes on in its innermost frame and keeps its operands below a level. -/
structure Running.Goes (b : Nat) (t t' : Running) : Prop where
  id : t'.id = t.id
  frames : Onward t.fiber.frames t'.fiber.frames
  stack : SameBelow b t.fiber.stack t'.fiber.stack

theorem Running.Goes.refl (b : Nat) (t : Running) : Goes b t t := ⟨rfl, .refl _, .refl ..⟩

theorem Running.Goes.trans {b : Nat} {t t' t'' : Running} (h : Goes b t t') (h' : Goes b t' t'') :
    Goes b t t'' :=
  ⟨h'.id.trans h.id, h.frames.trans h'.frames, h.stack.trans h'.stack⟩

namespace Machine

open Running (Goes)

variable {m m' : Machine} {α β : Type} {n k j : Nat}

/-- When an action finds `n` operands above any level and succeeds, the running fiber goes
on with `k` of them. -/
class Uses (n : Nat) (x : Act α) (k : outParam Nat) : Prop where
  uses : ∀ {b m a m' t}, m.running = some t → b + n ≤ t.fiber.stack.size → x m = .ok a m' →
    ∃ t', m'.running = some t' ∧ Goes b t t' ∧ b + k ≤ t'.fiber.stack.size

namespace Uses

variable {x : Act α} {f : α → Act β}

instance (priority := low) of_sameRunning [hx : Makes SameRunning x] : Uses n x n where
  uses {_ m _ m' t} ht hb h := by
    have hr : m'.running = m.running := sameRunning_of_row (after_ok h ▸ hx.row m)
    exact ⟨t, hr.trans ht, .refl .., hb⟩

theorem bind (hx : Uses n x j) (hf : ∀ a, Uses j (f a) k) : Uses n (x >>= f) k where
  uses ht hb h := by
    obtain ⟨a, m₁, hxm, hfm⟩ := bind_eq_ok h
    obtain ⟨t₁, ht₁, hg, hb₁⟩ := hx.uses ht hb hxm
    obtain ⟨t', ht', hg', hb'⟩ := (hf a).uses ht₁ hb₁ hfm
    exact ⟨t', ht', hg.trans hg', hb'⟩

theorem throw (e : Fault) : Uses n (throw e : Act α) k := ⟨fun _ _ h => by cases h⟩

instance discard [hx : Uses n x k] : Uses n (discard x) k where
  uses {b m _ m' t} ht hb h := by
    change EStateM.map (Function.const α PUnit.unit) x m = _ at h
    simp only [EStateM.map] at h
    cases hxm : x m with
    | ok a m₁ =>
      rw [hxm] at h
      cases h
      exact hx.uses ht hb hxm
    | error e m₁ => simp [hxm] at h

/-- Goes through an action part by part. -/
theorem parts (hx : Uses n x k := by
    repeat' first
      | infer_instance
      | exact Uses.throw _
      | with_reducible refine Uses.bind inferInstance fun _ => ?_
      | split
      | dsimp only) : Uses n x k := hx

end Uses

/-! ## Operands -/

instance (f : OperandStack → Except Fault OperandStack) [hf : Takes n f k] :
    Uses n (changeStack f) k where
  uses {b m _ m' t} ht hb h := by
    obtain ⟨id, stack, frames, caller, kind, state, module⟩ := t
    simp only [changeStack, ht] at h
    cases hs : f stack with
    | error e => simp [hs] at h
    | ok stack' =>
      rw [hs] at h
      cases h
      obtain ⟨hbelow, hb'⟩ := hf.below b _ _ hb hs
      exact ⟨_, rfl, ⟨rfl, .refl _, hbelow⟩, hb'⟩

instance (v : Value) : Uses n (push v) (n + 1) := by
  unfold push
  infer_instance

instance (v : Value) : Uses (n + 1) (poke 0 v) (n + 1) := by
  unfold poke
  infer_instance

instance (v : Value) : Uses (n + 3) (poke 2 v) (n + 3) := by
  unfold poke
  infer_instance

instance (count : Nat) (v : Value) : Uses count (replaceTop count v) 1 := by
  unfold replaceTop
  infer_instance

instance : Uses (n + 1) pop n where
  uses {b m _ m' t} ht hb h := by
    obtain ⟨id, stack, frames, caller, kind, state, module⟩ := t
    simp only [pop, ht] at h
    cases hs : stack.pop with
    | error e => simp [hs] at h
    | ok p =>
      rw [hs] at h
      cases h
      obtain ⟨hbelow, hsize⟩ := OperandStack.sameBelow_pop (b := b + n) hs (by omega)
      refine ⟨_, rfl, ⟨rfl, .refl _, hbelow.mono (Nat.le_add_right ..)⟩, ?_⟩
      dsimp only at hb ⊢
      omega

/-! ## Code -/

instance : Uses n readByte n where
  uses {b m _ m' t} ht hb h := by
    obtain ⟨id, stack, _ | ⟨f, rest⟩, caller, kind, state, module⟩ := t
    · simp [readByte, ht] at h
    · simp only [readByte, ht] at h
      split at h
      · cases h
      · cases h
        exact ⟨_, rfl, ⟨rfl, .cons f (f.ip + 1) rest, .refl ..⟩, hb⟩

instance : Uses n readShort n := by
  unfold readShort
  exact .parts

instance : Uses n readCount n := by
  unfold readCount
  exact .parts

instance : Uses n readIndex n := by
  unfold readIndex
  exact .parts

instance : Uses n readName n := by
  unfold readName
  exact .parts

instance (target : Nat) : Uses n (jumpTo target) n where
  uses {b m _ m' t} ht hb h := by
    obtain ⟨f, m₁, hf, hjump⟩ := bind_eq_ok h
    obtain ⟨rfl, t', rest, ht', hframes⟩ := frame_eq_ok hf
    rw [ht, Option.some.injEq] at ht'
    subst ht'
    split at hjump
    · simp only [changeFiber, ht] at hjump
      cases hjump
      refine ⟨_, rfl, ⟨rfl, ?_, .refl ..⟩, hb⟩
      rw [hframes]
      exact .cons f target rest
    · cases hjump

instance (distance : Nat) : Uses n (jumpForward distance) n := by
  unfold jumpForward
  exact .parts

instance (distance : Nat) : Uses n (jumpBack distance) n := by
  unfold jumpBack
  exact .parts

/-! ## Instructions -/

instance (f : Value → Except Fault Value) : Uses 1 (unary f) 1 := by
  unfold unary
  exact .parts

instance (f : Value → Value → Act Value) [hf : ∀ a b, Makes SameRunning (f a b)] :
    Uses 2 (binary f) 1 := by
  unfold binary
  exact .parts

instance (index : Nat) : Uses 0 (loadConstant index) 1 := by
  unfold loadConstant
  exact .parts

instance : Uses 0 pushGlobal 1 := by
  unfold pushGlobal
  exact .parts

instance (exports : Bool) : Uses 1 (popGlobal exports) 0 := by
  unfold popGlobal
  exact .parts

instance : Uses n setGlobal n := by
  unfold setGlobal
  exact .parts

instance : Uses n localIndex n := by
  unfold localIndex
  exact .parts

instance : Uses 0 pushLocal 1 := by
  unfold pushLocal
  exact .parts

instance : Uses n branchIfFalse n := by
  unfold branchIfFalse
  exact .parts

instance (count : Nat) : Uses count (createList count) 1 := by
  unfold createList
  exact .parts

instance (count : Nat) : Uses count (interpolate count) 1 := by
  unfold interpolate
  exact .parts

instance : Uses 3 writeItem 1 := by
  unfold writeItem
  exact .parts

instance : Uses 3 createSlice 1 := by
  unfold createSlice
  exact .parts

instance : Uses 0 createClass 1 := by
  unfold createClass
  exact .parts

instance : Uses 1 getProperty 1 := by
  unfold getProperty
  exact .parts

instance : Uses 2 assignProperty 1 := by
  unfold assignProperty
  exact .parts

instance (name : Handle) : Uses 2 (defineMethod name) 1 := by
  unfold defineMethod
  exact .parts

instance : Uses 3 iterate 3 := by
  unfold iterate
  exact .parts

end Machine

/-! ## What an instruction finds in its code -/

namespace Opcode

/-- The number of operands that an instruction takes, given the number in its code. -/
def takes (op : Opcode) (count : Nat) : Nat :=
  match op with
  | .ret | .negate | .not | .increment | .decrement | .pop | .defineGlobal | .exportGlobal
  | .setGlobal | .setLocal | .jumpIfFalse | .getProperty | .await => 1
  | .add | .subtract | .multiply | .divide | .power | .modulo | .equal | .greater | .less
  | .subscriptRead | .createRange | .setProperty | .method => 2
  | .subscriptWrite | .sliceArray | .iterate => 3
  | .createList | .interpolate => count
  | .call | .invoke => count + 1
  | .constant | .constantLong | .pushFalse | .pushTrue | .pushNil | .getGlobal | .getLocal
  | .jump | .loop | .newClass | .raise | .importModule | .importModuleAs => 0

/-- Whether an instruction neither calls nor returns nor hands over to another fiber. -/
def isLocal : Opcode → Bool
  | .ret | .call | .invoke | .await | .importModule | .importModuleAs => false
  | _ => true

end Opcode

namespace Frame

def skip (k : Nat) (f : Frame) : Frame := { f with ip := f.ip + k }

/-- The opcode that a frame comes to. -/
def opcode? (f : Frame) : Option Opcode := f.chunk.code[f.ip]?.bind Opcode.ofByte?

def byteAt (f : Frame) (offset : Nat) : Nat :=
  (f.chunk.code[f.ip + offset]?.map UInt8.toNat).getD 0

def shortAt (f : Frame) (offset : Nat) : Nat :=
  ((decodeShort? f.chunk.code (f.ip + offset)).map UInt16.toNat).getD 0

/-- The number of operands that stands in the code of an instruction. -/
def count (f : Frame) (op : Opcode) : Nat :=
  match op with
  | .call | .interpolate => f.byteAt 1
  | .createList => f.shortAt 1
  | .invoke => f.byteAt 3
  | _ => 0

end Frame

/-- A fiber with its innermost frame some bytes further on. -/
def Running.skip (k : Nat) (t : Running) : Running :=
  { t with fiber := { t.fiber with frames := t.fiber.frames.modifyHead (Frame.skip k) } }

@[simp] theorem Running.frames_skip (k : Nat) (t : Running) :
    (t.skip k).fiber.frames = t.fiber.frames.modifyHead (Frame.skip k) := rfl

theorem Running.frames_skip_cons {t : Running} {f : Frame} {rest : List Frame}
    (hf : t.fiber.frames = f :: rest) (k : Nat) : (t.skip k).fiber.frames = f.skip k :: rest := by
  rw [frames_skip, hf, List.modifyHead_cons]

@[simp] theorem Running.skip_skip (j k : Nat) (t : Running) :
    (t.skip j).skip k = t.skip (j + k) := by
  obtain ⟨id, stack, _ | ⟨f, rest⟩, caller, kind, state, module⟩ := t
  · rfl
  · simp [skip, Frame.skip, Nat.add_assoc]

namespace Machine

open Running (Goes)

variable {m m' : Machine} {b k : Nat} {t : Running} {f : Frame}

/-- The machine with the running frame some bytes further on. -/
def skip (k : Nat) (m : Machine) : Machine :=
  { m with running := m.running.map (Running.skip k) }

def frame? (m : Machine) : Option Frame := m.running.bind fun t => t.fiber.frames.head?

@[simp] theorem frame?_skip (k : Nat) (m : Machine) :
    (m.skip k).frame? = m.frame?.map (Frame.skip k) := by
  simp only [frame?, skip]
  cases m.running with
  | none => rfl
  | some t => cases hf : t.fiber.frames <;> simp [hf]

@[simp] theorem skip_skip (j k : Nat) (m : Machine) : (m.skip j).skip k = m.skip (j + k) := by
  simp only [skip, Option.map_map]
  congr 2
  exact funext fun t => t.skip_skip j k

theorem readByte_eq_ok {byte : UInt8} (h : readByte m = .ok byte m') :
    m' = m.skip 1 ∧ ∃ f, m.frame? = some f ∧ f.chunk.code[f.ip]? = some byte := by
  obtain ⟨heap, config, globals, modules, loading, running, root, ready, events, timers, host,
    library, methods, exported⟩ := m
  obtain _ | ⟨id, stack, _ | ⟨f, rest⟩, caller, kind, state, module⟩ := running
  · cases h
  · cases h
  · simp only [readByte] at h
    split at h
    · cases h
    · cases h
      exact ⟨rfl, f, rfl, by assumption⟩

theorem readCount_eq_ok {count : Nat} (h : readCount m = .ok count m') :
    m' = m.skip 1 ∧ ∃ f, m.frame? = some f ∧ f.byteAt 0 = count := by
  obtain ⟨byte, m₁, hbyte, h⟩ := bind_eq_ok h
  obtain ⟨rfl, f, hf, hcode⟩ := readByte_eq_ok hbyte
  cases h
  exact ⟨rfl, f, hf, by simp [Frame.byteAt, hcode]⟩

theorem readIndex_eq_ok {index : Nat} (h : readIndex m = .ok index m') :
    m' = m.skip 2 ∧ ∃ f, m.frame? = some f ∧ f.shortAt 0 = index := by
  obtain ⟨short, m₁, hshort, h⟩ := bind_eq_ok h
  obtain ⟨high, m₂, hhigh, hshort⟩ := bind_eq_ok hshort
  obtain ⟨low, m₃, hlow, hshort⟩ := bind_eq_ok hshort
  obtain ⟨rfl, f, hf, hcode⟩ := readByte_eq_ok hhigh
  obtain ⟨rfl, f', hf', hcode'⟩ := readByte_eq_ok hlow
  cases hshort
  cases h
  rw [frame?_skip, hf, Option.map_some, Option.some.injEq] at hf'
  subst hf'
  refine ⟨skip_skip .., f, hf, ?_⟩
  have hcode'' : f.chunk.code[f.ip + 1]? = some low := hcode'
  simp [Frame.shortAt, decodeShort?, hcode, hcode'']

theorem constant_eq_ok {index : Nat} {v : Value} (h : constant index m = .ok v m') : m' = m := by
  obtain ⟨f, m₁, hf, hv⟩ := bind_eq_ok h
  obtain ⟨rfl, -⟩ := frame_eq_ok hf
  cases hc : f.chunk.constants[index]? <;> simp only [hc] at hv <;> cases hv
  rfl

theorem readName_eq_ok {name : Handle} (h : readName m = .ok name m') : m' = m.skip 2 := by
  obtain ⟨index, m₁, hindex, hname⟩ := bind_eq_ok h
  obtain ⟨rfl, -⟩ := readIndex_eq_ok hindex
  obtain ⟨v, m₂, hv, hname⟩ := bind_eq_ok hname
  obtain rfl := constant_eq_ok hv
  obtain ⟨_, _, hm, hname⟩ := bind_eq_ok hname
  cases hm
  cases hr : v.toHandle? with
  | none => simp only [hr] at hname; cases hname
  | some r =>
    cases hk : (m.skip 2).heap.kindOf? v with
    | none => simp only [hr, hk] at hname; cases hname
    | some kind =>
      cases kind <;> simp only [hr, hk] at hname <;> cases hname
      rfl

theorem instruction_eq_ok {host : HostFunctions} (h : instruction host m = .ok () m') :
    ∃ f op, m.frame? = some f ∧ f.opcode? = some op ∧ execute host op (m.skip 1) = .ok () m' := by
  obtain ⟨byte, m₁, hbyte, h⟩ := bind_eq_ok h
  obtain ⟨rfl, f, hf, hcode⟩ := readByte_eq_ok hbyte
  cases hop : Opcode.ofByte? byte with
  | none => simp only [hop] at h; cases h
  | some op =>
    simp only [hop] at h
    exact ⟨f, op, hf, by simp [Frame.opcode?, hcode, hop], h⟩

/-- What an instruction does once its opcode is read. -/
theorem execute_of_instruction {host : HostFunctions} {op : Opcode} (hf : m.frame? = some f)
    (hop : f.opcode? = some op) (h : instruction host m = .ok () m') :
    execute host op (m.skip 1) = .ok () m' := by
  obtain ⟨f', op', hf', hop', h⟩ := instruction_eq_ok h
  cases hf.symm.trans hf'
  cases hop.symm.trans hop'
  exact h

/-! ## Families of instructions -/

section Families

variable (op : Opcode) (count : Nat)

theorem uses_arithmetic : ∃ k, Uses (op.takes count) (arithmetic op) k := by
  unfold arithmetic strange
  split
  all_goals try dsimp only [Opcode.takes]
  all_goals exact ⟨_, inferInstance⟩

theorem uses_comparison : ∃ k, Uses (op.takes count) (comparison op) k := by
  unfold comparison strange
  split
  all_goals try dsimp only [Opcode.takes]
  all_goals exact ⟨_, inferInstance⟩

theorem uses_bindings (hop : op ≠ .setLocal) : ∃ k, Uses (op.takes count) (bindings op) k := by
  unfold bindings strange
  split
  case h_12 => exact absurd rfl hop
  all_goals try dsimp only [Opcode.takes]
  all_goals first
    | exact ⟨_, inferInstance⟩
    | exact ⟨_, .bind inferInstance fun _ => inferInstance⟩

theorem uses_control (hop : op ≠ .ret) : ∃ k, Uses (op.takes count) (control op) k := by
  unfold control strange
  split
  case h_4 => exact absurd rfl hop
  all_goals try dsimp only [Opcode.takes]
  all_goals first
    | exact ⟨_, inferInstance⟩
    | exact ⟨_, .bind inferInstance fun _ => inferInstance⟩

theorem uses_collections (hop : op ≠ .createList) :
    ∃ k, Uses (op.takes count) (collections op) k := by
  unfold collections strange
  split
  case h_1 => exact absurd rfl hop
  all_goals try dsimp only [Opcode.takes]
  all_goals exact ⟨_, inferInstance⟩

theorem uses_objects : ∃ k, Uses (op.takes count) (objects op) k := by
  unfold objects strange
  split
  all_goals try dsimp only [Opcode.takes]
  all_goals first
    | exact ⟨_, inferInstance⟩
    | exact ⟨_, .bind inferInstance fun _ => inferInstance⟩

theorem uses_iterators : ∃ k, Uses (op.takes count) (iterators op) k := by
  unfold iterators strange
  split
  all_goals try dsimp only [Opcode.takes]
  all_goals exact ⟨_, inferInstance⟩

end Families

variable {host : HostFunctions} {rest : List Frame}

theorem running_skip (ht : m.running = some t) : (m.skip k).running = some (t.skip k) := by
  rw [skip, ht]
  rfl

theorem goes_skip (ht : m.running = some t) (hf : t.fiber.frames = f :: rest) (b : Nat) :
    ∃ t₁, (m.skip k).running = some t₁ ∧ Goes b t t₁ ∧ t₁.fiber.stack = t.fiber.stack := by
  refine ⟨t.skip k, running_skip ht, ⟨rfl, ?_, .refl ..⟩, rfl⟩
  rw [Running.frames_skip_cons hf, hf]
  exact .cons f (f.ip + k) rest

/-- An assignment to a local slot that is not below the level. -/
theorem goes_setLocal (ht : m.running = some t) (hf : t.fiber.frames = f :: rest)
    (hb : b ≤ f.base + f.shortAt 0) (hsize : b ≤ t.fiber.stack.size) (h : setLocal m = .ok () m') :
    ∃ t', m'.running = some t' ∧ Goes b t t' := by
  obtain ⟨index, m₁, hindex, hset⟩ := bind_eq_ok h
  obtain ⟨slot, m₂, hslot, hbase⟩ := bind_eq_ok hindex
  obtain ⟨-, f₀, hf₀, rfl⟩ := readIndex_eq_ok hslot
  have hsame : f = f₀ := by simpa [frame?, ht, hf] using hf₀
  subst hsame
  obtain ⟨t₂, ht₂, hg, hsize₂⟩ := (inferInstance : Uses 0 readIndex 0).uses ht hsize hslot
  obtain ⟨f', m₃, hframe, hbase⟩ := bind_eq_ok hbase
  obtain ⟨rfl, t', rest', ht', hf'⟩ := frame_eq_ok hframe
  rw [ht₂, Option.some.injEq] at ht'
  subst ht'
  obtain ⟨ip, hip⟩ := (hf ▸ hg.frames).exists_ip
  obtain ⟨rfl, -⟩ := List.cons.inj (hf'.symm.trans hip)
  cases hbase
  obtain ⟨v, m₄, hv, hset⟩ := bind_eq_ok hset
  obtain ⟨t₄, ht₄, hg₄, -⟩ := (inferInstance : Uses 0 (peek 0) 0).uses ht₂ hsize₂ hv
  obtain ⟨id, stack, frames, caller, kind, state, module⟩ := t₄
  simp only [changeStack, ht₄] at hset
  cases hs : stack.set? (f.base + f.shortAt 0) v with
  | none => simp [hs] at hset
  | some stack' =>
    simp only [hs, Option.elim_some] at hset
    cases hset
    have hbelow := OperandStack.sameBelow_set? hs hb
    exact ⟨_, rfl, (hg.trans hg₄).trans ⟨rfl, .refl _, hbelow⟩⟩

/-- What follows the bytes of an instruction finds the operands as they were. -/
theorem goes_of_uses {x : Act Unit} {n : Nat} (hx : ∃ k, Uses n x k) (ht : m.running = some t)
    (hf : t.fiber.frames = f :: rest) (hb : b + n ≤ t.fiber.stack.size)
    (h : x (m.skip k) = .ok () m') : ∃ t', m'.running = some t' ∧ Goes b t t' := by
  obtain ⟨j, huses⟩ := hx
  obtain ⟨t₁, ht₁, hg, hstack⟩ := goes_skip (k := k) ht hf b
  obtain ⟨t', ht', hg', -⟩ := huses.uses ht₁ (hstack ▸ hb) h
  exact ⟨t', ht', hg.trans hg'⟩

theorem frame?_eq_some (ht : m.running = some t) (hf : t.fiber.frames = f :: rest) :
    m.frame? = some f := by
  simp [frame?, ht, hf]

/-- Only a fiber that runs has a frame. -/
theorem isSome_running (h : m.frame? = some f) : m.running.isSome := by
  cases hm : m.running with
  | none => simp [frame?, hm] at h
  | some t => rfl

theorem scope_eq_ok {scope : Option Handle} (h : Machine.scope m = .ok scope m') :
    m' = m ∧ ∃ f, m.frame? = some f ∧ f.scope = scope := by
  obtain ⟨f, m₁, hframe, hscope⟩ := bind_eq_ok h
  obtain ⟨rfl, t, rest, ht, hframes⟩ := frame_eq_ok hframe
  cases hscope
  exact ⟨rfl, f, frame?_eq_some ht hframes, rfl⟩

theorem readIndex_skip (ht : m.running = some t) (hf : t.fiber.frames = f :: rest) {index : Nat}
    (h : readIndex (m.skip k) = .ok index m') : m' = m.skip (k + 2) ∧ f.shortAt k = index := by
  obtain ⟨rfl, f', hf', rfl⟩ := readIndex_eq_ok h
  rw [frame?_skip, frame?_eq_some ht hf, Option.map_some, Option.some.injEq] at hf'
  subst hf'
  exact ⟨skip_skip .., rfl⟩

theorem readCount_skip (ht : m.running = some t) (hf : t.fiber.frames = f :: rest) {count : Nat}
    (h : readCount (m.skip k) = .ok count m') : m' = m.skip (k + 1) ∧ f.byteAt k = count := by
  obtain ⟨rfl, f', hf', rfl⟩ := readCount_eq_ok h
  rw [frame?_skip, frame?_eq_some ht hf, Option.map_some, Option.some.injEq] at hf'
  subst hf'
  exact ⟨skip_skip .., rfl⟩

/-- A local instruction goes on in its frame. -/
theorem goes_execute {op : Opcode} (ht : m.running = some t) (hf : t.fiber.frames = f :: rest)
    (hassign : op = .setLocal → b ≤ f.base + f.shortAt 1)
    (hb : b + op.takes (f.count op) ≤ t.fiber.stack.size) (hlocal : op.isLocal)
    (h : execute host op (m.skip 1) = .ok () m') :
    ∃ t', m'.running = some t' ∧ Goes b t t' := by
  have huses : ∀ {x : Act Unit}, x (m.skip 1) = .ok () m' →
      (∃ k, Uses (op.takes (f.count op)) x k) → ∃ t', m'.running = some t' ∧ Goes b t t' :=
    fun hx hu => goes_of_uses hu ht hf hb hx
  cases op with
  | ret | call | invoke | await | importModule | importModuleAs => cases hlocal
  | setLocal =>
    have hf₁ := Running.frames_skip_cons hf 1
    have hsize : b ≤ (t.skip 1).fiber.stack.size := Nat.le_trans (Nat.le_add_right ..) hb
    have hskip : Goes b t (t.skip 1) := ⟨rfl, by rw [hf₁, hf]; exact .cons f _ rest, .refl ..⟩
    obtain ⟨t', ht', hg'⟩ := goes_setLocal (running_skip ht) hf₁ (hassign rfl) hsize h
    exact ⟨t', ht', hskip.trans hg'⟩
  | createList =>
    obtain ⟨count, m₁, hcount, hlist⟩ := bind_eq_ok (x := readIndex) h
    obtain ⟨rfl, rfl⟩ := readIndex_skip ht hf hcount
    exact goes_of_uses (n := f.shortAt 1) ⟨1, inferInstance⟩ ht hf hb hlist
  | interpolate =>
    obtain ⟨count, m₁, hcount, htext⟩ := bind_eq_ok (x := readCount) h
    obtain ⟨rfl, rfl⟩ := readCount_skip ht hf hcount
    exact goes_of_uses (n := f.byteAt 1) ⟨1, inferInstance⟩ ht hf hb htext
  | negate | add | subtract | multiply | divide | power | modulo | increment | decrement =>
    exact huses h (uses_arithmetic ..)
  | not | equal | less | greater => exact huses h (uses_comparison ..)
  | constant | constantLong | pushNil | pushTrue | pushFalse | pop | defineGlobal | exportGlobal
  | getGlobal | setGlobal | getLocal => exact huses h (uses_bindings _ _ nofun)
  | jump | jumpIfFalse | loop | raise => exact huses h (uses_control _ _ nofun)
  | subscriptRead | subscriptWrite | sliceArray | createRange =>
    exact huses h (uses_collections _ _ nofun)
  | newClass | getProperty | setProperty | method => exact huses h (uses_objects ..)
  | iterate => exact huses h (uses_iterators ..)

end Machine

end FiberMachine
