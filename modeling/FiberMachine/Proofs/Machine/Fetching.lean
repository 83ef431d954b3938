import FiberMachine.Proofs.Code.Rows
import FiberMachine.Proofs.Machine.Operands

/-!
# Instructions and their rows

What an instruction reads behind its opcode is what its row in a listing shows: the numbers of
its code, and the constants at the indices among them. With these it is performed by the frame
behind its row, without another look at the code.
-/

namespace FiberMachine

open Listing (Row Shown rowAt shownAt)

/-- Whether the constant of an instruction may be any value; for the others it is a name. -/
def Opcode.loads : Opcode → Bool
  | .constant | .constantLong => true
  | _ => false

namespace Machine

/-- What an instruction gets from its code and its constants. -/
inductive Inputs where
  | nothing
  | number (n : Nat)
  | constant (v : Value)
  | name (name : Handle)
  | pair (name other : Handle)
  | member (name : Handle) (argc : Nat)

section Perform

variable (host : HostFunctions)

def defineGlobal (exports : Bool) (name : Handle) : Act Unit := do
  let v ← pop
  define (← scope) name v
  if exports then recordExport name

def getLocal (slot : Nat) : Act Unit := do
  let index := (← frame).base + slot
  match (← fiber).stack.get? index with
  | some v => push v
  | none => throw (.malformed (.localSlot index))

def assignLocal (slot : Nat) : Act Unit := do
  let index := (← frame).base + slot
  let v ← peek 0
  changeStack fun stack => (stack.set? index v).elim (.error (.malformed (.localSlot index))) .ok

def leaveLoop (exit : Nat) : Act Unit := do
  let sequence ← peek 1
  let cursor ← peek 0
  match ← (← get).heap.nextItem sequence cursor with
  | some (item, next) =>
    poke 2 item
    poke 0 next
  | none => jumpForward exit

def writeProperty (name : Handle) : Act Unit := do
  let v ← pop
  let target ← pop
  setField "property assignment" target name v
  push v

/-- What an instruction does with what it got. One without operands gets nothing. -/
def perform : Opcode → Inputs → Act Unit
  | op, .nothing => if op.layout = .none then execute host op else strange "inputs"
  | .constant, .constant v | .constantLong, .constant v => push v
  | .call, .number argc => do callValue host (← peek argc) argc
  | .createList, .number count => createList count
  | .interpolate, .number count => interpolate count
  | .getLocal, .number slot => getLocal slot
  | .setLocal, .number slot => assignLocal slot
  | .jump, .number distance => jumpForward distance
  | .jumpIfFalse, .number distance => do if (← peek 0).isFalsey then jumpForward distance
  | .loop, .number distance => jumpBack distance
  | .iterate, .number distance => leaveLoop distance
  | .defineGlobal, .name name => defineGlobal false name
  | .exportGlobal, .name name => defineGlobal true name
  | .getGlobal, .name name => do push (← global name)
  | .setGlobal, .name name => do assignGlobal name (← peek 0)
  | .newClass, .name name => do push (.ofHandle (← alloc (.classObject name)))
  | .getProperty, .name name => do poke 0 (← property (← peek 0) name)
  | .setProperty, .name name => writeProperty name
  | .method, .name name => defineMethod name
  | .importModule, .name name => importModule name none
  | .importModuleAs, .pair name other => importModule name (some other)
  | .invoke, .member name argc => invoke host name argc
  | _, _ => strange "inputs"

end Perform

/-- Reads what the layout of an instruction calls for. -/
def fetch (op : Opcode) : Act Inputs :=
  match op.layout with
  | .none => return .nothing
  | .byte => do
    let n ← readCount
    if op.loads then return .constant (← constant n) else return .number n
  | .short =>
    if op.loads then do return .constant (← constant (← readIndex))
    else if op.namesConstant then do return .name (← readName)
    else do return .number (← readIndex)
  | .jump => do return .number (← readIndex)
  | .shortShort => do
    let name ← readName
    return .pair name (← readName)
  | .shortByte => do
    let name ← readName
    return .member name (← readCount)

/-- The operands that an instruction reads are those of its layout. -/
theorem execute_eq (host : HostFunctions) (op : Opcode) :
    execute host op = fetch op >>= perform host op := by
  cases op with
  | constant | constantLong =>
    simp [execute, bindings, loadConstant, fetch, Opcode.layout, Opcode.loads, perform]
  | call | invoke =>
    simp [execute, functions, call, callMember, fetch, Opcode.layout, Opcode.loads, perform]
  | defineGlobal | exportGlobal | getGlobal | setGlobal | setLocal =>
    simp [execute, bindings, popGlobal, pushGlobal, setGlobal, setLocal, localIndex, fetch,
      Opcode.layout, Opcode.loads, Opcode.namesConstant, perform, defineGlobal, assignLocal]
  | getLocal =>
    have hread : fetch .getLocal >>= perform host .getLocal = readIndex >>= getLocal := by
      simp [fetch, Opcode.layout, Opcode.loads, Opcode.namesConstant, perform]
    rw [hread]
    exact (bind_assoc readIndex _ _).trans
      (bind_congr fun n => (bind_assoc frame _ _).trans (bind_congr fun f => pure_bind _ _))
  | jump | jumpIfFalse | loop =>
    simp [execute, control, branchIfFalse, fetch, Opcode.layout, perform]
  | iterate =>
    have hread : fetch .iterate >>= perform host .iterate = readIndex >>= leaveLoop := by
      simp [fetch, Opcode.layout, perform]
    exact hread.symm
  | createList | interpolate =>
    simp [execute, collections, strings, fetch, Opcode.layout, Opcode.loads, Opcode.namesConstant,
      perform]
  | newClass | getProperty | setProperty | method =>
    simp [execute, objects, createClass, getProperty, assignProperty, fetch, Opcode.layout,
      Opcode.loads, Opcode.namesConstant, perform, writeProperty]
  | importModule | importModuleAs =>
    simp [execute, imports, fetch, Opcode.layout, Opcode.loads, Opcode.namesConstant, perform]
  | _ => rfl

end Machine

/-! ## What a row gives an instruction -/

namespace Chunk

def constantAt (c : Chunk) (index : Nat) : Except Fault Value :=
  match c.constants[index]? with
  | some v => .ok v
  | none => .error (.unknownConstant index)

def nameAt (h : Heap) (c : Chunk) (index : Nat) : Except Fault Handle := do
  let v ← c.constantAt index
  match v.toHandle?, h.kindOf? v with
  | some r, some .text => return r
  | _, _ => throw (.malformed (.notName index))

end Chunk

open Machine (Inputs)

/-- What an instruction gets from its row: the numbers in it, and the constants at its indices. -/
def Listing.Shown.inputs (h : Heap) (c : Chunk) (op : Opcode) : Shown → Except Fault Inputs
  | .nothing => return .nothing
  | .number n => return .number n
  | .constant index =>
    if op.loads then return .constant (← c.constantAt index)
    else return .name (← c.nameAt h index)
  | .jump distance _ => return .number distance
  | .pair name other => return .pair (← c.nameAt h name) (← c.nameAt h other)
  | .member name argc => return .member (← c.nameAt h name) argc

namespace Machine

variable {m m' : Machine} {f : Frame} {k : Nat}

theorem exists_running_of_frame? (hf : m.frame? = some f) :
    ∃ t rest, m.running = some t ∧ t.fiber.frames = f :: rest := by
  simp only [frame?, Option.bind_eq_some_iff, List.head?_eq_some_iff] at hf
  obtain ⟨t, ht, rest, hrest⟩ := hf
  exact ⟨t, rest, ht, hrest⟩

theorem readByte_skip (hf : m.frame? = some f) (k : Nat) : readByte (m.skip k) =
    match f.chunk.code[f.ip + k]? with
    | some byte => .ok byte (m.skip (k + 1))
    | none => .error (.malformed .endOfCode) (m.skip k) := by
  obtain ⟨t, rest, ht, hframes⟩ := exists_running_of_frame? hf
  obtain ⟨heap, config, globals, modules, loading, running, root, ready, events, timers, host,
    library, methods, exported⟩ := m
  obtain ⟨id, stack, frames, caller, kind, state, module⟩ := t
  cases ht
  cases hframes
  simp only [readByte, skip, Option.map_some, Running.skip, List.modifyHead_cons, Frame.skip]
  split <;> rename_i hbyte <;> simp only [hbyte, Nat.add_assoc]

theorem readCount_within (hf : m.frame? = some f) (hk : f.ip + k + 1 ≤ f.chunk.code.size) :
    readCount (m.skip k) = .ok (f.byteAt k) (m.skip (k + 1)) := by
  have hbyte : f.chunk.code[f.ip + k]? = some f.chunk.code[f.ip + k] :=
    Array.getElem?_eq_getElem hk
  have hread := readByte_skip hf k
  simp only [hbyte] at hread
  simp [readCount, bind_apply, hread, pure_apply, Frame.byteAt, hbyte]

theorem readIndex_within (hf : m.frame? = some f) (hk : f.ip + k + 2 ≤ f.chunk.code.size) :
    readIndex (m.skip k) = .ok (f.shortAt k) (m.skip (k + 2)) := by
  have hhigh : f.chunk.code[f.ip + k]? = some f.chunk.code[f.ip + k] :=
    Array.getElem?_eq_getElem (by omega)
  have hlow : f.chunk.code[f.ip + (k + 1)]? = some f.chunk.code[f.ip + (k + 1)] :=
    Array.getElem?_eq_getElem (by omega)
  have hread := readByte_skip hf k
  have hread' := readByte_skip hf (k + 1)
  simp only [hhigh] at hread
  simp only [hlow] at hread'
  simp only [readIndex, readShort, bind_apply, hread, hread', pure_apply, Frame.shortAt,
    decodeShort?, hhigh, Nat.add_assoc, hlow, Option.map_some, Option.getD_some]

theorem Frame.shortAt_eq (f : Frame) (k : Nat) :
    f.shortAt k = Listing.shortAt f.chunk.code (f.ip + k) := by
  rw [Frame.shortAt, Listing.shortAt]
  cases decodeShort? f.chunk.code (f.ip + k) <;> rfl

/-- An action ends as a computation says, and when it succeeds then in a given state. -/
def EndsAs {α : Type} (r : EStateM.Result Fault Machine α) (e : Except Fault α) (m' : Machine) :
    Prop :=
  match e with
  | .ok a => r = .ok a m'
  | .error fault => ∃ m₁, r = .error fault m₁

theorem EndsAs.bind {α β : Type} {x : Act α} {g : α → Act β} {e : Except Fault α}
    {g' : α → Except Fault β} {m₁ : Machine} (hx : EndsAs (x m) e m₁)
    (hg : ∀ a, EndsAs (g a m₁) (g' a) m') : EndsAs ((x >>= g) m) (e >>= g') m' := by
  rw [bind_apply]
  cases e with
  | ok a =>
    have hx : x m = .ok a m₁ := hx
    rw [hx]
    exact hg a
  | error fault =>
    obtain ⟨m₂, hx⟩ := hx
    rw [hx]
    exact ⟨m₂, rfl⟩

theorem endsAs_constant (hf : m.frame? = some f) (index : Nat) :
    EndsAs (constant index (m.skip k)) (f.chunk.constantAt index) (m.skip k) := by
  obtain ⟨t, rest, ht, hframes⟩ :=
    exists_running_of_frame? (m := m.skip k) (by rw [frame?_skip, hf]; rfl)
  simp only [constant, bind_apply, frame, fiber, ht, hframes, pure_apply, Chunk.constantAt,
    Frame.skip]
  cases f.chunk.constants[index]? with
  | none => exact ⟨_, rfl⟩
  | some v => rfl

theorem endsAs_readName (hf : m.frame? = some f) (hk : f.ip + k + 2 ≤ f.chunk.code.size) :
    EndsAs (readName (m.skip k)) (f.chunk.nameAt m.heap (f.shortAt k)) (m.skip (k + 2)) := by
  simp only [readName, bind_apply _ _ (m.skip k), readIndex_within hf hk]
  refine .bind (endsAs_constant hf _) fun v => ?_
  simp only [bind_apply, get_apply]
  have hheap : (m.skip (k + 2)).heap = m.heap := rfl
  rw [hheap]
  cases hr : v.toHandle? with
  | none => exact ⟨_, rfl⟩
  | some r =>
    cases m.heap.kindOf? v with
    | none => exact ⟨_, rfl⟩
    | some kind =>
      cases kind with
      | text => rfl
      | _ => exact ⟨_, rfl⟩

theorem Opcode.loads_iff_of_byte {op : Opcode} (h : op.layout = .byte) :
    op.loads = true ↔ op = .constant := by
  cases op <;> simp_all [Opcode.layout, Opcode.loads]

theorem Opcode.namesConstant_of_loads {op : Opcode} (h : op.loads = true) :
    op.namesConstant = true := by
  cases op <;> simp_all [Opcode.loads, Opcode.namesConstant]

/-- What an instruction reads is what its row gives. -/
theorem endsAs_fetch {op : Opcode} {shown : Shown} (hf : m.frame? = some f)
    (hrow : rowAt f.chunk.code f.ip = .instruction op shown) :
    EndsAs (fetch op (m.skip 1)) (shown.inputs m.heap f.chunk op) (m.skip op.size) := by
  obtain ⟨hsize, rfl⟩ := Listing.within_of_rowAt hrow
  have hwidth : op.size = 1 + op.layout.width := rfl
  simp only [fetch, shownAt, ← Frame.shortAt_eq, Nat.add_assoc]
  cases hl : op.layout <;> rw [hl, Layout.width] at hwidth <;> dsimp only <;> rw [hwidth] at hsize ⊢
  case none => rfl
  case byte =>
    rw [bind_apply, readCount_within hf hsize]
    by_cases hop : op.loads
    · have hc : op = .constant := (Opcode.loads_iff_of_byte hl).mp hop
      simp only [hc, ↓reduceIte, Shown.inputs]
      exact (endsAs_constant hf _).bind fun v => rfl
    · have hc : op ≠ .constant := fun h => hop ((Opcode.loads_iff_of_byte hl).mpr h)
      simp only [hop, hc, ↓reduceIte]
      rfl
  case short =>
    by_cases hop : op.loads
    · simp only [hop, Opcode.namesConstant_of_loads hop, ↓reduceIte, Shown.inputs]
      rw [bind_apply, readIndex_within hf hsize]
      exact (endsAs_constant hf _).bind fun v => rfl
    · by_cases hname : op.namesConstant
      · simp only [hop, hname, ↓reduceIte, Bool.false_eq_true, Shown.inputs]
        exact (endsAs_readName hf hsize).bind fun name => rfl
      · simp only [hop, hname, ↓reduceIte, Bool.false_eq_true]
        rw [bind_apply, readIndex_within hf hsize]
        rfl
  case jump =>
    rw [bind_apply, readIndex_within hf (by omega)]
    rfl
  case shortShort =>
    simp only [Shown.inputs]
    refine (endsAs_readName (k := 1) hf (by omega)).bind fun name => ?_
    exact (endsAs_readName (k := 3) hf (by omega)).bind fun other => rfl
  case shortByte =>
    simp only [Shown.inputs]
    refine (endsAs_readName (k := 1) hf (by omega)).bind fun name => ?_
    rw [bind_apply, readCount_within hf (by omega)]
    rfl

/-! ### Reading ends with the code -/

theorem within_of_readByte {byte : UInt8} (hf : m.frame? = some f)
    (h : readByte (m.skip k) = .ok byte m') :
    f.ip + k + 1 ≤ f.chunk.code.size ∧ m' = m.skip (k + 1) := by
  rw [readByte_skip hf] at h
  cases hbyte : f.chunk.code[f.ip + k]? with
  | none => simp [hbyte] at h
  | some b =>
    simp only [hbyte] at h
    cases h
    exact ⟨(Array.getElem?_eq_some_iff.mp hbyte).1, rfl⟩

theorem within_of_readCount {n : Nat} (hf : m.frame? = some f)
    (h : readCount (m.skip k) = .ok n m') :
    f.ip + k + 1 ≤ f.chunk.code.size ∧ m' = m.skip (k + 1) := by
  obtain ⟨byte, m₁, hbyte, h⟩ := bind_eq_ok h
  cases h
  exact within_of_readByte hf hbyte

theorem within_of_readIndex {n : Nat} (hf : m.frame? = some f)
    (h : readIndex (m.skip k) = .ok n m') :
    f.ip + k + 2 ≤ f.chunk.code.size ∧ m' = m.skip (k + 2) := by
  obtain ⟨short, m₁, hshort, h⟩ := bind_eq_ok h
  obtain ⟨high, m₂, hhigh, hshort⟩ := bind_eq_ok hshort
  obtain ⟨low, m₃, hlow, hshort⟩ := bind_eq_ok hshort
  cases hshort
  cases h
  obtain ⟨-, rfl⟩ := within_of_readByte hf hhigh
  exact within_of_readByte hf hlow

theorem within_of_readName {name : Handle} (hf : m.frame? = some f)
    (h : readName (m.skip k) = .ok name m') :
    f.ip + k + 2 ≤ f.chunk.code.size ∧ m' = m.skip (k + 2) := by
  obtain ⟨index, m₁, hindex, -⟩ := bind_eq_ok h
  exact ⟨(within_of_readIndex hf hindex).1, (readName_eq_ok h).trans (skip_skip ..)⟩

theorem within_of_fetch {op : Opcode} {x : Inputs} (hf : m.frame? = some f)
    (hop : f.ip < f.chunk.code.size) (h : fetch op (m.skip 1) = .ok x m') :
    f.ip + op.size ≤ f.chunk.code.size := by
  have hwidth : op.size = 1 + op.layout.width := rfl
  simp only [fetch] at h
  cases hl : op.layout <;> rw [hl] at h <;> rw [hwidth, hl, Layout.width] <;> dsimp only at h
  case none => exact hop
  case byte =>
    obtain ⟨n, m₁, hn, -⟩ := bind_eq_ok h
    exact (within_of_readCount hf hn).1
  case short =>
    split at h
    · obtain ⟨n, m₁, hn, -⟩ := bind_eq_ok h
      exact (within_of_readIndex hf hn).1
    · split at h
      · obtain ⟨name, m₁, hname, -⟩ := bind_eq_ok h
        exact (within_of_readName hf hname).1
      · obtain ⟨n, m₁, hn, -⟩ := bind_eq_ok h
        exact (within_of_readIndex hf hn).1
  case jump =>
    obtain ⟨n, m₁, hn, -⟩ := bind_eq_ok h
    exact (within_of_readIndex hf hn).1
  case shortShort =>
    obtain ⟨name, m₁, hname, h⟩ := bind_eq_ok h
    obtain ⟨other, m₂, hother, -⟩ := bind_eq_ok h
    obtain ⟨-, rfl⟩ := within_of_readName hf hname
    exact (within_of_readName hf hother).1
  case shortByte =>
    obtain ⟨name, m₁, hname, h⟩ := bind_eq_ok h
    obtain ⟨argc, m₂, hargc, -⟩ := bind_eq_ok h
    obtain ⟨-, rfl⟩ := within_of_readName hf hname
    exact (within_of_readCount hf hargc).1

/-! ### Instructions -/

@[simp] theorem skip_zero (m : Machine) : m.skip 0 = m := by
  obtain ⟨heap, config, globals, modules, loading, running, root, ready, events, timers, host,
    library, methods, exported⟩ := m
  obtain _ | ⟨id, stack, _ | ⟨f, rest⟩, caller, kind, state, module⟩ := running <;> rfl

variable {host : HostFunctions}

theorem instruction_of_opcode {op : Opcode} (hf : m.frame? = some f)
    (hop : f.chunk.code[f.ip]?.bind Opcode.ofByte? = some op) :
    instruction host m = execute host op (m.skip 1) := by
  obtain ⟨byte, hbyte, hop⟩ := Option.bind_eq_some_iff.mp hop
  have hread := readByte_skip hf 0
  simp only [skip_zero, Nat.add_zero, hbyte] at hread
  simp only [instruction, bind_apply _ _ m, hread, hop]

/-- An instruction performs what its row shows, with the constants at the indices of the row,
and the frame is behind the row by then. It fails when there are no such constants. -/
theorem instruction_of_row {op : Opcode} {shown : Shown} (hf : m.frame? = some f)
    (hrow : rowAt f.chunk.code f.ip = .instruction op shown) :
    match shown.inputs m.heap f.chunk op with
    | .ok x => instruction host m = perform host op x (m.skip op.size)
    | .error fault => ∃ m', instruction host m = .error fault m' := by
  have hfetch := endsAs_fetch hf hrow
  rw [instruction_of_opcode hf (Listing.opcode_of_rowAt hrow), execute_eq, bind_apply]
  cases hx : shown.inputs m.heap f.chunk op with
  | ok x =>
    rw [hx] at hfetch
    have hfetch : fetch op (m.skip 1) = .ok x (m.skip op.size) := hfetch
    simp only [hfetch]
  | error fault =>
    rw [hx] at hfetch
    obtain ⟨m₁, hfetch⟩ := hfetch
    exact ⟨m₁, by simp only [hfetch]⟩

theorem instruction_of_truncated {op : Opcode} (hf : m.frame? = some f)
    (hrow : rowAt f.chunk.code f.ip = .truncated op) :
    ∃ fault m', instruction host m = .error fault m' := by
  obtain ⟨hstart, hshort, hop⟩ := Listing.short_of_rowAt hrow
  rw [instruction_of_opcode hf hop, execute_eq, bind_apply]
  cases hfetch : fetch op (m.skip 1) with
  | ok x m₁ => exact absurd (within_of_fetch hf hstart hfetch) (Nat.not_le.mpr hshort)
  | error fault m₁ => exact ⟨fault, m₁, rfl⟩

theorem instruction_of_unknown {byte : UInt8} (hf : m.frame? = some f)
    (hrow : rowAt f.chunk.code f.ip = .unknown byte) :
    instruction host m = .error (.unknownOpcode byte) (m.skip 1) := by
  obtain ⟨hbyte, hop⟩ := Listing.byte_of_rowAt hrow
  have hread := readByte_skip hf 0
  simp only [skip_zero, Nat.add_zero, hbyte] at hread
  simp only [instruction, bind_apply, hread, hop, throw_apply]

theorem instruction_of_endOfCode (hf : m.frame? = some f)
    (hrow : rowAt f.chunk.code f.ip = .endOfCode) :
    instruction host m = .error (.malformed .endOfCode) m := by
  have hread := readByte_skip hf 0
  simp only [skip_zero, Nat.add_zero, Listing.rowAt_eq_endOfCode.mp hrow] at hread
  simp only [instruction, bind_apply, hread]

end Machine

end FiberMachine
