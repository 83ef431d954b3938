import FiberMachine.Proofs.Machine.Balance
import FiberMachine.Proofs.Machine.Failures
import FiberMachine.Proofs.Machine.Landing
import FiberMachine.Proofs.Machine.Safety

/-!
# Listings tell what instructions do

A listing and a machine read code in the same way. What an instruction gets from its code and its
constants is what its row shows, it leaves its frame where the row says, it is unknown where the
row says so, and it fails where the row is truncated.
-/

namespace FiberMachine

open Relation (ReflTransGen)
open Listing (Row Shown rowAt)

/-- A fault that is not about an unknown opcode. -/
def Fault.Known (fault : Fault) : Prop := ∀ byte, fault ≠ .unknownOpcode byte

instance : Common Fault.Known where
  of_common fault h byte hb := by
    subst hb
    cases h

/-- The functions of a host do not complain about opcodes. -/
def HostFunctions.KnowsOpcodes (host : HostFunctions) : Prop :=
  ∀ id args, Throws Fault.Known (host.call id args)

namespace Machine

variable {host : HostFunctions} {m m' : Machine} {f : Frame} {rest : List Frame} {t : Running}
  {op : Opcode} {shown : Shown} {byte : UInt8}

theorem known_execute (hk : host.KnowsOpcodes) (hh : host.Intrudes) (op : Opcode) :
    Throws Fault.Known (execute host op) := by
  have := throws_runNative (P := Fault.Known) hk
  have := hh.sameRunning
  infer_instance

theorem instruction_unknown_iff (hk : host.KnowsOpcodes) (hh : host.Intrudes) :
    (∃ m', instruction host m = .error (.unknownOpcode byte) m') ↔
      ∃ f, m.frame? = some f ∧ rowAt f.chunk.code f.ip = .unknown byte := by
  refine ⟨fun ⟨m', h⟩ => ?_, fun ⟨f, hf, hrow⟩ => ⟨_, instruction_of_unknown hf hrow⟩⟩
  rcases bind_eq_error h with h | ⟨b, m₁, hbyte, h⟩
  · have hread : Throws Fault.Known readByte := inferInstance
    exact absurd rfl (hread.fault _ _ _ h byte)
  · obtain ⟨rfl, f, hf, hcode⟩ := readByte_eq_ok hbyte
    refine ⟨f, hf, ?_⟩
    cases hop : Opcode.ofByte? b with
    | some op =>
      simp only [hop] at h
      exact absurd rfl ((known_execute hk hh op).fault _ _ _ h byte)
    | none =>
      simp only [hop] at h
      cases h
      simp only [rowAt, hcode, hop]

/-- A step comes to a safe point first. -/
theorem step_unknown_iff (hk : host.KnowsOpcodes) (hh : host.Intrudes) :
    (∃ m', step host m = .error (.unknownOpcode byte) m') ↔ ∃ m₁ f, safePoint m = .ok true m₁ ∧
      m₁.frame? = some f ∧ rowAt f.chunk.code f.ip = .unknown byte := by
  constructor
  · rintro ⟨m', h⟩
    rcases bind_eq_error h with h | ⟨found, m₁, hsafe, h⟩
    · have hread : Throws Fault.Known safePoint := inferInstance
      exact absurd rfl (hread.fault _ _ _ h byte)
    · cases found with
      | false => cases h
      | true =>
        rcases bind_eq_error h with h | ⟨_, m₂, -, h⟩
        · obtain ⟨f, hf, hrow⟩ := (instruction_unknown_iff hk hh).mp ⟨m', h⟩
          exact ⟨m₁, f, hsafe, hf, hrow⟩
        · cases h
  · rintro ⟨m₁, f, hsafe, hf, hrow⟩
    refine ⟨m₁.skip 1, ?_⟩
    simp only [step, bind_apply, hsafe, ↓reduceIte, instruction_of_unknown hf hrow]

/-! ## What is guaranteed -/

/-- The innermost frame of the running fiber is at an instruction that a row shows. -/
structure AtRow (op : Opcode) (shown : Shown) (f : Frame) (rest : List Frame) (t : Running)
    (m : Machine) : Prop where
  running : m.running = some t
  frames : t.fiber.frames = f :: rest
  row : rowAt f.chunk.code f.ip = .instruction op shown

namespace AtRow

theorem frame? (ha : AtRow op shown f rest t m) : m.frame? = some f :=
  frame?_eq_some ha.running ha.frames

theorem frames? (ha : AtRow op shown f rest t m) : m.frames? = some (t.id, f :: rest) := by
  rw [Machine.frames?, ha.running, Option.map_some, ha.frames]

theorem next_eq (ha : AtRow op shown f rest t m) (describe : Nat → String) :
    (Listing.instruction f.chunk.code describe f.ip).2 = f.ip + op.size := by
  rw [Listing.instruction_eq, ha.row]
  rfl

/-- An instruction that succeeds has found the constants that its row shows. -/
theorem exists_inputs (ha : AtRow op shown f rest t m) (h : instruction host m = .ok () m') :
    ∃ x, shown.inputs m.heap f.chunk op = .ok x ∧
      perform host op x (m.skip op.size) = .ok () m' := by
  have hrow := @instruction_of_row m f host op shown ha.frame? ha.row
  cases hx : shown.inputs m.heap f.chunk op with
  | ok x =>
    simp only [hx] at hrow
    exact ⟨x, rfl, hrow.symm.trans h⟩
  | error fault =>
    simp only [hx] at hrow
    obtain ⟨m₁, hrow⟩ := hrow
    cases hrow.symm.trans h

end AtRow

/-- What a listing says of code and what a machine does with it, at every offset of any code. The
listing is made of rows that begin one behind the other and cover the code. The instruction of a
row is performed with what the row shows and the constants at the indices in it, and it leaves its
frame at the next row or at the target of the row, also under the frame of a call. So does a fiber
that parks, when the fibers wait for one another as they do in every run. An opcode is unknown
exactly where the row says so, and an instruction fails where its row is truncated. -/
structure FormatGuarantees (host : HostFunctions) : Prop where
  listed : ∀ code describe offset, Listing.instruction code describe offset =
    ((rowAt code offset).text describe offset, (rowAt code offset).next offset code.size)
  listing : ∀ name arity isAsync code constants lines,
    Listing.function ⟨name, arity, isAsync, code, constants, lines⟩ = "== " ++ name ++ " ==\n"
      ++ Listing.rowLines code lines
        (fun i => (constants[i]?.map Listing.describeConstant).getD "?") none (Listing.starts code)
      ++ Listing.nested constants
  increasing : ∀ code, (Listing.starts code).Pairwise (· < ·)
  covers : ∀ code, (Listing.starts code).flatMap (Listing.span code) = List.range code.size
  performed : ∀ {op shown f rest t m}, AtRow op shown f rest t m →
    match shown.inputs m.heap f.chunk op with
    | .ok x => instruction host m = perform host op x (m.skip op.size)
    | .error fault => ∃ m', instruction host m = .error fault m'
  lands : ∀ {op shown f rest t m m'}, AtRow op shown f rest t m → op.isLocal ∨ op = .call ∨
    op = .invoke → instruction host m = .ok () m' → ∀ describe, ∃ frames,
      m'.frames? = some (t.id, frames) ∧
        Landed op shown f rest (Listing.instruction f.chunk.code describe f.ip).2 frames
  returns : ∀ {shown f rest t m m'}, AtRow .ret shown f rest t m →
    instruction host m = .ok () m' → ∀ describe, ∃ t₁, (m.skip 1).running = some t₁ ∧
      t₁.id = t.id ∧ t₁.fiber.frames =
        { f with ip := (Listing.instruction f.chunk.code describe f.ip).2 } :: rest ∧
      Returns t₁ (m.skip 1) m'
  parks : ∀ {op shown f rest t m m' row}, AtRow op shown f rest t m → Nested row m →
    op = .await ∨ op = .importModule ∨ op = .importModuleAs → instruction host m = .ok () m' →
      m'.room ≤ Heap.slotLimit → ∀ describe, ∃ w, m'.work? t.id = some w ∧ w.frames =
        { f with ip := (Listing.instruction f.chunk.code describe f.ip).2 } :: rest
  unknown : ∀ {m byte}, (∃ m', instruction host m = .error (.unknownOpcode byte) m') ↔
    ∃ f, m.frame? = some f ∧ rowAt f.chunk.code f.ip = .unknown byte
  unknownStep : ∀ {m byte}, (∃ m', step host m = .error (.unknownOpcode byte) m') ↔
    ∃ m₁ f, safePoint m = .ok true m₁ ∧ m₁.frame? = some f ∧
      rowAt f.chunk.code f.ip = .unknown byte
  truncated : ∀ {m f op}, m.frame? = some f → rowAt f.chunk.code f.ip = .truncated op →
    ∃ fault m', instruction host m = .error fault m'

theorem formatGuarantees (hk : host.KnowsOpcodes) (hh : host.Intrudes) :
    FormatGuarantees host where
  listed := Listing.instruction_eq
  listing := Listing.function_eq
  increasing _ := Listing.pairwise_startsFrom
  covers _ := Listing.flatMap_span_startsFrom.trans (by rw [Nat.sub_zero, List.range_eq_range'])
  performed ha := instruction_of_row ha.frame? ha.row
  lands ha hop h describe := by
    have := hh.sameRunning
    obtain ⟨x, hx, hperform⟩ := ha.exists_inputs h
    rw [ha.next_eq]
    exact landed_perform ha.frames? ha.row hx hop hperform
  returns {shown f rest t m m'} ha h describe := by
    obtain ⟨x, -, hperform⟩ := ha.exists_inputs h
    have hreturns : returnFromCall (m.skip 1) = .ok () m' := by
      cases x with
      | nothing => exact hperform
      | _ => cases hperform
    obtain ⟨t₁, ht₁, hr⟩ := returns_of_ok hreturns
    cases (running_skip ha.running).symm.trans ht₁
    refine ⟨_, ht₁, rfl, ?_, hr⟩
    rw [ha.next_eq, Running.frames_skip, ha.frames, List.modifyHead_cons]
    rfl
  parks ha hn hop h hfit describe := by
    obtain ⟨x, -, hperform⟩ := ha.exists_inputs h
    rw [ha.next_eq]
    exact hn.frames_perform ha.running ha.frames hop hperform hfit
  unknown := instruction_unknown_iff hk hh
  unknownStep := step_unknown_iff hk hh
  truncated := instruction_of_truncated

theorem formatGuarantees_probe : FormatGuarantees Probe.host ∧ ∃ f rest t m',
    AtRow .call (.number 1) f rest t (falsifying 3) ∧
      instruction Probe.host (falsifying 3) = .ok () m' := by
  have hrow : (falsifying 3).frame?.map (fun f => rowAt f.chunk.code f.ip) =
    some (.instruction .call (.number 1)) := by decide +kernel
  have hok : yields (instruction Probe.host) () (falsifying 3) = true := by decide +kernel
  obtain ⟨f, hf, hrow⟩ := Option.map_eq_some_iff.mp hrow
  obtain ⟨t, rest, ht, hframes⟩ := exists_running_of_frame? hf
  exact ⟨formatGuarantees (fun _ _ => inferInstance) intrudes_probe, f, rest, t, _,
    ⟨ht, hframes, hrow⟩, eq_ok_of_yields hok⟩

end Machine

end FiberMachine
