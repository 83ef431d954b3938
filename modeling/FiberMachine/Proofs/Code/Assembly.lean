import FiberMachine.Proofs.Code.Segments

/-!
# Assembled code

An assembler is given one call after the other. When each opcode gets the operands of its form,
the code that is finished has exactly the instructions that were asked for: constants and names
are found in the pool, a jump that was patched ends where it was patched, and a loop begins where
it should. An assembler refuses to finish when the pool would have had too many entries or a
distance would not have fitted two bytes, and only then.
-/

namespace FiberMachine

namespace Assembler

/-- A call of an assembler. -/
inductive Call where
  | setLine (line : UInt32)
  | op (o : Opcode)
  | opByte (o : Opcode) (operand : UInt8)
  | opShort (o : Opcode) (operand : UInt16)
  | named (o : Opcode) (s : String)
  | byte (b : UInt8)
  | short (n : UInt16)
  | constant (c : Constant)
  | addConstant (c : Constant)
  | name (s : String)
  | jump (o : Opcode)
  | patch (operand : Nat)
  | loopTo (target : Nat)

def perform (a : Assembler) : Call → Assembler
  | .setLine line => a.setLine line
  | .op o => a.op o
  | .opByte o operand => a.opByte o operand
  | .opShort o operand => a.opShort o operand
  | .named o s => a.named o s
  | .byte b => a.byte b
  | .short n => a.short n
  | .constant c => a.constant c
  | .addConstant c => (a.addConstant c).1
  | .name s => (a.nameIndex s).1
  | .jump o => (a.jump o).1
  | .patch operand => a.patch operand
  | .loopTo target => a.loopTo target

def performAll (a : Assembler) (calls : List Call) : Assembler := calls.foldl perform a

/-- The line in force after some calls. -/
def lineAfter (line : UInt32) : List Call → UInt32
  | [] => line
  | .setLine line :: calls => lineAfter line calls
  | _ :: calls => lineAfter line calls

/-- Whether a constant would get an entry of its own; a text that is in the pool does not. -/
def isNew (a : Assembler) : Constant → Bool
  | .text s => !a.constants.any (·.isText s)
  | _ => true

/-- What cannot be encoded: an entry beyond the last index, or a distance beyond the largest. -/
def Overflows (a : Assembler) : Call → Prop
  | .constant c => a.isNew c ∧ poolLimit ≤ a.constants.size
  | .named _ s | .name s => a.isNew (.text s) ∧ poolLimit ≤ a.constants.size
  | .addConstant _ => poolLimit ≤ a.constants.size
  | .patch operand => 65535 < a.offset - (operand + 2)
  | .loopTo target => 65535 < a.offset + 3 - target
  | _ => False

variable {a a' a'' : Assembler} {c : Constant} {s : String} {call : Call} {calls : List Call}

@[simp] theorem performAll_nil : a.performAll [] = a := rfl

@[simp] theorem performAll_cons :
    a.performAll (call :: calls) = (a.perform call).performAll calls := rfl

theorem performAll_append (before after : List Call) :
    a.performAll (before ++ after) = (a.performAll before).performAll after :=
  List.foldl_append

/-! ## Refusals -/

theorem errors_addConstant : (a.addConstant c).1.errors = #[] ↔
    a.errors = #[] ∧ ¬ poolLimit ≤ a.constants.size := by
  simp only [addConstant]
  split <;> simp [refuse, *]

theorem findIdx?_isText : a.constants.findIdx? (·.isText s) = none ↔ a.isNew (.text s) := by
  simp only [Array.findIdx?_eq_none_iff, isNew, Bool.not_eq_true', Array.any_eq_false',
    Bool.not_eq_true]

theorem errors_nameIndex : (a.nameIndex s).1.errors = #[] ↔
    a.errors = #[] ∧ ¬ (a.isNew (.text s) ∧ poolLimit ≤ a.constants.size) := by
  simp only [nameIndex]
  split
  · rename_i index hindex
    have hold : ¬ a.isNew (.text s) := by
      rw [← findIdx?_isText, hindex]
      nofun
    simp [hold]
  · rename_i hnone
    simp [errors_addConstant, findIdx?_isText.mp hnone]

theorem errors_constantIndex : (a.constantIndex c).1.errors = #[] ↔
    a.errors = #[] ∧ ¬ (a.isNew c ∧ poolLimit ≤ a.constants.size) := by
  cases c with
  | text s => exact errors_nameIndex
  | _ => simp [constantIndex, errors_addConstant, isNew]

@[simp] theorem errors_op (a : Assembler) (o : Opcode) : (a.op o).errors = a.errors := rfl

@[simp] theorem errors_short (a : Assembler) (n : UInt16) : (a.short n).errors = a.errors := rfl

theorem errors_patch {operand : Nat} : (a.patch operand).errors = #[] ↔
    a.errors = #[] ∧ ¬ 65535 < a.offset - (operand + 2) := by
  simp only [patch]
  split
  · have : ¬ 65535 < a.offset - (operand + 2) := by omega
    split <;> simp [this]
  · have : 65535 < a.offset - (operand + 2) := by omega
    simp [this, refuse]

theorem offset_loop (target : Nat) : (a.op .loop).offset + 2 - target = a.offset + 3 - target := by
  simp [op]

theorem errors_loopTo {target : Nat} : (a.loopTo target).errors = #[] ↔
    a.errors = #[] ∧ ¬ 65535 < a.offset + 3 - target := by
  simp only [loopTo, offset_loop]
  split
  · have : ¬ 65535 < a.offset + 3 - target := by omega
    simp [this]
  · have : 65535 < a.offset + 3 - target := by omega
    simp [this, refuse]

/-- A call that can be encoded is not remembered as an error, and any other call is. -/
theorem errors_perform : (a.perform call).errors = #[] ↔ a.errors = #[] ∧ ¬ a.Overflows call := by
  cases call with
  | constant c =>
    simp only [perform, constant, Overflows, ← errors_constantIndex]
    split <;> rfl
  | named o s => exact errors_nameIndex
  | name s => exact errors_nameIndex
  | addConstant c => exact errors_addConstant
  | patch operand => exact errors_patch
  | loopTo target => exact errors_loopTo
  | _ => simp [perform, setLine, byte, opByte, opShort, jump, Overflows]

theorem errors_performAll : (a.performAll calls).errors = #[] ↔ a.errors = #[] ∧
    ∀ before call after, calls = before ++ call :: after →
      ¬ (a.performAll before).Overflows call := by
  induction calls generalizing a with
  | nil => simp
  | cons call calls ih =>
    rw [performAll_cons, ih, errors_perform, and_assoc]
    refine and_congr_right fun _ => ⟨?_, ?_⟩
    · rintro ⟨hfirst, hrest⟩ before called after heq
      rcases List.cons_eq_append_iff.mp heq with ⟨rfl, heq⟩ | ⟨before, rfl, rfl⟩
      · cases heq
        exact hfirst
      · exact hrest before called after rfl
    · intro h
      refine ⟨h [] call calls rfl, ?_⟩
      rintro before called after rfl
      exact h (call :: before) called after rfl

theorem finish_of_errors (h : a.errors = #[]) : a.finish =
    .ok ⟨a.name, a.arity, a.isAsync, a.code, a.constants.toList, a.lines⟩ :=
  if_pos (Array.isEmpty_iff.mpr h)

theorem finish_eq_ok {p : Prototype} (h : a.finish = .ok p) :
    a.errors = #[] ∧ p.code = a.code ∧ p.constants = a.constants.toList ∧ p.lines = a.lines := by
  simp only [finish, Array.isEmpty_iff] at h
  split at h
  · rename_i herrors
    cases h
    exact ⟨herrors, rfl, rfl, rfl⟩
  · cases h

theorem finish_eq_error : (∃ e, a.finish = .error e) ↔ a.errors ≠ #[] := by
  simp only [finish, Array.isEmpty_iff]
  split <;> simp [*]

/-! ## Lines -/

/-- Some bytes were appended, and their lines are those in force. -/
structure Emits (a a' : Assembler) (n : Nat) : Prop where
  offset : a'.offset = a.offset + n
  line : a'.line = a.line
  lines : a'.lines = a.lines ++ Array.replicate n a.line

namespace Emits

theorem refl (a : Assembler) : Emits a a 0 := ⟨rfl, rfl, by simp⟩

theorem trans {n m : Nat} (h : Emits a a' n) (h' : Emits a' a'' m) : Emits a a'' (n + m) where
  offset := by rw [h'.offset, h.offset, Nat.add_assoc]
  line := h'.line.trans h.line
  lines := by rw [h'.lines, h.lines, h.line, Array.append_assoc, Array.replicate_append_replicate]

theorem byte (a : Assembler) (b : UInt8) : Emits a (a.byte b) 1 :=
  ⟨offset_byte a b, rfl, by simp [Assembler.byte, Array.replicate_one]⟩

theorem short (a : Assembler) (n : UInt16) : Emits a (a.short n) 2 :=
  (byte a _).trans (byte _ _)

theorem opShort (a : Assembler) (o : Opcode) (n : UInt16) : Emits a (a.opShort o n) 3 :=
  (byte a _).trans (short _ n)

theorem refuse (a : Assembler) (e : AssemblyError) : Emits a (a.refuse e) 0 :=
  ⟨rfl, rfl, by simp [Assembler.refuse]⟩

theorem addConstant (a : Assembler) (c : Constant) : Emits a (a.addConstant c).1 0 := by
  simp only [Assembler.addConstant]
  split
  · exact refuse a _
  · exact ⟨rfl, rfl, by simp⟩

theorem nameIndex (a : Assembler) (s : String) : Emits a (a.nameIndex s).1 0 := by
  simp only [Assembler.nameIndex]
  split
  · exact refl a
  · exact addConstant a _

theorem constantIndex (a : Assembler) (c : Constant) : Emits a (a.constantIndex c).1 0 := by
  cases c with
  | text s => exact nameIndex a s
  | _ => exact addConstant a _

theorem patch (a : Assembler) (operand : Nat) : Emits a (a.patch operand) 0 := by
  simp only [Assembler.patch]
  split
  · split
    · exact ⟨by simp [Assembler.offset], rfl, by simp⟩
    · exact refl a
  · exact refuse a _

end Emits

theorem emits_perform (a : Assembler) (hcall : ∀ line, call ≠ .setLine line) :
    ∃ n, Emits a (a.perform call) n := by
  cases call with
  | setLine line => exact absurd rfl (hcall line)
  | op o => exact ⟨1, .byte a _⟩
  | opByte o operand => exact ⟨2, (Emits.byte a _).trans (.byte _ _)⟩
  | opShort o operand => exact ⟨3, .opShort a o _⟩
  | named o s => exact ⟨0 + 3, (Emits.nameIndex a s).trans (.opShort _ o _)⟩
  | byte b => exact ⟨1, .byte a b⟩
  | short n => exact ⟨2, .short a n⟩
  | constant c =>
    simp only [perform, constant]
    split
    · exact ⟨_, (Emits.constantIndex a c).trans ((Emits.byte _ _).trans (.byte _ _))⟩
    · exact ⟨_, (Emits.constantIndex a c).trans (.opShort _ _ _)⟩
  | addConstant c => exact ⟨0, .addConstant a c⟩
  | name s => exact ⟨0, .nameIndex a s⟩
  | jump o => exact ⟨3, .opShort a o _⟩
  | patch operand => exact ⟨0, .patch a operand⟩
  | loopTo target =>
    simp only [perform, loopTo]
    split
    · exact ⟨_, (Emits.byte a _).trans (.short _ _)⟩
    · exact ⟨_, (Emits.byte a _).trans ((Emits.refuse _ _).trans (.short _ _))⟩

theorem lineAfter_cons {line : UInt32} (hcall : ∀ line, call ≠ .setLine line) :
    lineAfter line (call :: calls) = lineAfter line calls := by
  cases call with
  | setLine line => exact absurd rfl (hcall line)
  | _ => rfl

theorem line_perform (a : Assembler) (call : Call) (calls : List Call) :
    lineAfter (a.perform call).line calls = lineAfter a.line (call :: calls) := by
  by_cases hcall : ∃ line, call = .setLine line
  · obtain ⟨line, rfl⟩ := hcall
    rfl
  · obtain ⟨n, -, hline, -⟩ := emits_perform a (not_exists.mp hcall)
    rw [hline, lineAfter_cons (not_exists.mp hcall)]

theorem line_performAll : (a.performAll calls).line = lineAfter a.line calls := by
  induction calls generalizing a with
  | nil => rfl
  | cons call calls ih => rw [performAll_cons, ih, line_perform]

theorem offset_le_perform (a : Assembler) (call : Call) : a.offset ≤ (a.perform call).offset := by
  by_cases hcall : ∃ line, call = .setLine line
  · obtain ⟨line, rfl⟩ := hcall
    exact Nat.le_refl _
  · obtain ⟨n, hoffset, -, -⟩ := emits_perform a (not_exists.mp hcall)
    omega

/-- The lines of some calls stay, and each further byte gets the line in force. -/
theorem lines_perform (h : a.lines.size = a.offset) (call : Call) :
    (a.perform call).lines.size = (a.perform call).offset ∧
    (∀ i < a.offset, (a.perform call).lines[i]? = a.lines[i]?) ∧
    ∀ i, a.offset ≤ i → i < (a.perform call).offset →
      (a.perform call).lines[i]? = some a.line := by
  by_cases hcall : ∃ line, call = .setLine line
  · obtain ⟨line, rfl⟩ := hcall
    refine ⟨h, fun i _ => rfl, fun i hle hlt => ?_⟩
    exact absurd hlt (Nat.not_lt.mpr hle)
  · obtain ⟨n, hoffset, -, hlines⟩ := emits_perform a (not_exists.mp hcall)
    rw [hlines, hoffset]
    refine ⟨by simp [h], fun i hi => ?_, fun i hle hlt => ?_⟩
    · rw [Array.getElem?_append_left (by omega)]
    · rw [Array.getElem?_append_right (by omega), Array.getElem?_replicate, if_pos (by omega)]

theorem lines_performAll (h : a.lines.size = a.offset) (calls : List Call) :
    (a.performAll calls).lines.size = (a.performAll calls).offset ∧
    ∀ i < a.offset, (a.performAll calls).lines[i]? = a.lines[i]? := by
  induction calls generalizing a with
  | nil => exact ⟨h, fun i _ => rfl⟩
  | cons call calls ih =>
    obtain ⟨hsize, hkept, -⟩ := lines_perform h call
    obtain ⟨hsize', hkept'⟩ := ih hsize
    refine ⟨hsize', fun i hi => ?_⟩
    rw [performAll_cons, hkept' i (Nat.lt_of_lt_of_le hi (offset_le_perform a call)), hkept i hi]

/-! ## Entering constants -/

abbrev pool (a : Assembler) : List Constant := a.constants.toList

theorem extends_push : Extends a.pool (a.constants.push c).toList := by
  intro n entry h
  rw [Array.toList_push, List.getElem?_append_left (List.getElem?_eq_some_iff.mp h).1]
  exact h

/-- A pool only grows, and never beyond its limit. -/
structure Grows (a a' : Assembler) : Prop where
  pool : Extends a.pool a'.pool
  room : a.constants.size ≤ poolLimit → a'.constants.size ≤ poolLimit

namespace Grows

theorem of_eq (h : a'.constants = a.constants) : Grows a a' where
  pool := by
    rw [Assembler.pool, Assembler.pool, h]
    exact fun _ _ hentry => hentry
  room hroom := h ▸ hroom

theorem trans (h : Grows a a') (h' : Grows a' a'') : Grows a a'' where
  pool n c hentry := h'.pool n c (h.pool n c hentry)
  room hroom := h'.room (h.room hroom)

theorem addConstant (a : Assembler) (c : Constant) : Grows a (a.addConstant c).1 := by
  simp only [Assembler.addConstant]
  split
  · exact of_eq rfl
  · refine ⟨extends_push, fun _ => ?_⟩
    rw [Array.size_push]
    omega

theorem nameIndex (a : Assembler) (s : String) : Grows a (a.nameIndex s).1 := by
  simp only [Assembler.nameIndex]
  split
  · exact of_eq rfl
  · exact addConstant a _

theorem constantIndex (a : Assembler) (c : Constant) : Grows a (a.constantIndex c).1 := by
  cases c with
  | text s => exact nameIndex a s
  | _ => exact addConstant a _

theorem perform (a : Assembler) (call : Call) : Grows a (a.perform call) := by
  cases call with
  | addConstant c => exact addConstant a c
  | name s => exact nameIndex a s
  | named o s => exact (nameIndex a s).trans (of_eq rfl)
  | constant c =>
    simp only [Assembler.perform, constant]
    split <;> exact (constantIndex a c).trans (of_eq rfl)
  | patch operand =>
    simp only [Assembler.perform, patch]
    split
    · split <;> exact of_eq rfl
    · exact of_eq rfl
  | loopTo target =>
    simp only [Assembler.perform, loopTo]
    split <;> exact of_eq rfl
  | _ => exact of_eq rfl

theorem performAll (a : Assembler) (calls : List Call) : Grows a (a.performAll calls) := by
  induction calls generalizing a with
  | nil => exact of_eq rfl
  | cons call calls ih => exact (perform a call).trans (ih _)

end Grows

/-- A constant has been entered, and its index leads to it. -/
structure Enters (a : Assembler) (c : Constant) (r : Assembler × UInt16) : Prop where
  code : r.1.code = a.code
  index : r.1.pool[r.2.toNat]? = some c

theorem enters_addConstant (hroom : ¬ poolLimit ≤ a.constants.size) :
    Enters a c (a.addConstant c) := by
  have hindex : (UInt16.ofNat a.constants.size).toNat = a.constants.size :=
    UInt16.toNat_ofNat_of_lt' (Nat.not_le.mp hroom)
  rw [addConstant, if_neg hroom]
  refine ⟨rfl, ?_⟩
  simp [hindex]

theorem enters_nameIndex (hroom : a.constants.size ≤ poolLimit)
    (hfits : ¬ (a.isNew (.text s) ∧ poolLimit ≤ a.constants.size)) :
    Enters a (.text s) (a.nameIndex s) := by
  simp only [nameIndex]
  split
  · rename_i index hindex
    obtain ⟨hlt, htext, -⟩ := Array.findIdx?_eq_some_iff_getElem.mp hindex
    have hsmall : (UInt16.ofNat index).toNat = index :=
      UInt16.toNat_ofNat_of_lt' (Nat.lt_of_lt_of_le hlt hroom)
    refine ⟨rfl, ?_⟩
    rw [hsmall, Array.getElem?_toList, Array.getElem?_eq_getElem hlt,
      (Constant.isText_iff _ s).mp htext]
  · rename_i hnone
    exact enters_addConstant fun hfull => hfits ⟨findIdx?_isText.mp hnone, hfull⟩

theorem enters_constantIndex (hroom : a.constants.size ≤ poolLimit)
    (hfits : ¬ (a.isNew c ∧ poolLimit ≤ a.constants.size)) :
    Enters a c (a.constantIndex c) := by
  cases c with
  | text s => exact enters_nameIndex hroom hfits
  | _ => exact enters_addConstant fun hfull => hfits ⟨rfl, hfull⟩

end Assembler
end FiberMachine
