import FiberMachine.Proofs.Code.Assembly

/-!
# Drafts

A draft is an assembler together with the instructions that were asked of it. While each opcode
gets operands of its own form, the code is the segments of these instructions, also after a jump
among them has been patched.
-/

namespace FiberMachine

open Assembler (Call Grows poolLimit lineAfter)

/-- The assembler and the instructions it was asked for, with one that misses its last operand. -/
structure Draft where
  assembler : Assembler
  written : List Written
  half : Option Written

def Layout.hasSecond (layout : Layout) : Bool := layout = .shortShort || layout = .shortByte

def Layout.firstIsShort (layout : Layout) : Bool := layout ≠ .none && layout ≠ .byte

namespace Assembler

/-- The form in which a constant is loaded. -/
def loadOf (a : Assembler) (c : Constant) : Opcode :=
  if (a.constantIndex c).2.toNat < 256 then .constant else .constantLong

end Assembler

namespace Draft

def opened (name : String) (arity : UInt8) (isAsync : Bool) : Draft :=
  ⟨.start name arity isAsync, [], none⟩

def begin (d : Draft) (o : Opcode) (operands : List Meaning) : Draft :=
  let w : Written := ⟨d.assembler.offset, o, operands⟩
  if o.layout.hasSecond then { d with half := some w } else { d with written := d.written ++ [w] }

def complete (d : Draft) (operand : Meaning) : Draft :=
  { d with
    written := d.written ++
      d.half.toList.map fun w => { w with operands := w.operands ++ [operand] }
    half := none }

/-- The instructions that a call asks for. -/
def note (d : Draft) : Call → Draft
  | .op o => d.begin o []
  | .opByte o operand => d.begin o [.number operand.toNat]
  | .opShort o operand => d.begin o [.number operand.toNat]
  | .named o s => d.begin o [.entry (.text s)]
  | .constant c => d.begin (d.assembler.loadOf c) [.entry c]
  | .jump o => d.begin o [.ahead none]
  | .loopTo target => d.begin .loop [.back target]
  | .byte operand => d.complete (.number operand.toNat)
  | .short operand => d.complete (.number operand.toNat)
  | .patch operand =>
    { d with written := d.written.map (.patched operand d.assembler.offset) }
  | .setLine _ | .addConstant _ | .name _ => d

def perform (d : Draft) (call : Call) : Draft :=
  { d.note call with assembler := d.assembler.perform call }

/-- A call in its place: an instruction begins where another one is complete, each operand has
the form that the opcode asks for, a patch is for a jump that was written and a loop goes back. -/
def Accepts (d : Draft) : Call → Prop
  | .op o => d.half = none ∧ o.layout = .none
  | .opByte o _ => d.half = none ∧ o.layout = .byte
  | .opShort o _ | .named o _ => d.half = none ∧ o.layout.firstIsShort
  | .constant _ => d.half = none
  | .jump o => d.half = none ∧ o.layout = .jump ∧ o ≠ .loop
  | .loopTo target => d.half = none ∧ target ≤ d.assembler.offset
  | .byte _ => ∃ w, d.half = some w ∧ w.op.layout = .shortByte
  | .short _ => ∃ w, d.half = some w ∧ w.op.layout = .shortShort
  | .patch operand => ∃ w ∈ d.written, w.start + 1 = operand ∧ w.op.layout = .jump ∧ w.op ≠ .loop
  | .setLine _ | .addConstant _ | .name _ => True

/-- Calls in their places, whose last instruction is complete. -/
def Follows (d : Draft) : List Call → Prop
  | [] => d.half = none
  | call :: calls => d.Accepts call ∧ (d.perform call).Follows calls

def performAll (d : Draft) (calls : List Call) : Draft := calls.foldl perform d

variable {d : Draft} {a : Assembler} {c : Constant} {s : String} {call : Call} {calls : List Call}
  {o : Opcode} {segment : List UInt8} {operands : List Meaning} {pool pool' : List Constant}

@[simp] theorem assembler_perform :
    (d.perform call).assembler = d.assembler.perform call := rfl

theorem assembler_performAll :
    (d.performAll calls).assembler = d.assembler.performAll calls := by
  induction calls generalizing d with
  | nil => rfl
  | cons call calls ih => exact ih

/-- The bytes of an instruction that misses its last operand. -/
def Pending (pool : List Constant) (offset : Nat) : Option Written → List UInt8 → Prop
  | none, tail => tail = []
  | some w, tail => w.start = offset ∧ w.op.layout.hasSecond ∧
      ∃ high low operand, tail = [w.op.toByte, high, low] ∧ w.operands = [operand] ∧
        operand.Holds pool w.next (decodeShort high low).toNat

/-- The code is what was asked for. -/
structure Sound (d : Draft) : Prop where
  room : d.assembler.constants.size ≤ poolLimit
  code : ∃ bytes tail, d.assembler.code.toList = bytes ++ tail ∧
    Spread d.assembler.pool 0 d.written bytes ∧
    Pending d.assembler.pool bytes.length d.half tail

theorem Pending.mono (hpool : Extends pool pool') {offset : Nat} {half : Option Written}
    {tail : List UInt8} (h : Pending pool offset half tail) : Pending pool' offset half tail := by
  cases half with
  | none => exact h
  | some w =>
    obtain ⟨hstart, hsecond, high, low, operand, htail, hoperands, hholds⟩ := h
    exact ⟨hstart, hsecond, high, low, operand, htail, hoperands, hholds.mono hpool⟩

/-- The code and the pool may have changed, but not what was asked for. -/
theorem Sound.keeps (h : d.Sound) (hcode : a.code = d.assembler.code)
    (hgrows : Grows d.assembler a) : Sound { d with assembler := a } := by
  obtain ⟨bytes, tail, hbytes, hspread, hpending⟩ := h.code
  exact ⟨hgrows.room h.room, bytes, tail, hcode ▸ hbytes, hspread.mono hgrows.pool,
    hpending.mono hgrows.pool⟩

/-- One more instruction, or the first part of one, is behind the others. -/
theorem Sound.begin (h : d.Sound) (hhalf : d.half = none) (hgrows : Grows d.assembler a)
    (hcode : a.code.toList = d.assembler.code.toList ++ segment)
    (hsegment : if o.layout.hasSecond then
        Pending a.pool d.assembler.offset (some ⟨d.assembler.offset, o, operands⟩) segment
      else Written.Laid a.pool ⟨d.assembler.offset, o, operands⟩ segment) :
    Sound { d.begin o operands with assembler := a } := by
  obtain ⟨bytes, tail, hbytes, hspread, hpending⟩ := h.code
  rw [hhalf] at hpending
  cases hpending
  rw [List.append_nil] at hbytes
  have hoffset : d.assembler.offset = bytes.length := by
    rw [Assembler.offset, ← Array.length_toList, hbytes]
  rw [hbytes] at hcode
  have hspread := hspread.mono hgrows.pool
  simp only [Draft.begin]
  split at hsegment
  · rename_i hsecond
    rw [if_pos hsecond]
    exact ⟨hgrows.room h.room, bytes, segment, hcode, hspread, hoffset ▸ hsegment⟩
  · rename_i hsecond
    rw [if_neg hsecond]
    refine ⟨hgrows.room h.room, bytes ++ segment, [], ?_, hspread.snoc hoffset hsegment, ?_⟩
    · rw [hcode, List.append_nil]
    · rw [hhalf]
      rfl

theorem Sound.beginShort (h : d.Sound) (a : Assembler) (operand : Meaning) (n : UInt16)
    (hhalf : d.half = none) (hgrows : Grows d.assembler a)
    (hshort : o.layout.firstIsShort)
    (hcode : a.code.toList = d.assembler.code.toList ++
      [o.toByte, (encodeShort n).1, (encodeShort n).2])
    (hholds : operand.Holds a.pool (d.assembler.offset + 3) n.toNat) :
    Sound { d.begin o [operand] with assembler := a } := by
  apply h.begin hhalf hgrows hcode
  rw [← decodeShort_encodeShort n] at hholds
  split
  · rename_i hsecond
    exact ⟨rfl, hsecond, _, _, operand, rfl, rfl, hholds⟩
  · rename_i hsecond
    refine ⟨_, [(decodeShort (encodeShort n).1 (encodeShort n).2).toNat], rfl, ?_,
      .cons hholds .nil⟩
    dsimp only
    cases hlayout : o.layout <;> simp_all [Layout.firstIsShort, Layout.hasSecond, Layout.numbers]

/-- The last operand of an instruction completes it. -/
theorem Sound.complete {w : Written} {operand : Meaning} {n : Nat} (h : d.Sound)
    (hhalf : d.half = some w) (hcode : a.code.toList = d.assembler.code.toList ++ segment)
    (hpool : a.constants = d.assembler.constants)
    (hnumbers : ∀ high low, w.op.layout.numbers (high :: low :: segment) =
      some [(decodeShort high low).toNat, n])
    (hholds : operand.Holds a.pool w.next n) :
    Sound { d.complete operand with assembler := a } := by
  obtain ⟨bytes, tail, hbytes, hspread, hpending⟩ := h.code
  rw [hhalf] at hpending
  obtain ⟨hstart, -, high, low, first, rfl, hoperands, hfirst⟩ := hpending
  rw [Assembler.pool, ← hpool] at hspread hfirst
  have hlaid : Written.Laid a.pool { w with operands := w.operands ++ [operand] }
      (w.op.toByte :: high :: low :: segment) := by
    refine ⟨high :: low :: segment, _, rfl, hnumbers high low, ?_⟩
    rw [hoperands]
    exact .cons hfirst (.cons hholds .nil)
  refine ⟨hpool ▸ h.room, bytes ++ (w.op.toByte :: high :: low :: segment), [], ?_, ?_, rfl⟩
  · rw [hcode, hbytes, List.append_nil, List.append_assoc]
    rfl
  · rw [Draft.complete, hhalf]
    exact hspread.snoc hstart hlaid

/-- A jump that was written ends here once it is patched; the other instructions stay. -/
theorem Sound.patch {operand : Nat} (h : d.Sound) (haccepts : d.Accepts (.patch operand))
    (hfits : ¬ d.assembler.Overflows (.patch operand)) : (d.perform (.patch operand)).Sound := by
  obtain ⟨w, hw, rfl, hlayout, -⟩ := haccepts
  obtain ⟨bytes, tail, hbytes, hspread, hpending⟩ := h.code
  have hwithin := (hspread.start_le hw).2
  rw [Opcode.size, hlayout, Layout.width] at hwithin
  have hoffset : d.assembler.offset = bytes.length + tail.length := by
    rw [Assembler.offset, ← Array.length_toList, hbytes, List.length_append]
  let distance := d.assembler.offset - (w.start + 1 + 2)
  have hdistance : distance < 65536 := Nat.lt_succ_of_le (Nat.not_lt.mp hfits)
  have hplace : w.start + 1 + 2 ≤ d.assembler.code.size := by
    rw [← Assembler.offset]
    omega
  let pair := encodeShort (.ofNat distance)
  have hcode : (d.assembler.patch (w.start + 1)).code.toList =
      (bytes.set (w.start + 1) pair.1).set (w.start + 2) pair.2 ++ tail := by
    simp only [Assembler.patch]
    rw [if_pos hdistance, if_pos hplace, Array.toList_setIfInBounds, Array.toList_setIfInBounds,
      hbytes, List.set_append_left _ _ (by omega),
      List.set_append_left _ _ (by rw [List.length_set]; omega)]
  have hconstants : (d.assembler.patch (w.start + 1)).constants = d.assembler.constants := by
    simp only [Assembler.patch]
    rw [if_pos hdistance, if_pos hplace]
  have htarget : w.next + (decodeShort pair.1 pair.2).toNat = d.assembler.offset := by
    rw [decodeShort_encodeShort, UInt16.toNat_ofNat_of_lt' hdistance, Written.next]
    omega
  have hpatched := hspread.patch hw hlayout htarget
  refine ⟨hconstants ▸ h.room, _, tail, hcode, ?_, ?_⟩
  · rw [Assembler.pool, assembler_perform, Assembler.perform, hconstants]
    exact hpatched
  · rw [Assembler.pool, assembler_perform, Assembler.perform, hconstants, List.length_set,
      List.length_set]
    exact hpending

theorem opened_sound (name : String) (arity : UInt8) (isAsync : Bool) :
    (opened name arity isAsync).Sound :=
  ⟨Nat.zero_le _, [], [], rfl, .nil 0, rfl⟩

theorem Sound.beginNone (h : d.Sound) (hhalf : d.half = none) (hlayout : o.layout = .none) :
    Sound { d.begin o [] with assembler := d.assembler.op o } := by
  apply h.begin (a := d.assembler.op o) hhalf (.of_eq rfl)
  · exact Array.toList_push
  · rw [hlayout, if_neg nofun]
    exact ⟨[], [], rfl, congrArg (Layout.numbers · []) hlayout, .nil⟩

theorem Sound.beginByte (h : d.Sound) (a : Assembler) (operand : Meaning) (n : UInt8)
    (hhalf : d.half = none) (hgrows : Grows d.assembler a)
    (hlayout : o.layout = .byte)
    (hcode : a.code.toList = d.assembler.code.toList ++ [o.toByte, n])
    (hholds : operand.Holds a.pool (d.assembler.offset + 3) n.toNat) :
    Sound { d.begin o [operand] with assembler := a } := by
  apply h.begin hhalf hgrows hcode
  rw [hlayout, if_neg nofun]
  exact ⟨[n], [n.toNat], rfl, congrArg (Layout.numbers · [n]) hlayout, .cons hholds .nil⟩

theorem code_short (a : Assembler) (n : UInt16) :
    (a.short n).code.toList = a.code.toList ++ [(encodeShort n).1, (encodeShort n).2] := by
  simp [Assembler.short, Assembler.byte]

theorem code_opByte (a : Assembler) (o : Opcode) (n : UInt8) :
    (a.opByte o n).code.toList = a.code.toList ++ [o.toByte, n] := by
  simp [Assembler.opByte, Assembler.op, Assembler.byte]

theorem code_opShort (a : Assembler) (o : Opcode) (n : UInt16) : (a.opShort o n).code.toList =
    a.code.toList ++ [o.toByte, (encodeShort n).1, (encodeShort n).2] := by
  simp [Assembler.opShort, Assembler.op, Assembler.short, Assembler.byte]

theorem Sound.named (h : d.Sound) (haccepts : d.Accepts (.named o s))
    (hfits : ¬ d.assembler.Overflows (.named o s)) : (d.perform (.named o s)).Sound := by
  obtain ⟨hcode, hindex⟩ := Assembler.enters_nameIndex h.room hfits
  change Sound { d.begin o [.entry (.text s)] with assembler := d.assembler.named o s }
  apply h.beginShort (d.assembler.named o s) (.entry (.text s)) _ haccepts.1
    ((Grows.nameIndex _ s).trans (.of_eq rfl)) haccepts.2 _ hindex
  rw [Assembler.named, code_opShort, hcode]

/-- A loop goes back to its target from behind its operand. -/
theorem Sound.loopTo {target : Nat} (h : d.Sound) (haccepts : d.Accepts (.loopTo target))
    (hfits : ¬ d.assembler.Overflows (.loopTo target)) : (d.perform (.loopTo target)).Sound := by
  have hsmall : d.assembler.offset + 3 - target < 65536 :=
    Nat.lt_succ_of_le (Nat.not_lt.mp hfits)
  have hback := haccepts.2
  have hloop : d.assembler.loopTo target =
      d.assembler.opShort .loop (.ofNat (d.assembler.offset + 3 - target)) := by
    simp only [Assembler.loopTo, Assembler.offset_loop, if_pos hsmall]
    rfl
  change Sound { d.begin .loop [.back target] with assembler := d.assembler.loopTo target }
  rw [hloop]
  apply h.beginShort (d.assembler.opShort .loop _) (.back target) _ haccepts.1 (.of_eq rfl) rfl
    (code_opShort _ _ _)
  rw [UInt16.toNat_ofNat_of_lt' hsmall, Meaning.Holds]
  omega

/-- A constant is loaded by the short form while its index fits a byte. -/
theorem Sound.constant (h : d.Sound) (haccepts : d.Accepts (.constant c))
    (hfits : ¬ d.assembler.Overflows (.constant c)) : (d.perform (.constant c)).Sound := by
  obtain ⟨hcode, hindex⟩ := Assembler.enters_constantIndex h.room hfits
  have hgrows := Grows.constantIndex d.assembler c
  change Sound { d.begin (d.assembler.loadOf c) [.entry c] with
    assembler := d.assembler.constant c }
  simp only [Assembler.constant, Assembler.loadOf]
  generalize d.assembler.constantIndex c = r at hcode hindex hgrows
  split
  · rename_i hsmall
    apply h.beginByte (r.1.opByte .constant r.2.toUInt8) (.entry c) r.2.toUInt8 haccepts
      (hgrows.trans (.of_eq rfl)) rfl
    · rw [code_opByte, hcode]
    · rw [UInt16.toNat_toUInt8, Nat.mod_eq_of_lt hsmall]
      exact hindex
  · apply h.beginShort (r.1.opShort .constantLong r.2) (.entry c) r.2 haccepts
      (hgrows.trans (.of_eq rfl)) rfl _ hindex
    rw [code_opShort, hcode]

/-- A call in its place that can be encoded leaves the code as it was asked for. -/
theorem Sound.perform (h : d.Sound) (haccepts : d.Accepts call)
    (hfits : ¬ d.assembler.Overflows call) : (d.perform call).Sound := by
  cases call with
  | setLine line => exact h.keeps rfl (.of_eq rfl)
  | op o => exact h.beginNone haccepts.1 haccepts.2
  | opByte o n =>
    change Sound { d.begin o [.number n.toNat] with assembler := d.assembler.opByte o n }
    exact h.beginByte _ _ n haccepts.1 (.of_eq rfl) haccepts.2 (code_opByte _ o n) rfl
  | opShort o n =>
    change Sound { d.begin o [.number n.toNat] with assembler := d.assembler.opShort o n }
    exact h.beginShort _ _ n haccepts.1 (.of_eq rfl) haccepts.2 (code_opShort _ o n) rfl
  | jump o =>
    have hshort : o.layout.firstIsShort := by
      rw [haccepts.2.1]
      rfl
    change Sound { d.begin o [.ahead none] with
      assembler := d.assembler.opShort o Assembler.unpatched }
    exact h.beginShort _ _ _ haccepts.1 (.of_eq rfl) hshort (code_opShort _ o _) rfl
  | loopTo target => exact h.loopTo haccepts hfits
  | named o s => exact h.named haccepts hfits
  | constant c => exact h.constant haccepts hfits
  | byte n =>
    obtain ⟨w, hhalf, hlayout⟩ := haccepts
    change Sound { d.complete (.number n.toNat) with assembler := d.assembler.byte n }
    apply h.complete (a := d.assembler.byte n) hhalf Array.toList_push rfl
    · intro high low
      rw [hlayout]
      rfl
    · rfl
  | short n =>
    obtain ⟨w, hhalf, hlayout⟩ := haccepts
    change Sound { d.complete (.number n.toNat) with assembler := d.assembler.short n }
    apply h.complete (a := d.assembler.short n) hhalf (code_short _ n) rfl
    · intro high low
      rw [hlayout]
      rfl
    · rw [decodeShort_encodeShort]
      rfl
  | addConstant c =>
    exact h.keeps (Assembler.enters_addConstant hfits).code (.addConstant _ c)
  | name s =>
    exact h.keeps (Assembler.enters_nameIndex h.room hfits).code (.nameIndex _ s)
  | patch operand => exact h.patch haccepts hfits

/-- Calls in their places that can be encoded leave the code as it was asked for. -/
theorem Sound.performAll (h : d.Sound) (hfollows : d.Follows calls)
    (hfits : ∀ before call after, calls = before ++ call :: after →
      ¬ (d.assembler.performAll before).Overflows call) :
    (d.performAll calls).Sound ∧ (d.performAll calls).half = none := by
  induction calls generalizing d with
  | nil => exact ⟨h, hfollows⟩
  | cons call calls ih =>
    obtain ⟨haccepts, hfollows⟩ := hfollows
    apply ih (h.perform haccepts (hfits [] call calls rfl)) hfollows
    rintro before called after rfl
    exact hfits (call :: before) called after rfl

end Draft

/-! ## What is finished -/

/-- What an assembler guarantees to calls in their places. -/
structure Draft.AssemblyGuarantees (d : Draft) (calls : List Call) : Prop where
  refused : (∃ e, (d.assembler.performAll calls).finish = .error e) ↔
    ∃ before call after, calls = before ++ call :: after ∧
      (d.assembler.performAll before).Overflows call
  /-- The rows of the code are the instructions that were asked for, in their order. -/
  rows : ∀ p, (d.assembler.performAll calls).finish = .ok p →
    Listing.starts p.code = (d.performAll calls).written.map Written.start ∧
    ∀ w ∈ (d.performAll calls).written, w.Stands p.code p.constants
  /-- The index that a call returned leads to the text it was for. -/
  names : ∀ p, (d.assembler.performAll calls).finish = .ok p →
    ∀ before s after, calls = before ++ .name s :: after →
      p.constants[((d.assembler.performAll before).nameIndex s).2.toNat]? = some (.text s)
  constants : ∀ p, (d.assembler.performAll calls).finish = .ok p →
    ∀ before c after, calls = before ++ .addConstant c :: after →
      p.constants[((d.assembler.performAll before).addConstant c).2.toNat]? = some c
  /-- The bytes of a call have the line that was in force. -/
  lines : ∀ p, (d.assembler.performAll calls).finish = .ok p → p.lines.size = p.code.size ∧
    ∀ before call after, calls = before ++ call :: after →
      ∀ i, (d.assembler.performAll before).offset ≤ i →
        i < (d.assembler.performAll (before ++ [call])).offset →
        p.lines[i]? = some (lineAfter d.assembler.line before)

namespace Assembler

variable {a : Assembler} {calls : List Call} {p : Prototype}

theorem finish_eq_error_iff (ha : a.errors = #[]) :
    (∃ e, (a.performAll calls).finish = .error e) ↔
      ∃ before call after, calls = before ++ call :: after ∧
        (a.performAll before).Overflows call := by
  rw [finish_eq_error, Ne, errors_performAll, not_and]
  constructor
  · intro h
    simpa using h ha
  · rintro ⟨before, call, after, heq, hoverflows⟩ - hfits
    exact hfits before call after heq hoverflows

theorem fits_of_finish (h : (a.performAll calls).finish = .ok p) {before after : List Call}
    {call : Call} (heq : calls = before ++ call :: after) :
    ¬ (a.performAll before).Overflows call :=
  (errors_performAll.mp (finish_eq_ok h).1).2 before call after heq

/-- An entry that a call made or found is still there in the end. -/
theorem entry_finish (h : (a.performAll calls).finish = .ok p) {before after : List Call}
    {call : Call} {c : Constant} {n : Nat} (heq : calls = before ++ call :: after)
    (hentry : ((a.performAll before).perform call).pool[n]? = some c) :
    p.constants[n]? = some c := by
  rw [(finish_eq_ok h).2.2.1, heq, performAll_append, performAll_cons]
  exact (Grows.performAll _ after).pool n c hentry

theorem lines_finish (ha : a.lines.size = a.offset) (h : (a.performAll calls).finish = .ok p) :
    p.lines.size = p.code.size ∧ ∀ before call after, calls = before ++ call :: after →
      ∀ i, (a.performAll before).offset ≤ i → i < (a.performAll (before ++ [call])).offset →
        p.lines[i]? = some (lineAfter a.line before) := by
  obtain ⟨-, hcode, -, hlines⟩ := finish_eq_ok h
  rw [hlines, hcode]
  refine ⟨(lines_performAll ha calls).1, ?_⟩
  rintro before call after rfl i hle hlt
  have hbefore := (lines_performAll ha before).1
  obtain ⟨hsize, -, hforced⟩ := lines_perform hbefore call
  rw [performAll_append, performAll_cons, performAll_nil] at hlt
  rw [performAll_append, performAll_cons, (lines_performAll hsize after).2 i hlt,
    hforced i hle hlt, line_performAll]

end Assembler

namespace Draft

theorem Sound.rows {d : Draft} {p : Prototype} (h : d.Sound) (hhalf : d.half = none)
    (hfinish : d.assembler.finish = .ok p) :
    Listing.starts p.code = d.written.map Written.start ∧
    ∀ w ∈ d.written, w.Stands p.code p.constants := by
  obtain ⟨bytes, tail, hbytes, hspread, hpending⟩ := h.code
  rw [hhalf] at hpending
  cases hpending
  obtain ⟨-, hcode, hconstants, -⟩ := Assembler.finish_eq_ok hfinish
  rw [hcode, hconstants]
  have hall : d.assembler.code.toList = [] ++ bytes := hbytes.trans (List.append_nil bytes)
  exact hspread.rows rfl hall

theorem assemblyGuarantees {name : String} {arity : UInt8} {isAsync : Bool} {calls : List Call}
    (h : (opened name arity isAsync).Follows calls) :
    (opened name arity isAsync).AssemblyGuarantees calls where
  refused := Assembler.finish_eq_error_iff rfl
  rows p hfinish := by
    obtain ⟨hsound, hhalf⟩ := (opened_sound name arity isAsync).performAll h
      fun _ _ _ heq => Assembler.fits_of_finish hfinish heq
    rw [← assembler_performAll] at hfinish
    exact hsound.rows hhalf hfinish
  names p hfinish before s after heq := by
    apply Assembler.entry_finish hfinish heq
    have hroom := (Grows.performAll (opened name arity isAsync).assembler before).room
      (Nat.zero_le _)
    exact (Assembler.enters_nameIndex hroom (Assembler.fits_of_finish hfinish heq)).index
  constants p hfinish before c after heq := by
    apply Assembler.entry_finish hfinish heq
    exact (Assembler.enters_addConstant (Assembler.fits_of_finish hfinish heq)).index
  lines p hfinish := Assembler.lines_finish rfl hfinish

/-- A loop whose condition jumps over its body: a module is imported under another name, and a
method of it is invoked. -/
def sampleCalls : List Call := [
  .setLine 4, .op .pushTrue, .jump .jumpIfFalse, .op .pop, .constant (.text "x"),
  .setLine 5, .named .importModuleAs "m", .name "x", .short 0, .named .invoke "run", .byte 1,
  .loopTo 0, .patch 2, .op .pop, .addConstant .nil, .op .ret]

theorem assemblyGuarantees_sample : (opened "main" 0 false).AssemblyGuarantees sampleCalls ∧
    ∃ p, ((opened "main" 0 false).assembler.performAll sampleCalls).finish = .ok p ∧
      Listing.starts p.code = [0, 1, 4, 5, 7, 12, 16, 19, 20] := by
  have hguarantees : (opened "main" 0 false).AssemblyGuarantees sampleCalls := by
    apply assemblyGuarantees
    refine ⟨trivial, ⟨rfl, rfl⟩, ⟨rfl, rfl, nofun⟩, ⟨rfl, rfl⟩, rfl, trivial, ⟨?_, rfl⟩, trivial,
      ⟨⟨7, .importModuleAs, [.entry (.text "m")]⟩, ?_, rfl⟩, ⟨?_, rfl⟩,
      ⟨⟨12, .invoke, [.entry (.text "run")]⟩, ?_, rfl⟩, ⟨?_, Nat.zero_le _⟩,
      ⟨⟨1, .jumpIfFalse, [.ahead none]⟩, List.mem_of_getElem? (i := 1) ?_, rfl, rfl, nofun⟩,
      ⟨?_, rfl⟩, trivial, ⟨?_, rfl⟩, ?_⟩
    all_goals with_unfolding_all rfl
  have hfinish := Assembler.finish_of_errors
    (a := (opened "main" 0 false).assembler.performAll sampleCalls) (by decide +kernel)
  refine ⟨hguarantees, _, hfinish, (hguarantees.rows _ hfinish).1.trans ?_⟩
  with_unfolding_all rfl

end Draft
end FiberMachine
