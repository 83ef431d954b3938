import FiberMachine.Code.Assembler
import FiberMachine.Proofs.Code.Rows
import Mathlib.Data.List.Forall2

/-!
# Code as a row of segments

Each instruction takes a segment of the code: its opcode and the bytes of its operands. Code that
is made of the segments of some instructions has these instructions as its rows, the first one at
offset zero and each other one where the one before it ends.
-/

namespace FiberMachine

open Listing (Shown rowAt starts startsFrom shownAt byteAt shortAt)

/-- The numbers in the operand bytes of an instruction. -/
def Layout.numbers : Layout → List UInt8 → Option (List Nat)
  | .none, [] => some []
  | .byte, [b] => some [b.toNat]
  | .short, [high, low] | .jump, [high, low] => some [(decodeShort high low).toNat]
  | .shortShort, [high, low, high', low'] =>
    some [(decodeShort high low).toNat, (decodeShort high' low').toNat]
  | .shortByte, [high, low, b] => some [(decodeShort high low).toNat, b.toNat]
  | _, _ => Option.none

/-- The numbers that a row shows. -/
def Listing.Shown.numbers : Shown → List Nat
  | .nothing => []
  | .number n | .constant n => [n]
  | .jump distance _ => [distance]
  | .pair name other => [name, other]
  | .member name argc => [name, argc]

/-- What the operand of an instruction means. -/
inductive Meaning where
  | number (n : Nat)
  /-- The index of a constant in the pool. -/
  | entry (c : Constant)
  /-- The distance of a jump forward, whose target is known once it is patched. -/
  | ahead (target : Option Nat)
  | back (target : Nat)

/-- Whether a number has a meaning. The distance of a jump counts from the end of its operand. -/
def Meaning.Holds (pool : List Constant) (next : Nat) : Meaning → Nat → Prop
  | number m, n => n = m
  | entry c, n => pool[n]? = some c
  | ahead none, n => n = Assembler.unpatched.toNat
  | ahead (some target), n => next + n = target
  | back target, n => target + n = next

/-- An instruction that was written at an offset. -/
structure Written where
  start : Nat
  op : Opcode
  operands : List Meaning

namespace Written

/-- Where the operand of a jump ends. -/
def next (w : Written) : Nat := w.start + 3

/-- The row at the offset of an instruction shows it, with operands that mean what they should. -/
def Stands (code : Array UInt8) (pool : List Constant) (w : Written) : Prop :=
  ∃ shown, rowAt code w.start = .instruction w.op shown ∧
    List.Forall₂ (Meaning.Holds pool w.next) w.operands shown.numbers

/-- The bytes of a segment are those of an instruction. -/
def Laid (pool : List Constant) (w : Written) (segment : List UInt8) : Prop :=
  ∃ bytes ns, segment = w.op.toByte :: bytes ∧ w.op.layout.numbers bytes = some ns ∧
    List.Forall₂ (Meaning.Holds pool w.next) w.operands ns

end Written

/-- The segments of some instructions, one behind the other from an offset on. -/
inductive Spread (pool : List Constant) : Nat → List Written → List UInt8 → Prop
  | nil (start : Nat) : Spread pool start [] []
  | cons {w : Written} {ws : List Written} {segment bytes : List UInt8} : w.Laid pool segment →
      Spread pool (w.start + segment.length) ws bytes →
      Spread pool w.start (w :: ws) (segment ++ bytes)

variable {code : Array UInt8} {pool pool' : List Constant} {op : Opcode} {w : Written}
  {ws ws' : List Written} {bytes bytes' segment : List UInt8} {ns : List Nat} {start : Nat}

/-! ## From segments to rows -/

theorem Layout.length_of_numbers {layout : Layout} (h : layout.numbers bytes = some ns) :
    bytes.length = layout.width := by
  unfold Layout.numbers at h
  split at h <;> first | rfl | cases h

theorem Listing.shortAt_eq {offset : Nat} {high low : UInt8} (hhigh : code[offset]? = some high)
    (hlow : code[offset + 1]? = some low) : shortAt code offset = (decodeShort high low).toNat := by
  simp [shortAt, decodeShort?, hhigh, hlow]

theorem Listing.byteAt_eq {offset : Nat} {b : UInt8} (hb : code[offset]? = some b) :
    byteAt code offset = b.toNat := by
  simp [byteAt, hb]

theorem Listing.numbers_shownAt {offset : Nat} (hns : op.layout.numbers bytes = some ns)
    (hcode : ∀ i < bytes.length, code[offset + 1 + i]? = bytes[i]?) :
    (shownAt code op offset).numbers = ns := by
  have hshort : ∀ i high low, bytes[i]? = some high → bytes[i + 1]? = some low →
      shortAt code (offset + 1 + i) = (decodeShort high low).toNat := by
    intro i high low hhigh hlow
    have hlt := (List.getElem?_eq_some_iff.mp hlow).1
    exact shortAt_eq ((hcode i (by omega)).trans hhigh) ((hcode (i + 1) hlt).trans hlow)
  have hbyte : ∀ i b, bytes[i]? = some b → byteAt code (offset + 1 + i) = b.toNat := by
    intro i b hb
    exact byteAt_eq ((hcode i (List.getElem?_eq_some_iff.mp hb).1).trans hb)
  unfold Layout.numbers at hns
  split at hns <;> cases hns
  all_goals
    rename_i hl
    simp only [shownAt, hl]
  case h_1 => rfl
  case h_2 b =>
    rw [hbyte 0 b rfl]
    split <;> rfl
  case h_3 high low =>
    rw [hshort 0 high low rfl rfl]
    split <;> rfl
  case h_4 high low => rw [hshort 0 high low rfl rfl, Shown.numbers]
  case h_5 high low high' low' =>
    rw [hshort 0 high low rfl rfl, hshort 2 high' low' rfl rfl, Shown.numbers]
  case h_6 high low b => rw [hshort 0 high low rfl rfl, hbyte 2 b rfl, Shown.numbers]

theorem Listing.rowAt_segment {pre post : List UInt8}
    (hcode : code.toList = pre ++ (op.toByte :: bytes) ++ post)
    (hns : op.layout.numbers bytes = some ns) :
    ∃ shown, rowAt code pre.length = .instruction op shown ∧ shown.numbers = ns := by
  have hlength := Layout.length_of_numbers hns
  have hsize : op.size = 1 + bytes.length := by rw [Opcode.size, hlength]
  have hbyte : code[pre.length]? = some op.toByte := by
    rw [← Array.getElem?_toList, hcode]
    simp
  have hrest : ∀ i < bytes.length, code[pre.length + 1 + i]? = bytes[i]? := by
    intro i hi
    have hsegment : (pre ++ [op.toByte]).length = pre.length + 1 := by simp
    have hsplit : code.toList = pre ++ [op.toByte] ++ (bytes ++ post) := by simp [hcode]
    rw [← Array.getElem?_toList, hsplit, List.getElem?_append_right (by omega), hsegment,
      Nat.add_sub_cancel_left, List.getElem?_append_left hi]
  have hwithin : ¬ code.size < pre.length + op.size := by
    rw [← Array.length_toList, hcode, hsize]
    simp
    omega
  refine ⟨shownAt code op pre.length, ?_, numbers_shownAt hns hrest⟩
  simp only [rowAt, hbyte, Opcode.ofByte?_toByte, if_neg hwithin]

namespace Written

theorem Laid.length_eq (h : w.Laid pool segment) : segment.length = w.op.size := by
  obtain ⟨bytes, ns, rfl, hns, -⟩ := h
  rw [List.length_cons, Layout.length_of_numbers hns, Opcode.size, Nat.add_comm]

theorem Laid.length_pos (h : w.Laid pool segment) : 0 < segment.length := by
  rw [h.length_eq, Opcode.size]
  omega

end Written

/-- The rows of code that ends with the segments of some instructions. -/
theorem Spread.rows (h : Spread pool start ws bytes) {pre : List UInt8} (hpre : pre.length = start)
    (hcode : code.toList = pre ++ bytes) :
    startsFrom code start = ws.map Written.start ∧ ∀ w ∈ ws, w.Stands code pool := by
  induction h generalizing pre with
  | nil start =>
    have hsize : code.size = start := by rw [← Array.length_toList, hcode, List.append_nil, hpre]
    exact ⟨Listing.startsFrom_of_le (Nat.le_of_eq hsize), nofun⟩
  | @cons w ws segment bytes hlaid _ ih =>
    have hlength := hlaid.length_eq
    have hpos := hlaid.length_pos
    obtain ⟨operands, ns, rfl, hns, hmeans⟩ := hlaid
    rw [← List.append_assoc] at hcode
    obtain ⟨shown, hrow, rfl⟩ := Listing.rowAt_segment hcode hns
    rw [hpre] at hrow
    obtain ⟨hstarts, hrest⟩ := ih (by rw [List.length_append, hpre]) hcode
    refine ⟨?_, List.forall_mem_cons.mpr ⟨⟨shown, hrow, hmeans⟩, hrest⟩⟩
    have hlt : w.start < code.size := by
      rw [← Array.length_toList, hcode, List.length_append, List.length_append, hpre]
      omega
    rw [Listing.startsFrom_of_lt hlt, hrow, Listing.Row.next, ← hlength, hstarts, List.map_cons]

/-! ## Writing and patching -/

/-- A pool holds what another one holds. -/
def Extends (pool pool' : List Constant) : Prop :=
  ∀ (n : Nat) (c : Constant), pool[n]? = some c → pool'[n]? = some c

theorem Meaning.Holds.mono (hpool : Extends pool pool') {next : Nat} {meaning : Meaning} {n : Nat}
    (h : meaning.Holds pool next n) : meaning.Holds pool' next n := by
  cases meaning with
  | entry c => exact hpool n c h
  | ahead target => cases target <;> exact h
  | number | back => exact h

namespace Spread

theorem mono (hpool : Extends pool pool') (h : Spread pool start ws bytes) :
    Spread pool' start ws bytes := by
  induction h with
  | nil start => exact .nil start
  | cons hlaid _ ih =>
    obtain ⟨operands, ns, hbytes, hns, hmeans⟩ := hlaid
    exact .cons ⟨operands, ns, hbytes, hns, hmeans.imp fun _ _ => .mono hpool⟩ ih

theorem append (h : Spread pool start ws bytes)
    (h' : Spread pool (start + bytes.length) ws' bytes') :
    Spread pool start (ws ++ ws') (bytes ++ bytes') := by
  induction h with
  | nil start => exact h'
  | cons hlaid _ ih =>
    rw [List.cons_append, List.append_assoc]
    apply Spread.cons hlaid
    apply ih
    rwa [Nat.add_assoc, ← List.length_append]

/-- One more instruction is written behind the others. -/
theorem snoc (h : Spread pool 0 ws bytes) (hstart : w.start = bytes.length)
    (hlaid : w.Laid pool segment) : Spread pool 0 (ws ++ [w]) (bytes ++ segment) := by
  refine h.append ?_
  have hone := Spread.cons hlaid (.nil _)
  rwa [List.append_nil, hstart, ← Nat.zero_add bytes.length] at hone

theorem start_le (h : Spread pool start ws bytes) (hw : w ∈ ws) :
    start ≤ w.start ∧ w.start + w.op.size ≤ start + bytes.length := by
  induction h with
  | nil => cases hw
  | @cons u ws segment bytes hlaid _ ih =>
    have hlength := hlaid.length_eq
    rw [List.length_append]
    rcases List.mem_cons.mp hw with rfl | hw
    · omega
    · have := ih hw
      omega

end Spread

/-- An instruction after a jump has been patched, if it is that jump. -/
def Written.patched (place target : Nat) (w : Written) : Written :=
  if w.start + 1 = place then { w with operands := [.ahead (some target)] } else w

theorem Written.patched_of_ne {place target : Nat} (h : w.start + 1 ≠ place) :
    w.patched place target = w := if_neg h

theorem Layout.numbers_jump {bytes : List UInt8} (h : Layout.jump.numbers bytes = some ns) :
    ∃ high low, bytes = [high, low] := by
  unfold Layout.numbers at h
  split at h <;> cases h <;> first | contradiction | exact ⟨_, _, rfl⟩

theorem Spread.patch (h : Spread pool start ws bytes) (hw : w ∈ ws) (hjump : w.op.layout = .jump)
    {high low : UInt8} {target : Nat} (hdistance : w.next + (decodeShort high low).toNat = target) :
    Spread pool start (ws.map (Written.patched (w.start + 1) target))
      ((bytes.set (w.start + 1 - start) high).set (w.start + 2 - start) low) := by
  induction h with
  | nil => cases hw
  | @cons u ws segment bytes hlaid hrest ih =>
    have hpos := hlaid.length_pos
    rcases List.mem_cons.mp hw with rfl | hw
    · obtain ⟨operands, ns, rfl, hns, -⟩ := hlaid
      obtain ⟨high', low', rfl⟩ := Layout.numbers_jump (hjump ▸ hns)
      have hothers : ws.map (Written.patched (w.start + 1) target) = ws := by
        refine (List.map_congr_left fun v hv => ?_).trans (List.map_id ws)
        have hbehind := (hrest.start_le hv).1
        exact Written.patched_of_ne (by omega)
      have hbytes : (([w.op.toByte, high', low'] ++ bytes).set (w.start + 1 - w.start) high).set
          (w.start + 2 - w.start) low = [w.op.toByte, high, low] ++ bytes := by
        rw [Nat.add_sub_cancel_left, Nat.add_sub_cancel_left]
        rfl
      rw [List.map_cons, hothers, hbytes, Written.patched, if_pos rfl]
      refine Spread.cons (w := { w with operands := [.ahead (some target)] }) ?_ hrest
      exact ⟨[high, low], [_], rfl, congrArg (Layout.numbers · [high, low]) hjump,
        .cons hdistance .nil⟩
    · have hbehind := (hrest.start_le hw).1
      have hbytes : ((segment ++ bytes).set (w.start + 1 - u.start) high).set
          (w.start + 2 - u.start) low = segment ++
          (bytes.set (w.start + 1 - (u.start + segment.length)) high).set
            (w.start + 2 - (u.start + segment.length)) low := by
        rw [List.set_append_right _ _ (by omega), List.set_append_right _ _ (by omega),
          Nat.sub_sub, Nat.sub_sub]
      rw [List.map_cons, hbytes, Written.patched_of_ne (by omega)]
      exact .cons hlaid (ih hw)

end FiberMachine
