import FiberMachine.Code.File
import FiberMachine.Proofs.Json.Records

/-!
# Code files that are read back

The tree of a prototype is written in either layout of a JSON text, and from both the prototype is
read back, with the functions among its constants, when the text has no more levels than a reader
goes through. When it has more, it is refused.
-/

namespace FiberMachine

open JsonText
open JsonValue (ReadsBack blank_gap blank_afterColon)

mutual

/-- How many lists and objects are open at the deepest place of a constant's text. -/
def Constant.levels : Constant → Nat
  | .nil => 0
  | .function p => p.levels + 1
  | _ => 1

/-- The levels of a prototype are its object, its lists and what is in the list of constants. -/
def Prototype.levels : Prototype → Nat
  | ⟨_, _, _, _, constants, _⟩ => Constant.levelsOfAll constants + 2

def Constant.levelsOfAll : List Constant → Nat
  | [] => 0
  | c :: cs => max c.levels (Constant.levelsOfAll cs)

end

mutual

/-- A constant in which all numbers are finite and of a given kind. -/
def Constant.Legible (Good : Float → Prop) : Constant → Prop
  | .number x => x.isFinite ∧ Good x
  | .function p => p.Legible Good
  | _ => True

def Prototype.Legible (Good : Float → Prop) : Prototype → Prop
  | ⟨_, _, _, _, constants, _⟩ => Constant.LegibleAll Good constants

def Constant.LegibleAll (Good : Float → Prop) : List Constant → Prop
  | [] => True
  | c :: cs => c.Legible Good ∧ Constant.LegibleAll Good cs

end

namespace Constant

variable {cs : List Constant} {n : Nat} {Good : Float → Prop}

theorem legibleAll_iff : LegibleAll Good cs ↔ ∀ c ∈ cs, c.Legible Good := by
  induction cs with
  | nil => simp [LegibleAll]
  | cons c cs ih => simp [LegibleAll, ih]

theorem levelsOfAll_le : levelsOfAll cs ≤ n ↔ ∀ c ∈ cs, c.levels ≤ n := by
  induction cs with
  | nil => simp [levelsOfAll]
  | cons c cs ih => simp [levelsOfAll, ih]

theorem exists_lt_levels (h : n < levelsOfAll cs) : ∃ c ∈ cs, n < c.levels := by
  simpa [levelsOfAll_le] using Nat.not_le.mpr h

end Constant

namespace CodeFile

theorem constantTrees_eq (cs : List Constant) : constantTrees cs = cs.map constantTree := by
  induction cs with
  | nil => rfl
  | cons c cs ih => rw [constantTrees, ih, List.map_cons]

variable {function : Reader Prototype} {layout : JsonText.Layout} {depth level : Nat}

theorem write_tree (name : String) (arity : UInt8) (isAsync : Bool) (code : Array UInt8)
    (constants : List Constant) (lines : Array UInt32) :
    (tree ⟨name, arity, isAsync, code, constants, lines⟩).write layout level =
      objectIn layout level [
        ("name", quote name),
        ("arity", naturalText arity.toNat),
        ("is_async", boolText isAsync),
        ("code", listIn layout (level + 1) (code.toList.map fun b => naturalText b.toNat)),
        ("constants", listIn layout (level + 1)
          (constants.map fun c => (constantTree c).write layout (level + 2))),
        ("lines", listIn layout (level + 1) (lines.toList.map fun n => naturalText n.toNat))] := by
  rw [tree, write_object]
  simp only [List.map_cons, List.map_nil, write_array, List.map_map, constantTrees_eq,
    Function.comp_def, JsonTree.write]

theorem opens_constantTree (c : Constant) : Opens ']' ((constantTree c).write layout level) := by
  cases c with
  | nil => exact ⟨'"', _, rfl, rfl, by decide⟩
  | bool | number | text | function =>
    exact ⟨'\x7b', _, write_object layout level _, rfl, by decide⟩

theorem opens_naturalText (n : Nat) : Opens ']' (naturalText n) := by
  obtain ⟨c, ds, hcons⟩ := List.exists_cons_of_ne_nil (Nat.toDigits_ne_nil (n := n) (b := 10))
  have hc : c.isDigit := isDigit_naturalText n c (by rw [naturalText, hcons]; exact .head _)
  refine ⟨c, ds, hcons, isBlank_of_isDigit hc, ?_⟩
  rintro rfl
  cases hc

/-! ## Words of a code file -/

theorem takes_byte (b : UInt8) : Takes byte (naturalText b.toNat) b := by
  have h := (takes_natural (Nat.le_of_lt_succ b.toNat_lt) (by decide)).map UInt8.ofNat
  rwa [UInt8.ofNat_toNat] at h

theorem takes_lineNumber (n : UInt32) : Takes lineNumber (naturalText n.toNat) n := by
  have h := (takes_natural (Nat.le_of_lt_succ n.toNat_lt) (by decide)).map UInt32.ofNat
  rwa [UInt32.ofNat_toNat] at h

theorem takes_bytes (layout : JsonText.Layout) (level depth : Nat) (bytes : Array UInt8) :
    Takes (listOf byte (depth + 1))
      (listIn layout level (bytes.toList.map fun b => naturalText b.toNat)) bytes := by
  have hbytes : ∀ b ∈ bytes.toList, Takes byte (naturalText b.toNat) b ∧
      Opens ']' (naturalText b.toNat) := fun b _ => ⟨takes_byte b, opens_naturalText b.toNat⟩
  exact takes_listOf layout level depth hbytes

theorem takes_lineNumbers (layout : JsonText.Layout) (level depth : Nat) (lines : Array UInt32) :
    Takes (listOf lineNumber (depth + 1))
      (listIn layout level (lines.toList.map fun n => naturalText n.toNat)) lines := by
  have hlines : ∀ n ∈ lines.toList, Takes lineNumber (naturalText n.toNat) n ∧
      Opens ']' (naturalText n.toNat) := fun n _ => ⟨takes_lineNumber n, opens_naturalText n.toNat⟩
  exact takes_listOf layout level depth hlines

/-! ## Constants -/

theorem takes_nil (function : Reader Prototype) (depth : Nat) :
    Takes (constant function depth) (quote "Nil") .nil :=
  takes_token rfl fun _ line _ => ⟨line, rfl⟩

/-- A constant with its kind before it is read as its content is. -/
theorem constant_brace {name : String} {content : Reader Constant}
    (hkind : content? function name = some content) (layout : JsonText.Layout) (depth level : Nat)
    (cs rest : List Char) (line : Nat) :
    ∃ line', constant function (depth + 1) ⟨objectIn layout level [(name, cs)] ++ rest, line⟩ =
      (do
        let c ← content
        if (← peekToken) = some '\x7d' then
          discard
          pure c
        else failHere : Reader Constant)
        ⟨layout.afterColon ++ (cs ++ (layout.gap level ++ '\x7d' :: rest)), line'⟩ := by
  rw [objectIn_singleton]
  simp only [List.cons_append, List.append_assoc, List.nil_append]
  obtain ⟨line₁, h₁⟩ := takes_string name (layout.gap (level + 1)) (':' :: (layout.afterColon ++
    (cs ++ (layout.gap level ++ '\x7d' :: rest)))) (Cursor.lineAfter '\x7b' line)
    (blank_gap layout (level + 1)) (ends_cons rfl (by decide) rfl _)
  have hcolon := closing_apply (c := ':') rfl (layout.afterColon ++
    (cs ++ (layout.gap level ++ '\x7d' :: rest))) line₁
  refine ⟨Cursor.lineAfter ':' line₁, (bind_of_ok (peekToken_cons rfl _ line)).trans ?_⟩
  simp only [Nat.add_eq_zero_iff, Nat.succ_ne_self, and_false, ↓reduceIte, discard_bind]
  refine (bind_of_ok h₁).trans ?_
  simp only [hkind]
  exact bind_of_ok hcolon

/-- So a constant is taken when its content is taken. -/
theorem takes_constant {name : String} {content : Reader Constant} {c : Constant} {t : JsonTree}
    (hkind : content? function name = some content)
    (h : Takes content (t.write layout (level + 1)) c) :
    Takes (constant function (depth + 1)) (JsonTree.write layout level (.object [(name, t)])) c := by
  rw [write_object]
  refine takes_token rfl fun rest line hends => ?_
  obtain ⟨line₁, h₁⟩ := constant_brace hkind layout depth level _ rest line
  obtain ⟨line₂, h₂⟩ := h layout.afterColon (layout.gap level ++ '\x7d' :: rest) line₁
    (blank_afterColon layout) (ends_gap (blank_gap layout level) (ends_brace rest))
  obtain ⟨line₃, h₃⟩ := peekToken_blank (blank_gap layout level) (c := '\x7d') rfl rest line₂
  exact ⟨_, h₁.trans ((bind_of_ok h₂).trans (bind_of_ok h₃))⟩

theorem refuses_constant {name : String} {content : Reader Constant} {t : JsonTree}
    (hkind : content? function name = some content)
    (h : Refuses content (t.write layout (level + 1))) :
    Refuses (constant function (depth + 1)) (JsonTree.write layout level (.object [(name, t)])) := by
  rw [write_object]
  refine refuses_token rfl fun rest line hends => ?_
  obtain ⟨line₁, h₁⟩ := constant_brace hkind layout depth level _ rest line
  obtain ⟨e, he⟩ := h layout.afterColon (layout.gap level ++ '\x7d' :: rest) line₁
    (blank_afterColon layout) (ends_gap (blank_gap layout level) (ends_brace rest))
  exact ⟨e, h₁.trans (bind_of_error he)⟩

theorem refuses_constant_zero (es : List (String × JsonTree)) :
    Refuses (constant function 0) (JsonTree.write layout level (.object es)) := by
  rw [write_object]
  exact refuses_token rfl fun _ line _ => ⟨_, bind_of_ok (peekToken_cons rfl _ line)⟩

/-! ## Prototypes -/

/-- The reader of the functions inside a prototype. -/
def inner : Nat → Reader Prototype
  | depth + 1 => prototype depth
  | 0 => failAtNext

theorem prototype_eq (depth : Nat) :
    prototype (depth + 2) = prototypeWith (inner depth) (depth + 2) := by
  cases depth <;> rfl

section

variable {name : String} {arity : UInt8} {isAsync : Bool} {code : Array UInt8}
  {constants : List Constant} {lines : Array UInt32} {texts : List (List Char)}

theorem fills_fields (h : Takes (listOf (constant function depth) (depth + 1))
    (listIn layout level texts) constants.toArray) :
    Fills (fields function (depth + 1)) [] default [
      ("name", quote name),
      ("arity", naturalText arity.toNat),
      ("is_async", boolText isAsync),
      ("code", listIn layout level (code.toList.map fun b => naturalText b.toNat)),
      ("constants", listIn layout level texts),
      ("lines", listIn layout level (lines.toList.map fun n => naturalText n.toNat))]
      ⟨name, arity, isAsync, code, constants, lines⟩ := by
  refine .next rfl rfl ((takes_string name).map _) ?_
  refine .next rfl rfl ((takes_byte arity).map _) ?_
  refine .next rfl rfl ((takes_bool isAsync).map _) ?_
  refine .next rfl rfl ((takes_bytes layout level depth code).map _) ?_
  refine .next rfl rfl (h.map _) ?_
  refine .next rfl rfl ((takes_lineNumbers layout level depth lines).map _) ?_
  exact .done rfl

/-- Without a level to spare the list of code bytes is not read. -/
theorem breaks_code (es : List (String × List Char)) :
    Breaks (fields function 0) [] default (
      ("name", quote name) :: ("arity", naturalText arity.toNat) ::
      ("is_async", boolText isAsync) ::
      ("code", listIn layout level texts) :: es) := by
  refine .next rfl rfl ((takes_string name).map _) ?_
  refine .next rfl rfl ((takes_byte arity).map _) ?_
  refine .next rfl rfl ((takes_bool isAsync).map _) ?_
  exact .here rfl rfl (refuses_listOf_zero layout level texts).bind

theorem breaks_constants (h : Refuses (listOf (constant function depth) (depth + 1))
    (listIn layout level texts)) (es : List (String × List Char)) :
    Breaks (fields function (depth + 1)) [] default (
      ("name", quote name) :: ("arity", naturalText arity.toNat) ::
      ("is_async", boolText isAsync) ::
      ("code", listIn layout level (code.toList.map fun b => naturalText b.toNat)) ::
      ("constants", listIn layout level texts) :: es) := by
  refine .next rfl rfl ((takes_string name).map _) ?_
  refine .next rfl rfl ((takes_byte arity).map _) ?_
  refine .next rfl rfl ((takes_bool isAsync).map _) ?_
  refine .next rfl rfl ((takes_bytes layout level depth code).map _) ?_
  exact .here rfl rfl h.bind

end

/-! ## Files within the limit -/

mutual

theorem takes_constantTree (layout : JsonText.Layout) : ∀ (c : Constant) (depth level : Nat),
    c.Legible ReadsBack → c.levels ≤ depth →
    Takes (constant (inner depth) depth) ((constantTree c).write layout level) c
  | .nil, depth, _, _, _ => takes_nil (inner depth) depth
  | .bool b, _ + 1, _, _, _ => takes_constant rfl ((takes_bool b).map _)
  | .number _, _ + 1, _, hc, _ => takes_constant rfl ((takes_double hc.2).map _)
  | .text s, _ + 1, _, _, _ => takes_constant rfl ((takes_string s).map _)
  | .function p, depth + 1, level, hc, hd =>
    takes_constant rfl ((takes_tree layout p depth (level + 1) hc
      (Nat.le_of_succ_le_succ hd)).map _)

theorem takes_tree (layout : JsonText.Layout) : ∀ (p : Prototype) (depth level : Nat),
    p.Legible ReadsBack → p.levels ≤ depth → Takes (prototype depth) ((tree p).write layout level) p
  | ⟨name, arity, isAsync, code, constants, lines⟩, depth + 2, level, hp, hd => by
    have hd := Nat.le_of_add_le_add_right hd
    have hlist := takes_listOf layout (level + 1) depth fun c hc =>
      ⟨takes_constants layout constants depth (level + 2) hp hd c hc,
        opens_constantTree c⟩
    rw [prototype_eq, write_tree]
    exact (fills_fields hlist).takes_record layout level (depth + 1)

theorem takes_constants (layout : JsonText.Layout) : ∀ (cs : List Constant) (depth level : Nat),
    Constant.LegibleAll ReadsBack cs → Constant.levelsOfAll cs ≤ depth →
    ∀ c ∈ cs, Takes (constant (inner depth) depth) ((constantTree c).write layout level) c
  | [], _, _, _, _ => nofun
  | c :: cs, depth, level, hc, hd => List.forall_mem_cons.mpr
    ⟨takes_constantTree layout c depth level hc.1 (Nat.max_le.mp hd).1,
      takes_constants layout cs depth level hc.2 (Nat.max_le.mp hd).2⟩

end

theorem parse_render {p : Prototype} (hp : p.Legible ReadsBack) (hd : p.levels ≤ maxDepth)
    (layout : JsonText.Layout) : parse ((tree p).render layout) = .ok p := by
  obtain ⟨line, h⟩ := takes_tree layout p maxDepth 0 hp hd [] [] 1 nofun nofun
  simp only [List.nil_append, List.append_nil] at h
  simp only [parse, JsonTree.render, run, Cursor.start, String.toList_ofList, StateT.run,
    bind_of_ok h]
  rfl

/-! ## Files beyond the limit -/

mutual

theorem refuses_constantTree (layout : JsonText.Layout) : ∀ (c : Constant) (depth level : Nat),
    c.Legible ReadsBack → depth < c.levels →
    Refuses (constant (inner depth) depth) ((constantTree c).write layout level)
  | .nil, _, _, _, hd => absurd hd (Nat.not_lt_zero _)
  | .bool _, 0, _, _, _ | .number _, 0, _, _, _ | .text _, 0, _, _, _ | .function _, 0, _, _, _ =>
    refuses_constant_zero _
  | .bool _, _ + 1, _, _, hd | .number _, _ + 1, _, _, hd | .text _, _ + 1, _, _, hd =>
    absurd (Nat.lt_of_succ_lt_succ hd) (Nat.not_lt_zero _)
  | .function p, depth + 1, level, hc, hd =>
    refuses_constant rfl (refuses_tree layout p depth (level + 1) hc
      (Nat.lt_of_succ_lt_succ hd)).bind

theorem refuses_tree (layout : JsonText.Layout) : ∀ (p : Prototype)
    (depth level : Nat), p.Legible ReadsBack → depth < p.levels →
    Refuses (prototype depth) ((tree p).write layout level)
  | ⟨_, _, _, _, _, _⟩, 0, level, _, _ => by
    rw [write_tree]
    exact refuses_record_zero layout level _
  | ⟨_, _, _, _, _, _⟩, 1, level, _, _ => by
    rw [write_tree]
    exact (breaks_code _).refuses_record layout level 0
  | ⟨name, arity, isAsync, code, constants, lines⟩, depth + 2, level, hp, hd => by
    have hd := Nat.lt_of_add_lt_add_right hd
    obtain ⟨bad, hbad, hdeep⟩ := Constant.exists_lt_levels hd
    have hrefuses := refuses_constants layout constants depth (level + 2) hp
    have hlist := refuses_listOf layout (level + 1) depth
      (fun c _ => opens_constantTree c) (fun c hc => by
        obtain hlt | hle := Nat.lt_or_ge depth c.levels
        · exact .inr (hrefuses c hc hlt)
        · exact .inl (takes_constantTree layout c depth _ (Constant.legibleAll_iff.mp hp c hc)
            hle)) ⟨bad, hbad, hrefuses bad hbad hdeep⟩
    rw [prototype_eq, write_tree]
    exact (breaks_constants hlist _).refuses_record layout level (depth + 1)

theorem refuses_constants (layout : JsonText.Layout) : ∀ (cs : List Constant)
    (depth level : Nat), Constant.LegibleAll ReadsBack cs → ∀ c ∈ cs, depth < c.levels →
    Refuses (constant (inner depth) depth) ((constantTree c).write layout level)
  | [], _, _, _ => nofun
  | c :: cs, depth, level, hc => List.forall_mem_cons.mpr
    ⟨refuses_constantTree layout c depth level hc.1,
      refuses_constants layout cs depth level hc.2⟩

end

theorem parse_render_error {p : Prototype} (hp : p.Legible ReadsBack) (hd : maxDepth < p.levels)
    (layout : JsonText.Layout) : ∃ e, parse ((tree p).render layout) = .error e := by
  obtain ⟨e, he⟩ := refuses_tree layout p maxDepth 0 hp hd [] [] 1 nofun nofun
  simp only [List.nil_append, List.append_nil] at he
  refine ⟨e, ?_⟩
  simp only [parse, JsonTree.render, run, Cursor.start, String.toList_ofList, StateT.run,
    bind_of_error he]

end CodeFile

end FiberMachine
