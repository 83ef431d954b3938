import FiberMachine.Json.Library
import FiberMachine.Proofs.Code.Files
import FiberMachine.Proofs.Json.Libraries

/-!
# Formats of code files

A library goes from code to trees and back by one rule for each field and each kind of constants.
From these rules it follows that the tree of a prototype stands for it, whatever functions are
among its constants, and so that the file of a prototype is read back.
-/

namespace FiberMachine

open JsonText

/-- The object of the fields of a prototype, in their order. -/
def fieldsTree (name : String) (arity : Nat) (isAsync : Bool) (code : List Nat)
    (constants : List JsonTree) (lines : List Nat) : JsonTree :=
  .object [
    ("name", .text name),
    ("arity", .natural arity),
    ("is_async", .bool isAsync),
    ("code", .array (code.map .natural)),
    ("constants", .array constants),
    ("lines", .array (lines.map .natural))]

/-- What a library makes of code and of trees. -/
structure CodeFormat where
  encode : Prototype → JsonTree
  encodeConstant : Constant → JsonTree
  decode : JsonTree → Option Prototype
  decodeConstant : JsonTree → Option Constant
  print : JsonText.Layout → JsonTree → String

/-- The rules for trees. A prototype is an object of its fields, each number within the limit of
its field, and a constant is an object with the name of its kind, or only the name. -/
structure CodeFormat.Lawful (f : CodeFormat) : Prop where
  encode : ∀ name arity isAsync code constants lines,
    f.encode ⟨name, arity, isAsync, code, constants, lines⟩ =
      fieldsTree name arity.toNat isAsync (code.toList.map UInt8.toNat)
        (constants.map f.encodeConstant) (lines.toList.map UInt32.toNat)
  encode_nil : f.encodeConstant .nil = .text "Nil"
  encode_bool : ∀ b, f.encodeConstant (.bool b) = .object [("Bool", .bool b)]
  encode_number : ∀ x, f.encodeConstant (.number x) = .object [("Number", .double x)]
  encode_text : ∀ s, f.encodeConstant (.text s) = .object [("String", .text s)]
  encode_function : ∀ p, f.encodeConstant (.function p) = .object [("Function", f.encode p)]
  decode : ∀ {name arity isAsync code trees constants lines}, arity ≤ 255 →
    (∀ b ∈ code, b ≤ 255) → (∀ n ∈ lines, n ≤ 4294967295) →
    List.Forall₂ (fun t c => f.decodeConstant t = some c) trees constants →
    f.decode (fieldsTree name arity isAsync code trees lines) =
      some ⟨name, .ofNat arity, isAsync, (code.map UInt8.ofNat).toArray, constants,
        (lines.map UInt32.ofNat).toArray⟩
  decode_nil : f.decodeConstant (.text "Nil") = some .nil
  decode_bool : ∀ b, f.decodeConstant (.object [("Bool", .bool b)]) = some (.bool b)
  decode_number : ∀ x, f.decodeConstant (.object [("Number", .double x)]) = some (.number x)
  decode_text : ∀ s, f.decodeConstant (.object [("String", .text s)]) = some (.text s)
  decode_function : ∀ {t p}, f.decode t = some p →
    f.decodeConstant (.object [("Function", t)]) = some (.function p)

/-- A library that keeps to a format. The text of a tree is read as what the tree stands for, if
its numbers are read back and no more than 127 lists and objects are open at any place; what has
more levels is refused. -/
structure JsonLibrary.Follows (lib : JsonLibrary) (f : CodeFormat) : Prop extends f.Lawful where
  writes : ∀ layout p, lib.writeCode layout p = f.print layout (f.encode p)
  reads : ∀ {t p} layout, f.decode t = some p → t.Legible lib.ReadsBack → t.levels ≤ maxDepth →
    lib.readCode (f.print layout t) = .ok p
  refuses : ∀ {t p} layout, f.decode t = some p → t.Legible lib.ReadsBack → maxDepth < t.levels →
    ∃ e, lib.readCode (f.print layout t) = .error e

/-! ## The tree of a prototype -/

namespace CodeFormat.Lawful

variable {f : CodeFormat} {Good : Float → Prop}

mutual

/-- The tree of a prototype stands for it. -/
theorem decode_encode (hf : f.Lawful) : ∀ p : Prototype, f.decode (f.encode p) = some p
  | ⟨name, arity, isAsync, code, constants, lines⟩ => by
    have hcode : ∀ b ∈ code.toList.map UInt8.toNat, b ≤ 255 :=
      List.forall_mem_map.mpr fun b _ => Nat.le_of_lt_succ b.toNat_lt
    have hlines : ∀ n ∈ lines.toList.map UInt32.toNat, n ≤ 4294967295 :=
      List.forall_mem_map.mpr fun n _ => Nat.le_of_lt_succ n.toNat_lt
    rw [hf.encode, hf.decode (Nat.le_of_lt_succ arity.toNat_lt) hcode hlines
      (decode_constants hf constants)]
    simp [Function.comp_def]

theorem decode_constant (hf : f.Lawful) : ∀ c : Constant, f.decodeConstant (f.encodeConstant c) = some c
  | .nil => by rw [hf.encode_nil, hf.decode_nil]
  | .bool b => by rw [hf.encode_bool, hf.decode_bool]
  | .number x => by rw [hf.encode_number, hf.decode_number]
  | .text s => by rw [hf.encode_text, hf.decode_text]
  | .function p => by rw [hf.encode_function, hf.decode_function (decode_encode hf p)]

theorem decode_constants (hf : f.Lawful) : ∀ cs : List Constant,
    List.Forall₂ (fun t c => f.decodeConstant t = some c) (cs.map f.encodeConstant) cs
  | [] => .nil
  | c :: cs => .cons (decode_constant hf c) (decode_constants hf cs)

end

theorem legible_naturals (ns : List Nat) : JsonTree.LegibleItems Good (ns.map .natural) :=
  JsonTree.legibleItems_iff.mpr (List.forall_mem_map.mpr fun _ _ => trivial)

mutual

/-- The numbers in the tree are the ones in the prototype. -/
theorem legible_encode (hf : f.Lawful) : ∀ p : Prototype,
    (f.encode p).Legible Good ↔ p.Legible Good
  | ⟨name, arity, isAsync, code, constants, lines⟩ => by
    rw [hf.encode]
    simp only [fieldsTree, JsonTree.Legible, JsonTree.LegibleEntries, Prototype.Legible,
      legible_naturals, legible_constants hf constants, true_and, and_true]

theorem legible_constant (hf : f.Lawful) : ∀ c : Constant,
    (f.encodeConstant c).Legible Good ↔ c.Legible Good
  | .nil => by
    rw [hf.encode_nil]
    exact .rfl
  | .bool b => by
    rw [hf.encode_bool]
    exact and_iff_left trivial
  | .number x => by
    rw [hf.encode_number]
    exact and_iff_left trivial
  | .text s => by
    rw [hf.encode_text]
    exact and_iff_left trivial
  | .function p => by
    rw [hf.encode_function]
    exact (and_iff_left trivial).trans (legible_encode hf p)

theorem legible_constants (hf : f.Lawful) : ∀ cs : List Constant,
    JsonTree.LegibleItems Good (cs.map f.encodeConstant) ↔ Constant.LegibleAll Good cs
  | [] => .rfl
  | c :: cs => and_congr (legible_constant hf c) (legible_constants hf cs)

end

theorem levels_naturals (ns : List Nat) : JsonTree.levelsOfItems (ns.map .natural) = 0 :=
  Nat.le_zero.mp (JsonTree.levelsOfItems_le.mpr (List.forall_mem_map.mpr fun _ _ => Nat.le_refl 0))

mutual

theorem levels_encode (hf : f.Lawful) : ∀ p : Prototype, (f.encode p).levels = p.levels
  | ⟨name, arity, isAsync, code, constants, lines⟩ => by
    rw [hf.encode]
    simp only [fieldsTree, JsonTree.levels, JsonTree.levelsOfEntries, Prototype.levels,
      levels_naturals, levels_constants hf constants]
    omega

theorem levels_constant (hf : f.Lawful) : ∀ c : Constant, (f.encodeConstant c).levels = c.levels
  | .nil => by
    rw [hf.encode_nil]
    rfl
  | .bool b => by
    rw [hf.encode_bool]
    rfl
  | .number x => by
    rw [hf.encode_number]
    rfl
  | .text s => by
    rw [hf.encode_text]
    rfl
  | .function p => by
    rw [hf.encode_function]
    simp [JsonTree.levels, JsonTree.levelsOfEntries, Constant.levels, levels_encode hf p]

theorem levels_constants (hf : f.Lawful) : ∀ cs : List Constant,
    JsonTree.levelsOfItems (cs.map f.encodeConstant) = Constant.levelsOfAll cs
  | [] => rfl
  | c :: cs => by
    rw [List.map_cons, JsonTree.levelsOfItems, levels_constant hf c, levels_constants hf cs,
      Constant.levelsOfAll]

end

end CodeFormat.Lawful

/-! ## The standard format -/

namespace CodeFile

/-- Whole numbers up to a limit. -/
def naturals? (limit : Nat) : List JsonTree → Option (List Nat)
  | [] => some []
  | .natural n :: rest => if n ≤ limit then (naturals? limit rest).map (n :: ·) else none
  | _ :: _ => none

theorem naturals?_eq_some {limit : Nat} {ts : List JsonTree} {ns : List Nat} :
    naturals? limit ts = some ns ↔ ts = ns.map .natural ∧ ∀ n ∈ ns, n ≤ limit := by
  induction ts generalizing ns with
  | nil => cases ns <;> simp [naturals?]
  | cons t ts ih =>
    cases t with
    | natural n =>
      simp only [naturals?, Option.ite_none_right_eq_some, Option.map_eq_some_iff, ih]
      constructor
      · rintro ⟨hn, rest, ⟨rfl, hrest⟩, rfl⟩
        exact ⟨rfl, List.forall_mem_cons.mpr ⟨hn, hrest⟩⟩
      · rintro ⟨he, hns⟩
        cases ns with
        | nil => cases he
        | cons m rest =>
          cases he
          exact ⟨(List.forall_mem_cons.mp hns).1, rest, ⟨rfl, (List.forall_mem_cons.mp hns).2⟩, rfl⟩
    | _ => cases ns <;> simp [naturals?]

mutual

/-- The prototype that a tree stands for, if its fields come in their order. -/
def prototype? : JsonTree → Option Prototype
  | .object [(k₁, .text name), (k₂, .natural arity), (k₃, .bool isAsync), (k₄, .array code),
      (k₅, .array constants), (k₆, .array lines)] =>
    if [k₁, k₂, k₃, k₄, k₅, k₆] = ["name", "arity", "is_async", "code", "constants", "lines"] ∧
        arity ≤ 255 then
      match naturals? 255 code, constants? constants, naturals? 4294967295 lines with
      | some code, some constants, some lines =>
        some ⟨name, .ofNat arity, isAsync, (code.map UInt8.ofNat).toArray, constants,
          (lines.map UInt32.ofNat).toArray⟩
      | _, _, _ => none
    else none
  | _ => none

def constant? : JsonTree → Option Constant
  | .text s => if s = "Nil" then some .nil else none
  | .object [(kind, content)] =>
    match content with
    | .bool b => if kind = "Bool" then some (.bool b) else none
    | .double x => if kind = "Number" then some (.number x) else none
    | .text s => if kind = "String" then some (.text s) else none
    | content => if kind = "Function" then (prototype? content).map .function else none
  | _ => none

def constants? : List JsonTree → Option (List Constant)
  | [] => some []
  | t :: ts =>
    match constant? t, constants? ts with
    | some c, some cs => some (c :: cs)
    | _, _ => none

end

theorem tree_eq (name : String) (arity : UInt8) (isAsync : Bool) (code : Array UInt8)
    (constants : List Constant) (lines : Array UInt32) :
    tree ⟨name, arity, isAsync, code, constants, lines⟩ =
      fieldsTree name arity.toNat isAsync (code.toList.map UInt8.toNat)
        (constants.map constantTree) (lines.toList.map UInt32.toNat) := by
  rw [tree, fieldsTree, constantTrees_eq, List.map_map, List.map_map]
  rfl

theorem prototype?_fieldsTree {name : String} {arity : Nat} {isAsync : Bool} {code lines : List Nat}
    {trees : List JsonTree} {constants : List Constant} (harity : arity ≤ 255)
    (hcode : ∀ b ∈ code, b ≤ 255) (hlines : ∀ n ∈ lines, n ≤ 4294967295)
    (hconstants : constants? trees = some constants) :
    prototype? (fieldsTree name arity isAsync code trees lines) =
      some ⟨name, .ofNat arity, isAsync, (code.map UInt8.ofNat).toArray, constants,
        (lines.map UInt32.ofNat).toArray⟩ := by
  have hcode := naturals?_eq_some.mpr ⟨rfl, hcode⟩
  have hlines := naturals?_eq_some.mpr ⟨rfl, hlines⟩
  simp only [fieldsTree, prototype?, harity, and_self, ↓reduceIte, hcode, hconstants, hlines]

theorem constants?_of_forall₂ {trees : List JsonTree} {constants : List Constant}
    (h : List.Forall₂ (fun t c => constant? t = some c) trees constants) :
    constants? trees = some constants := by
  induction h with
  | nil => rw [constants?]
  | cons hc _ ih => simp only [constants?, hc, ih]

theorem map_toNat_ofNat {α : Type} {f : Nat → α} {g : α → Nat} {ns : List Nat}
    (h : ∀ n ∈ ns, g (f n) = n) : (ns.map f).map g = ns := by
  rw [List.map_map]
  exact (List.map_congr_left h).trans (List.map_id ns)

theorem exists_trees {t : JsonTree} {p : Prototype} (h : prototype? t = some p) :
    ∃ trees, constants? trees = some p.constants ∧
      t = fieldsTree p.name p.arity.toNat p.isAsync (p.code.toList.map UInt8.toNat) trees
        (p.lines.toList.map UInt32.toNat) := by
  unfold prototype? at h
  split at h
  · rename_i trees _ _
    split at h
    · rename_i hfields
      split at h
      · rename_i code _ lines hcode hconstants hlines
        cases h
        obtain ⟨hkeys, harity⟩ := hfields
        cases hkeys
        obtain ⟨rfl, hbyte⟩ := naturals?_eq_some.mp hcode
        obtain ⟨rfl, hline⟩ := naturals?_eq_some.mp hlines
        refine ⟨trees, hconstants, ?_⟩
        have hbytes : (code.map UInt8.ofNat).map UInt8.toNat = code :=
          map_toNat_ofNat fun b hb => UInt8.toNat_ofNat_of_lt' (Nat.lt_succ_of_le (hbyte b hb))
        have hnumbers : (lines.map UInt32.ofNat).map UInt32.toNat = lines :=
          map_toNat_ofNat fun n hn => UInt32.toNat_ofNat_of_lt' (Nat.lt_succ_of_le (hline n hn))
        rw [hbytes, hnumbers, UInt8.toNat_ofNat_of_lt' (Nat.lt_succ_of_le harity)]
        rfl
      · cases h
    · cases h
  · cases h

/-- A tree that stands for a constant has the name of its kind. -/
theorem constant?_cases {t : JsonTree} {c : Constant} (h : constant? t = some c) :
    t = constantTree c ∨
      ∃ p content, c = .function p ∧ prototype? content = some p ∧
        t = .object [("Function", content)] := by
  unfold constant? at h
  split at h
  · obtain ⟨rfl, rfl⟩ := (Option.ite_none_right_eq_some.trans (and_congr_right' Option.some_inj)).mp h
    exact .inl rfl
  · split at h
    · obtain ⟨rfl, hc⟩ := Option.ite_none_right_eq_some.mp h
      cases hc
      exact .inl rfl
    · obtain ⟨rfl, hc⟩ := Option.ite_none_right_eq_some.mp h
      cases hc
      exact .inl rfl
    · obtain ⟨rfl, hc⟩ := Option.ite_none_right_eq_some.mp h
      cases hc
      exact .inl rfl
    · obtain ⟨rfl, hc⟩ := Option.ite_none_right_eq_some.mp h
      obtain ⟨p, hp, rfl⟩ := Option.map_eq_some_iff.mp hc
      exact .inr ⟨p, _, rfl, hp, rfl⟩
  · cases h

theorem constants?_cons {t : JsonTree} {ts : List JsonTree} {cs : List Constant}
    (h : constants? (t :: ts) = some cs) :
    ∃ c rest, cs = c :: rest ∧ constant? t = some c ∧ constants? ts = some rest := by
  rw [constants?] at h
  split at h
  · rename_i c rest hc hrest
    cases h
    exact ⟨c, rest, rfl, hc, hrest⟩
  · cases h

mutual

/-- A tree that stands for a prototype is its tree. -/
theorem eq_tree : ∀ (p : Prototype) {t : JsonTree}, prototype? t = some p → t = tree p
  | ⟨name, arity, isAsync, code, constants, lines⟩, t, h => by
    obtain ⟨trees, hconstants, rfl⟩ := exists_trees h
    rw [tree_eq, eq_constantTrees constants hconstants]

theorem eq_constantTree : ∀ (c : Constant) {t : JsonTree}, constant? t = some c →
    t = constantTree c
  | .function p, t, h => by
    obtain ht | ⟨q, content, hq, hp, rfl⟩ := constant?_cases h
    · exact ht
    · cases hq
      rw [constantTree, eq_tree p hp]
  | .nil, t, h | .bool _, t, h | .number _, t, h | .text _, t, h => by
    obtain ht | ⟨q, content, hq, -, -⟩ := constant?_cases h
    · exact ht
    · cases hq

theorem eq_constantTrees : ∀ (cs : List Constant) {ts : List JsonTree},
    constants? ts = some cs → ts = cs.map constantTree
  | [], [], _ => rfl
  | c :: cs, [], h => by
    rw [constants?] at h
    cases h
  | [], t :: ts, h => by
    obtain ⟨c, rest, hcons, -⟩ := constants?_cons h
    cases hcons
  | c :: cs, t :: ts, h => by
    obtain ⟨c', rest, hcons, hc, hrest⟩ := constants?_cons h
    cases hcons
    rw [List.map_cons, eq_constantTree c hc, eq_constantTrees cs hrest]

end

end CodeFile

/-- The format of the standard library. -/
def CodeFormat.standard : CodeFormat where
  encode := CodeFile.tree
  encodeConstant := CodeFile.constantTree
  decode := CodeFile.prototype?
  decodeConstant := CodeFile.constant?
  print layout t := t.render layout

theorem CodeFormat.lawful_standard : CodeFormat.standard.Lawful where
  encode := CodeFile.tree_eq
  encode_nil := rfl
  encode_bool _ := rfl
  encode_number _ := rfl
  encode_text _ := rfl
  encode_function _ := rfl
  decode harity hcode hlines hconstants :=
    CodeFile.prototype?_fieldsTree harity hcode hlines (CodeFile.constants?_of_forall₂ hconstants)
  decode_nil := by simp [standard, CodeFile.constant?]
  decode_bool b := by simp [standard, CodeFile.constant?]
  decode_number x := by simp [standard, CodeFile.constant?]
  decode_text s := by simp [standard, CodeFile.constant?]
  decode_function {t p} h := by
    obtain rfl := CodeFile.eq_tree p h
    simp only [standard] at h ⊢
    cases p
    simp [CodeFile.tree, CodeFile.constant?] at h ⊢
    exact h

theorem JsonLibrary.follows_standard : JsonLibrary.standard.Follows .standard where
  toLawful := CodeFormat.lawful_standard
  writes _ _ := rfl
  reads {t p} layout h ht hd := by
    obtain rfl := CodeFile.eq_tree p h
    have hp := (CodeFormat.lawful_standard.legible_encode p).mp ht
    exact CodeFile.parse_render (readsBack_standard ▸ hp)
      ((CodeFormat.lawful_standard.levels_encode p).symm.trans_le hd) layout
  refuses {t p} layout h ht hd := by
    obtain rfl := CodeFile.eq_tree p h
    have hp := (CodeFormat.lawful_standard.legible_encode p).mp ht
    exact CodeFile.parse_render_error (readsBack_standard ▸ hp)
      (hd.trans_eq (CodeFormat.lawful_standard.levels_encode p)) layout

/-! ## What is guaranteed -/

namespace CodeFile

/-- What comes of writing a prototype and of reading the file. Its tree stands for it. As long as
it has no more than 127 levels both files give the prototype back, and with more they are
refused. -/
structure FileGuarantees (lib : JsonLibrary) (f : CodeFormat) (p : Prototype) : Prop where
  decoded : f.decode (f.encode p) = some p
  levels : (f.encode p).levels = p.levels
  back : p.levels ≤ maxDepth → ∀ layout, lib.compile (lib.writeCode layout p) = .ok p
  refused : maxDepth < p.levels → ∀ layout, ∃ e, lib.compile (lib.writeCode layout p) = .error e

theorem fileGuarantees {lib : JsonLibrary} {f : CodeFormat} (hf : lib.Follows f) {p : Prototype}
    (hp : p.Legible lib.ReadsBack) : FileGuarantees lib f p where
  decoded := hf.decode_encode p
  levels := hf.levels_encode p
  back hd layout := by
    have hread := hf.reads layout (hf.decode_encode p) ((hf.legible_encode p).mpr hp)
      (hf.levels_encode p ▸ hd)
    rw [JsonLibrary.compile, hf.writes, hread]
    rfl
  refused hd layout := by
    obtain ⟨e, he⟩ := hf.refuses layout (hf.decode_encode p) ((hf.legible_encode p).mpr hp)
      (hf.levels_encode p ▸ hd)
    rw [JsonLibrary.compile, hf.writes, he]
    exact ⟨JsonLibrary.rejection e, rfl⟩

/-- A function with all kinds of constants, one of them a function that holds another one. -/
def nested : Prototype :=
  ⟨"outer \"1\"\n", 2, true, #[1, 0, 255], [.nil, .bool false, .number 1.5, .text "\x01ä/",
    .function ⟨"", 0, false, #[], [.function ⟨"innermost", 255, true, #[0], [], #[7]⟩], #[]⟩],
    #[1, 4294967295]⟩

/-- With the standard library. -/
theorem fileGuarantees_nested :
    JsonLibrary.standard.Follows .standard ∧
    nested.Legible JsonLibrary.standard.ReadsBack ∧ nested.levels = 8 ∧
    FileGuarantees JsonLibrary.standard .standard nested := by
  have hlegible : nested.Legible JsonLibrary.standard.ReadsBack :=
    ⟨trivial, trivial, ⟨by decide +kernel, JsonLibrary.readsBack_oneAndAHalf⟩, trivial,
      ⟨trivial, trivial⟩, trivial⟩
  exact ⟨JsonLibrary.follows_standard, hlegible, rfl,
    fileGuarantees JsonLibrary.follows_standard hlegible⟩

end CodeFile

end FiberMachine
