import FiberMachine.Code.Prototype
import FiberMachine.Json.Record

/-!
# Code files

A code file is a prototype as a JSON record. A constant is the name of its kind
with the constant behind it; nil needs its name only.
-/

namespace FiberMachine

namespace CodeFile

open JsonText

def byte : Reader UInt8 := return UInt8.ofNat (← natural 255)

def lineNumber : Reader UInt32 := return UInt32.ofNat (← natural 4294967295)

def null : Reader Unit := do
  if (← peekToken) = some 'n' then
    discard
    word ['u', 'l', 'l']
  else wrongType

/-- The reader of what stands behind the name of a kind, if there is such a kind. -/
def content? (function : Reader Prototype) : String → Option (Reader Constant)
  | "Nil" => some (do null; pure .nil)
  | "Bool" => some (return .bool (← bool))
  | "Number" => some (return .number (← number))
  | "String" => some (return .text (← string))
  | "Function" => some (return .function (← function))
  | _ => none

/-- A constant in a list. The bare name of a kind that holds something is an
error, found when the list is given up. -/
def constant (function : Reader Prototype) (depth : Nat) : Reader Constant := do
  match ← peekToken with
  | some '\x7b' =>
    if depth = 0 then failAtNext
    else
      discard
      match content? function (← string) with
      | none => failHere
      | some content =>
        colon
        let c ← content
        if (← peekToken) = some '\x7d' then
          discard
          pure c
        else failHere
  | some '"' =>
    let name ← text
    if name = "Nil" then pure .nil
    else if (content? function name).isSome then failAfterList
    else failHere
  | _ => failAtNext

def fields (function : Reader Prototype) (depth : Nat) : List (JsonText.Field Prototype) := [
  ⟨"name", true, fun p => return { p with name := ← string }⟩,
  ⟨"arity", true, fun p => return { p with arity := ← byte }⟩,
  ⟨"is_async", false, fun p => return { p with isAsync := ← bool }⟩,
  ⟨"code", true, fun p => return { p with code := ← listOf byte depth }⟩,
  ⟨"constants", true, fun p => return { p with
    constants := (← listOf (constant function (depth - 1)) depth).toList }⟩,
  ⟨"lines", false, fun p => return { p with lines := ← listOf lineNumber depth }⟩]

/-- A prototype with a reader for the functions among its constants. -/
def prototypeWith (function : Reader Prototype) (depth : Nat) : Reader Prototype :=
  record (fields function (depth - 1)) default depth

/-- A prototype, its list of constants and a constant are one level each. -/
def prototype : Nat → Reader Prototype
  | depth + 3 => prototypeWith (prototype depth) (depth + 3)
  | depth => prototypeWith failAtNext depth

def parse (s : String) : Except SyntaxError Prototype := run (prototype maxDepth) s

mutual

/-- The name of a kind, with the constant behind it. -/
def constantTree : Constant → JsonTree
  | .nil => .text "Nil"
  | .bool b => .object [("Bool", .bool b)]
  | .number x => .object [("Number", .double x)]
  | .text s => .object [("String", .text s)]
  | .function p => .object [("Function", tree p)]

/-- The fields of a prototype in their order. -/
def tree : Prototype → JsonTree
  | ⟨name, arity, isAsync, code, constants, lines⟩ => .object [
    ("name", .text name),
    ("arity", .natural arity.toNat),
    ("is_async", .bool isAsync),
    ("code", .array (code.toList.map fun b => .natural b.toNat)),
    ("constants", .array (constantTrees constants)),
    ("lines", .array (lines.toList.map fun n => .natural n.toNat))]

def constantTrees : List Constant → List JsonTree
  | [] => []
  | c :: cs => constantTree c :: constantTrees cs

end

end CodeFile

end FiberMachine
