import FiberMachine.Json.Numeral
import FiberMachine.Json.Tree

/-!
# JSON values

The values of JSON texts, their reader and their two written forms. Objects are
sorted by key, and of two entries with one key the later one counts. Numbers are
doubles; one that is not finite is written as null.
-/

namespace FiberMachine

inductive JsonValue where
  | null
  | bool (b : Bool)
  | number (x : Float)
  | text (s : String)
  | array (items : List JsonValue)
  | object (entries : List (String × JsonValue))

namespace JsonValue

/-- Puts an entry at its place among sorted entries. -/
def insertEntry (key : String) (value : JsonValue) :
    List (String × JsonValue) → List (String × JsonValue)
  | [] => [(key, value)]
  | (k, v) :: rest =>
    if key < k then (key, value) :: (k, v) :: rest
    else if key = k then (key, value) :: rest
    else (k, v) :: insertEntry key value rest

open JsonText

/-- The entries of an object whose brace has been taken. -/
def entries (value : Reader JsonValue) :
    Nat → Bool → List (String × JsonValue) → Reader (List (String × JsonValue))
  | 0, _, _ => failHere
  | fuel + 1, first, seen => do
    if ← hasKey first then
      let key ← JsonText.text
      colon
      let v ← value
      entries value fuel false (insertEntry key v seen)
    else pure seen

/-- The value at the cursor, with readers for the ones that hold others. -/
def valueWith (array object : Reader JsonValue) : Reader JsonValue := do
  match ← peekToken with
  | none => failAtNext
  | some 'n' => do discard; word ['u', 'l', 'l']; pure .null
  | some 't' => do discard; word ['r', 'u', 'e']; pure (.bool true)
  | some 'f' => do discard; word ['a', 'l', 's', 'e']; pure (.bool false)
  | some '"' => return .text (← JsonText.text)
  | some '[' => array
  | some '\x7b' => object
  | some c =>
    match numeral? c with
    | some read => return .number (← read).toFloat
    | none => failAtNext

/-- A value with the given number of levels. -/
def reader : Nat → Reader JsonValue
  | 0 => valueWith failAtNext failAtNext
  | depth + 1 =>
    valueWith
      (do
        discard
        let items ← elements (reader depth) (← steps) true #[]
        endList
        pure (.array items.toList))
      (do
        discard
        let es ← entries (reader depth) (← steps) true []
        endObject
        pure (.object es))

def parse (s : String) : Except SyntaxError JsonValue := run (reader maxDepth) s

mutual

/-- The tree that is written. -/
def tree : JsonValue → JsonTree
  | .null => .null
  | .bool b => .bool b
  | .number x => .double x
  | .text s => .text s
  | .array items => .array (treeItems items)
  | .object entries => .object (treeEntries entries)

def treeItems : List JsonValue → List JsonTree
  | [] => []
  | item :: rest => item.tree :: treeItems rest

def treeEntries : List (String × JsonValue) → List (String × JsonTree)
  | [] => []
  | (key, value) :: rest => (key, value.tree) :: treeEntries rest

end

def render (layout : Layout) (v : JsonValue) : String := v.tree.render layout

end JsonValue

end FiberMachine
