import FiberMachine.Decimal.Text
import FiberMachine.Json.Quoted

/-!
# JSON trees

What a JSON text holds, with the entries of an object in the order of the text and with whole
numbers apart from doubles, and its two written forms.
-/

namespace FiberMachine

namespace JsonText

/-- How the parts of a list or an object are set apart. -/
inductive Layout where
  | compact
  | indented

namespace Layout

/-- What stands before an item at a level. -/
def gap : Layout → Nat → List Char
  | .compact, _ => []
  | .indented, level => '\n' :: List.replicate (2 * level) ' '

def afterColon : Layout → List Char
  | .compact => []
  | .indented => [' ']

end Layout

def boolText (b : Bool) : List Char := if b then ['t', 'r', 'u', 'e'] else ['f', 'a', 'l', 's', 'e']

def naturalText (n : Nat) : List Char := Nat.toDigits 10 n

/-- A double that is not finite is written as null. -/
def numberText (x : Float) : List Char := ((Double.json? x).getD "null").toList

end JsonText

inductive JsonTree where
  | null
  | bool (b : Bool)
  | natural (n : Nat)
  | double (x : Float)
  | text (s : String)
  | array (items : List JsonTree)
  | object (entries : List (String × JsonTree))

namespace JsonTree

open JsonText

mutual

def write (layout : Layout) (level : Nat) : JsonTree → List Char
  | .null => ['n', 'u', 'l', 'l']
  | .bool b => boolText b
  | .natural n => naturalText n
  | .double x => numberText x
  | .text s => quote s
  | .array [] => ['[', ']']
  | .array (item :: items) =>
    '[' :: layout.gap (level + 1) ++ write layout (level + 1) item
      ++ writeItems layout (level + 1) items ++ layout.gap level ++ [']']
  | .object [] => ['\x7b', '\x7d']
  | .object (entry :: entries) =>
    '\x7b' :: layout.gap (level + 1) ++ writeEntry layout (level + 1) entry
      ++ writeEntries layout (level + 1) entries ++ layout.gap level ++ ['\x7d']

/-- The items behind the first one. -/
def writeItems (layout : Layout) (level : Nat) : List JsonTree → List Char
  | [] => []
  | item :: items =>
    ',' :: layout.gap level ++ write layout level item ++ writeItems layout level items

def writeEntry (layout : Layout) (level : Nat) : String × JsonTree → List Char
  | (key, tree) => quote key ++ ':' :: layout.afterColon ++ write layout level tree

/-- The entries behind the first one. -/
def writeEntries (layout : Layout) (level : Nat) : List (String × JsonTree) → List Char
  | [] => []
  | entry :: entries =>
    ',' :: layout.gap level ++ writeEntry layout level entry
      ++ writeEntries layout level entries

end

def render (layout : Layout) (t : JsonTree) : String := String.ofList (t.write layout 0)

end JsonTree

end FiberMachine
