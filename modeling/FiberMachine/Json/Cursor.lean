/-!
# Reading a JSON text

A reader goes through the characters of a text and counts its lines. An error
holds no more than a line: either the one reached by the characters already
taken, or the one reached by taking the next character too.
-/

namespace FiberMachine.JsonText

structure SyntaxError where
  line : Nat
deriving DecidableEq, Repr

structure Cursor where
  rest : List Char
  line : Nat
deriving DecidableEq, Repr

namespace Cursor

def start (text : String) : Cursor := ⟨text.toList, 1⟩

def lineAfter (c : Char) (line : Nat) : Nat := if c = '\n' then line + 1 else line

/-- The cursor behind the next character; at the end it stays. -/
def advance (cursor : Cursor) : Cursor :=
  match cursor.rest with
  | [] => cursor
  | c :: rest => ⟨rest, lineAfter c cursor.line⟩

def isBlank (c : Char) : Bool := c = ' ' || c = '\n' || c = '\t' || c = '\r'

def skipBlankFrom : List Char → Nat → Cursor
  | [], line => ⟨[], line⟩
  | c :: rest, line =>
    if isBlank c then skipBlankFrom rest (lineAfter c line) else ⟨c :: rest, line⟩

def skipBlank (cursor : Cursor) : Cursor := skipBlankFrom cursor.rest cursor.line

/-- The line reached by taking a number of bytes, or all if there are fewer. -/
def lineAfterBytes : Nat → List Char → Nat → Nat
  | _, [], line => line
  | n, c :: rest, line =>
    if n = 0 then line else lineAfterBytes (n - c.utf8Size) rest (lineAfter c line)

end Cursor

abbrev Reader := StateT Cursor (Except SyntaxError)

/-- How many lists and objects may be open at once. -/
def maxDepth : Nat := 127

def failHere {α : Type} : Reader α := fun cursor => .error ⟨cursor.line⟩

def failAtNext {α : Type} : Reader α := fun cursor => .error ⟨cursor.advance.line⟩

def peek : Reader (Option Char) := fun cursor => .ok (cursor.rest.head?, cursor)

def take : Reader (Option Char) := fun cursor => .ok (cursor.rest.head?, cursor.advance)

def discard : Reader Unit := fun cursor => .ok ((), cursor.advance)

def blanks : Reader Unit := fun cursor => .ok ((), cursor.skipBlank)

/-- The next character that is not blank. -/
def peekToken : Reader (Option Char) := do
  blanks
  peek

/-- The rest of a word whose first character has been taken. -/
def word : List Char → Reader Unit
  | [] => pure ()
  | c :: cs => do
    if (← take) = some c then word cs else failHere

/-- An upper bound for the number of steps when one of two takes a character. -/
def steps : Reader Nat := fun cursor => .ok (2 * cursor.rest.length + 2, cursor)

/-- Whether a list has another element; its first one needs no comma. -/
def hasElement (first : Bool) : Reader Bool := do
  match ← peekToken with
  | some ']' => pure false
  | some c =>
    if first then pure true
    else if c = ',' then do
      discard
      match ← peekToken with
      | some ']' | none => failAtNext
      | some _ => pure true
    else failAtNext
  | none => failAtNext

/-- Whether an object has another key; if so, its opening quote is next. -/
def hasKey (first : Bool) : Reader Bool := do
  match ← peekToken with
  | some '\x7d' => pure false
  | some c =>
    if first then (if c = '"' then pure true else failAtNext)
    else if c = ',' then do
      discard
      if (← peekToken) = some '"' then pure true else failAtNext
    else failAtNext
  | none => failAtNext

def closing (c : Char) : Reader Unit := do
  if (← peekToken) = some c then discard else failAtNext

def endList : Reader Unit := do
  match ← peekToken with
  | some ']' => discard
  | some ',' => do
    discard
    blanks
    failAtNext
  | _ => failAtNext

def endObject : Reader Unit := closing '\x7d'

def colon : Reader Unit := closing ':'

/-- Fails on the line where an attempt to end the list stops. -/
def failAfterList {α : Type} : Reader α := do
  if (← peekToken) = some ',' then
    discard
    blanks
  failHere

/-- Fails on the line where an attempt to end the object stops. -/
def failAfterObject {α : Type} : Reader α := do
  blanks
  failHere

def endOfText : Reader Unit := do
  if (← peekToken).isSome then failAtNext

/-- Reads a whole text. -/
def run {α : Type} (reader : Reader α) (text : String) : Except SyntaxError α :=
  match (do let a ← reader; endOfText; pure a : Reader α).run (.start text) with
  | .ok (a, _) => .ok a
  | .error e => .error e

/-- The elements of a list whose bracket has been taken. -/
def elements {α : Type} (element : Reader α) : Nat → Bool → Array α → Reader (Array α)
  | 0, _, _ => failHere
  | fuel + 1, first, seen => do
    if ← hasElement first then
      let a ← element
      elements element fuel false (seen.push a)
    else pure seen

end FiberMachine.JsonText
