import FiberMachine.Json.Cursor

/-!
# Quoted text

Inside quotes a quote, a backslash and the control characters are written with a
backslash. A reader also takes any UTF-16 unit as four hexadecimal digits, and
two such escapes for a character outside the basic plane.
-/

namespace FiberMachine.JsonText

def hexDigit (n : Nat) : Char := (Nat.digitChar n)

def hexValue? (c : Char) : Option Nat :=
  if c.isDigit then some (c.toNat - '0'.toNat)
  else if 'a' ≤ c && c ≤ 'f' then some (c.toNat - 'a'.toNat + 10)
  else if 'A' ≤ c && c ≤ 'F' then some (c.toNat - 'A'.toNat + 10)
  else none

/-- The unit that four hexadecimal digits stand for. -/
def unit? (a b c d : Char) : Option Nat := do
  return (((← hexValue? a) * 16 + (← hexValue? b)) * 16 + (← hexValue? c)) * 16 + (← hexValue? d)

def isLeading (n : Nat) : Bool := 0xd800 ≤ n && n ≤ 0xdbff

def isTrailing (n : Nat) : Bool := 0xdc00 ≤ n && n ≤ 0xdfff

def pairedChar (leading trailing : Nat) : Char :=
  Char.ofNat ((leading - 0xd800) * 0x400 + (trailing - 0xdc00) + 0x10000)

/-- The character written by a backslash and the given letter. -/
def unescape? : Char → Option Char
  | '"' => some '"'
  | '\\' => some '\\'
  | '/' => some '/'
  | 'b' => some '\x08'
  | 'f' => some '\x0c'
  | 'n' => some '\n'
  | 'r' => some '\r'
  | 't' => some '\t'
  | _ => none

def isControl (c : Char) : Bool := c.toNat < 0x20

/-- The line of the error when no second escape follows that pairs with a
leading unit. -/
def lineUnpaired (rest : List Char) (line : Nat) : Nat :=
  match rest with
  | '\\' :: 'u' :: rest => Cursor.lineAfterBytes 4 rest line
  | '\\' :: rest => Cursor.lineAfterBytes 1 rest line
  | rest => Cursor.lineAfterBytes 1 rest line

/-- The text up to the closing quote, behind the characters already read. -/
def textFrom : List Char → Nat → List Char → Except SyntaxError (List Char × Cursor)
  | [], line, _ => .error ⟨line⟩
  | ['\\'], line, _ => .error ⟨line⟩
  | '\\' :: 'u' :: a :: b :: c :: d :: rest, line, seen =>
    match unit? a b c d with
    | none => .error ⟨Cursor.lineAfterBytes 4 (a :: b :: c :: d :: rest) line⟩
    | some n =>
      if isTrailing n then .error ⟨line⟩
      else if isLeading n then
        match rest with
        | '\\' :: 'u' :: a :: b :: c :: d :: rest =>
          match unit? a b c d with
          | none => .error ⟨Cursor.lineAfterBytes 4 (a :: b :: c :: d :: rest) line⟩
          | some t =>
            if isTrailing t then textFrom rest line (pairedChar n t :: seen)
            else .error ⟨line⟩
        | rest => .error ⟨lineUnpaired rest line⟩
      else textFrom rest line (Char.ofNat n :: seen)
  | '\\' :: 'u' :: rest, line, _ => .error ⟨Cursor.lineAfterBytes 4 rest line⟩
  | '\\' :: e :: rest, line, seen =>
    match unescape? e with
    | some c => textFrom rest line (c :: seen)
    | none => .error ⟨Cursor.lineAfter e line⟩
  | c :: rest, line, seen =>
    if c = '"' then .ok (seen.reverse, ⟨rest, line⟩)
    else if isControl c then .error ⟨Cursor.lineAfter c line⟩
    else textFrom rest line (c :: seen)

/-- Passes over a text. Units need not pair, and a control character ends the
reading before it is taken. -/
def skipTextFrom : List Char → Nat → Except SyntaxError Cursor
  | [], line => .error ⟨line⟩
  | ['\\'], line => .error ⟨line⟩
  | '\\' :: 'u' :: a :: b :: c :: d :: rest, line =>
    match unit? a b c d with
    | none => .error ⟨Cursor.lineAfterBytes 4 (a :: b :: c :: d :: rest) line⟩
    | some _ => skipTextFrom rest line
  | '\\' :: 'u' :: rest, line => .error ⟨Cursor.lineAfterBytes 4 rest line⟩
  | '\\' :: e :: rest, line =>
    if (unescape? e).isSome then skipTextFrom rest line else .error ⟨Cursor.lineAfter e line⟩
  | c :: rest, line =>
    if c = '"' then .ok ⟨rest, line⟩
    else if isControl c then .error ⟨line⟩
    else skipTextFrom rest line

/-- The text behind an opening quote that has been peeked at. -/
def text : Reader String := fun cursor =>
  match textFrom cursor.advance.rest cursor.line [] with
  | .ok (cs, after) => .ok (String.ofList cs, after)
  | .error e => .error e

def skipText : Reader Unit := fun cursor =>
  match skipTextFrom cursor.advance.rest cursor.line with
  | .ok after => .ok ((), after)
  | .error e => .error e

def escape (c : Char) : List Char :=
  if c = '"' then ['\\', '"']
  else if c = '\\' then ['\\', '\\']
  else if c = '\x08' then ['\\', 'b']
  else if c = '\x0c' then ['\\', 'f']
  else if c = '\n' then ['\\', 'n']
  else if c = '\r' then ['\\', 'r']
  else if c = '\t' then ['\\', 't']
  else if isControl c then
    ['\\', 'u', '0', '0', hexDigit (c.toNat / 16), hexDigit (c.toNat % 16)]
  else [c]

/-- The written form of a text. -/
def quote (s : String) : List Char := '"' :: s.toList.flatMap escape ++ ['"']

end FiberMachine.JsonText
