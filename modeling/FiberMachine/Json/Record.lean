import FiberMachine.Json.Numeral
import FiberMachine.Json.Tree

/-!
# Records

A record is written as an object with named fields or as a list of its fields in
order. Unknown names are passed over, a name may come once, and what is missing
keeps its default unless the field is required.
-/

namespace FiberMachine.JsonText

/-- Passes over a value of any depth. -/
def skipValue : Nat → Reader Unit
  | 0 => failHere
  | fuel + 1 => do
    match ← peekToken with
    | none => failAtNext
    | some 'n' => do discard; word ['u', 'l', 'l']
    | some 't' => do discard; word ['r', 'u', 'e']
    | some 'f' => do discard; word ['a', 'l', 's', 'e']
    | some '"' => skipText
    | some '-' => do discard; skipNumeral
    | some '[' => do discard; skipItems fuel true
    | some '\x7b' => do discard; skipEntries fuel true
    | some c => if c.isDigit then skipNumeral else failAtNext
where
  skipNumeral : Reader Unit := do
    match ← digits with
    | [] => do discard; failHere
    | '0' :: _ :: _ => failHere
    | _ =>
      if (← peek) = some '.' then
        discard
        if (← digits).isEmpty then failAtNext
      if (← peek) = some 'e' || (← peek) = some 'E' then
        discard
        if (← peek) = some '+' || (← peek) = some '-' then discard
        if (← digits).isEmpty then
          discard
          failHere
  skipItems : Nat → Bool → Reader Unit
    | 0, _ => failHere
    | fuel + 1, first => do
      match ← peekToken with
      | some ']' => if first then discard else failAtNext
      | _ =>
        skipValue fuel
        match ← peekToken with
        | some ']' => discard
        | some ',' => do discard; skipItems fuel false
        | _ => failAtNext
  skipEntries : Nat → Bool → Reader Unit
    | 0, _ => failHere
    | fuel + 1, first => do
      match ← peekToken with
      | some '\x7d' => if first then discard else failAtNext
      | some '"' =>
        skipText
        colon
        skipValue fuel
        match ← peekToken with
        | some '\x7d' => discard
        | some ',' => do discard; skipEntries fuel false
        | _ => failAtNext
      | _ => failAtNext

/-- Fails on a value of a wrong type: a scalar is read first, and an error inside
it counts. -/
def wrongType {α : Type} : Reader α := do
  match ← peek with
  | some 'n' => do discard; word ['u', 'l', 'l']; failHere
  | some 't' => do discard; word ['r', 'u', 'e']; failHere
  | some 'f' => do discard; word ['a', 'l', 's', 'e']; failHere
  | some '"' => do let _ ← text; failHere
  | some '[' | some '\x7b' => failHere
  | some c =>
    match numeral? c with
    | some read => do let _ ← read; failHere
    | none => failAtNext
  | none => failAtNext

/-- A whole number up to a limit. -/
def natural (limit : Nat) : Reader Nat := do
  match (← peekToken).bind numeral? with
  | some read =>
    match ← read with
    | .natural n => if n ≤ limit then pure n else failHere
    | _ => failHere
  | none => wrongType

def number : Reader Float := do
  match (← peekToken).bind numeral? with
  | some read => return (← read).toFloat
  | none => wrongType

def bool : Reader Bool := do
  match ← peekToken with
  | some 't' => do discard; word ['r', 'u', 'e']; pure true
  | some 'f' => do discard; word ['a', 'l', 's', 'e']; pure false
  | _ => wrongType

def string : Reader String := do
  if (← peekToken) = some '"' then text else wrongType

def listOf {α : Type} (element : Reader α) (depth : Nat) : Reader (Array α) := do
  if (← peekToken) = some '[' then
    if depth = 0 then failAtNext
    else
      discard
      let items ← elements element (← steps) true #[]
      endList
      pure items
  else wrongType

structure Field (σ : Type) where
  name : String
  isRequired : Bool
  read : σ → Reader σ

/-- The fields of an object whose brace has been taken. -/
def namedFields {σ : Type} (fields : List (Field σ)) :
    Nat → Bool → List String → σ → Reader σ
  | 0, _, _, _ => failHere
  | fuel + 1, first, seen, s => do
    if ← hasKey first then
      let key ← text
      match fields.find? (·.name == key) with
      | some field =>
        if seen.contains key then failAfterObject
        else
          colon
          let s ← field.read s
          namedFields fields fuel false (key :: seen) s
      | none =>
        colon
        skipValue (← steps)
        namedFields fields fuel false seen s
    else if fields.all fun f => !f.isRequired || seen.contains f.name then pure s
    else failAfterObject

/-- The fields in order, from a list whose bracket has been taken. -/
def orderedFields {σ : Type} : List (Field σ) → Bool → σ → Reader σ
  | [], _, s => pure s
  | field :: fields, first, s => do
    if ← hasElement first then
      let s ← field.read s
      orderedFields fields false s
    else if field.isRequired then failAfterList
    else orderedFields fields first s

def record {σ : Type} (fields : List (Field σ)) (start : σ) (depth : Nat) : Reader σ := do
  match ← peekToken with
  | some '\x7b' =>
    if depth = 0 then failAtNext
    else
      discard
      let s ← namedFields fields (← steps) true [] start
      endObject
      pure s
  | some '[' =>
    if depth = 0 then failAtNext
    else
      discard
      let s ← orderedFields fields true start
      endList
      pure s
  | _ => wrongType

/-- A list written without blanks. -/
def listText (items : List (List Char)) : List Char :=
  '[' :: (List.intersperse [','] items).flatten ++ [']']

/-- An object written without blanks. -/
def objectText (fields : List (String × List Char)) : List Char :=
  let entries := fields.map fun f => quote f.1 ++ ':' :: f.2
  '\x7b' :: (List.intersperse [','] entries).flatten ++ ['\x7d']

end FiberMachine.JsonText
