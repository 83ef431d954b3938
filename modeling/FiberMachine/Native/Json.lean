import FiberMachine.Heap.Display
import FiberMachine.Json.Library
import FiberMachine.Native.Call

/-!
# JSON and values

A JSON tree becomes a value: objects become dictionaries with texts as keys. A
value becomes a JSON tree: instances become objects of their fields, and what
JSON has no form for becomes its display text.
-/

namespace FiberMachine

namespace Heap

mutual

def ofJson (h : Heap) : JsonValue → Heap × Value
  | .null => (h, .nil)
  | .bool b => (h, .ofBool b)
  | .number x => (h, .ofFloat x)
  | .text s =>
    let (h, r) := h.intern s
    (h, .ofHandle r)
  | .array items =>
    let (h, vs) := ofJsonItems h items
    let (h, r) := h.alloc (.array vs.toArray)
    (h, .ofHandle r)
  | .object entries =>
    let (h, r) := h.alloc (.dictionary .empty)
    (ofJsonEntries h r entries, .ofHandle r)

def ofJsonItems (h : Heap) : List JsonValue → Heap × List Value
  | [] => (h, [])
  | item :: rest =>
    let (h, v) := ofJson h item
    let (h, vs) := ofJsonItems h rest
    (h, v :: vs)

/-- Puts the entries of an object into a dictionary. -/
def ofJsonEntries (h : Heap) (r : Handle) : List (String × JsonValue) → Heap
  | [] => h
  | (key, item) :: rest =>
    let (h, key) := h.intern key
    let (h, v) := ofJson h item
    ofJsonEntries (h.update r (changeDictionary (·.insert (.ofHandle key) v))) r rest

end

/-- The deepest value inside values that has a JSON form. -/
def jsonDepth : Nat := 128

def jsonKey (h : Heap) (key : Value) : String := (h.textOf? key).getD (h.display key)

/-- The members of a JSON object, each given its key and its value. -/
def jsonObject {α : Type} (key : α → Except Fault String) (value : Value → Except Fault JsonValue)
    (entries : List (α × Value)) : Except Fault JsonValue := do
  let members ← entries.mapM fun e => return (← key e.1, ← value e.2)
  return .object (members.foldl (fun seen e => JsonValue.insertEntry e.1 e.2 seen) [])

/-- The JSON form of an object, given the one of the values inside. -/
def bodyToJson (h : Heap) (v : Value) (inside : Value → Except Fault JsonValue) :
    Body → Except Fault JsonValue
  | .text s => .ok (.text s)
  | .array items => do return .array (← items.toList.mapM inside)
  | .dictionary entries => jsonObject (fun key => .ok (h.jsonKey key)) inside entries.toList
  | .instanceOf _ fields => jsonObject h.text inside fields.toList
  | _ => .ok (.text (h.display v))

/-- The JSON form of a value that has a number of levels. -/
def toJson (h : Heap) : Nat → Value → Except Fault JsonValue
  | 0, _ => .error (.failed .jsonDepth)
  | room + 1, v =>
    match v.toBool?, v.toFloat?, v.toHandle? with
    | some b, _, _ => .ok (.bool b)
    | _, some x, _ => .ok (if x.isFinite then .number x else .null)
    | _, _, some r => do h.bodyToJson v (toJson h room) (← h.get r).body
    | none, none, none => .ok .null

end Heap

namespace NativeCall

open Heap (Act)

def jsonParse (c : NativeCall) (lib : JsonLibrary) : Act Value := do
  match lib.parse (← c.text 0) with
  | .error e => throw (.failed (.jsonSyntax e.line))
  | .ok json => Heap.run (·.ofJson json)

/-- A second argument that counts as true asks for the indented layout. -/
def jsonLayout (c : NativeCall) : JsonText.Layout :=
  match c.args[1]? with
  | some flag => if flag.isFalsey then .compact else .indented
  | none => .compact

def jsonStringify (c : NativeCall) (lib : JsonLibrary) : Act Value := do
  let v ← c.value 0
  let json ← (← get).toJson (Heap.jsonDepth + 1) v
  return .ofHandle (← Heap.run (·.intern (lib.render c.jsonLayout json)))

end NativeCall

end FiberMachine
