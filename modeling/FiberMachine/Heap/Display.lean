import FiberMachine.Heap.Basic

/-!
# Display

The text of a value for a reader. Items inside items are shown up to a depth.
A dictionary is shown in the order of the texts of its keys, and a key is shown
as a value of its own, with the whole depth before it.
-/

namespace FiberMachine

namespace Heap

/-- How many objects inside one another are shown. -/
def displayDepth : Nat := 32

def commaSeparated (texts : List String) : String := ", ".intercalate texts

/-- The order of the entries of a dictionary that is shown. -/
def sortEntries {α : Type} (entries : List (String × α)) : List (String × α) :=
  entries.mergeSort fun a b => decide (a.1 ≤ b.1)

def displaySpan (s : Span) : String :=
  let ends := Double.printed s.start ++ ".." ++ Double.printed s.stop
  if s.step == 1.0 then ends else ends ++ " by " ++ Double.printed s.step

/-- The name of the class that an instance belongs to. -/
def className (h : Heap) (cls : Handle) : String :=
  match h.get? cls with
  | some ⟨_, _, .classObject name⟩ => h.nameText name "?"
  | _ => "?"

/-- The text of an object, given the texts of keys and of the items inside. -/
def displayBody (h : Heap) (key item : Value → String) : Body → String
  | .text s => s
  | .array items => "[" ++ commaSeparated (items.toList.map item) ++ "]"
  | .span s => displaySpan s
  | .dictionary entries =>
    let sorted := sortEntries (entries.toList.map fun e => (key e.1, e.2))
    "\x7b" ++ commaSeparated (sorted.map fun e => e.1 ++ ": " ++ item e.2) ++ "\x7d"
  | .function f => "<fn " ++ h.nameText f.name "?" ++ ">"
  | .native n => "<native fn " ++ n.name ++ ">"
  | .classObject name => h.nameText name "?"
  | .instanceOf cls _ => h.className cls ++ " instance"
  | .boundMethod _ method => item (.ofHandle method)
  | .module name _ => "<module " ++ h.nameText name "?" ++ ">"
  | .fiber _ => "<fiber>"
  | .userData _ => "<userdata>"

/-- The text of a value, given how objects are shown. -/
def displayScalar (h : Heap) (object : Handle → Object → String) (v : Value) : String :=
  match v.toFloat?, v.toBool?, v.toHandle? with
  | some x, _, _ => Double.printed x
  | _, some b, _ => toString b
  | _, _, none => "nil"
  | _, _, some r =>
    match h.get? r with
    | some o => object r o
    | none => "<dangling>"

/-- The text of a value that has a number of depths below it. -/
def displayBelow (h : Heap) (key : Handle → Value → String) : Nat → Value → String
  | 0 => h.displayScalar fun _ _ => "..."
  | room + 1 => h.displayScalar fun r o => h.displayBody (key r) (displayBelow h key room) o.body

/-- The text of a value inside the keys of some dictionaries. A key that leads back to
one of them shows only that it does. -/
def displayNested (h : Heap) (path : List Handle) : Value → String :=
  h.displayBelow (fun r key =>
    if _ : h.isLive r ∧ r ∉ path then displayNested h (r :: path) key else "...") displayDepth
termination_by (h.handles.filter (· ∉ path)).length
decreasing_by
  rename_i hr
  refine length_filter_lt (fun s hs => ?_) (mem_handles_of_isLive hr.1) ?_ ?_
  · simp only [List.mem_cons, not_or, decide_eq_true_eq] at hs
    simpa using hs.2
  · simpa using hr.2
  · simp

def display (h : Heap) (v : Value) : String := h.displayNested [] v

end Heap

end FiberMachine
