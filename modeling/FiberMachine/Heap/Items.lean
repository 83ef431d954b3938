import FiberMachine.Heap.Display

/-!
# Items

Reading and writing inside arrays, dictionaries and texts, slices, sums, and
going through the items one by one. An index from -n to -1 counts from the end
of n items.
-/

namespace FiberMachine

namespace Heap

def leastInteger : Int := -0x8000000000000000

def greatestInteger : Int := 0x7fffffffffffffff

/-- The integer a number is; one beyond 64 bits counts as the outermost one. -/
def integer (operation : String) (v : Value) : Except Fault Int :=
  match v.toFloat? with
  | none => .error (.typeMismatch operation "number" v.scalarKind)
  | some x =>
    match Double.toInt? x with
    | none => .error (.typeMismatch operation "integer" (Double.plain x))
    | some i => .ok (max leastInteger (min greatestInteger i))

/-- The place of an item among a number of items. -/
def place (v : Value) (size : Nat) : Except Fault (Fin size) :=
  match integer "subscript" v with
  | .error fault => .error fault
  | .ok i =>
    let resolved := if i < 0 then size + i else i
    if h : 0 ≤ resolved ∧ resolved < size then .ok ⟨resolved.toNat, by omega⟩
    else .error (.outOfBounds i size)

/-- A bound of a slice may be the number of items. -/
def sliceBound (v : Value) (size : Nat) : Except Fault Nat :=
  match integer "slice" v with
  | .error fault => .error fault
  | .ok i => if 0 ≤ i ∧ i ≤ size then .ok i.toNat else .error (.outOfBounds i size)

/-! ## Subscripts -/

def itemOf (index : Value) : Body → Act Value
  | .array items => do
    let i ← place index items.size
    return items[i]
  | .dictionary entries => do
    match entries.find? index with
    | some v => return v
    | none => throw (.unknownKey ((← get).display index))
  | .text s => do
    let cs := s.toList
    let i ← place index cs.length
    return .ofHandle (← run (·.intern (String.singleton cs[i])))
  | body => throw (.typeMismatch "subscript" "array, dictionary or string" body.kind.name)

def item (target index : Value) : Act Value := do
  match target.toHandle? with
  | none => throw (.typeMismatch "subscript" "array, dictionary or string" target.scalarKind)
  | some r => itemOf index (← (← get).get r).body

/-- How the object at a subscript changes when a value is put there. -/
def itemChange (index v : Value) : Body → Except Fault (Object → Object)
  | .array items => do
    let i ← place index items.size
    return changeArray fun items => items.setIfInBounds i v
  | .dictionary _ => .ok (changeDictionary (·.insert index v))
  | body => .error (.typeMismatch "subscript assignment" "array or dictionary" body.kind.name)

def setItem (target index v : Value) : Act Unit := do
  match target.toHandle? with
  | none => throw (.typeMismatch "subscript assignment" "array or dictionary" target.scalarKind)
  | some r => change r (← itemChange index v (← (← get).get r).body)

def sliceOf (items : Array Value) (start stop : Value) : Except Fault (Array Value) := do
  let first ← sliceBound start items.size
  let last ← sliceBound stop items.size
  if last < first then .error (.outOfBounds first last) else Checked.slice items first last

/-- A new array with the items from one bound up to and without another. -/
def slice (target start stop : Value) : Act Value := do
  let h ← get
  match h.arrayOf? target with
  | none => throw (.typeMismatch "slice" "array" (h.typeName target))
  | some items => return .ofHandle (← run (·.alloc (.array (← sliceOf items start stop))))

/-! ## Sums -/

/-- An array takes in the items of another array, or one more item. -/
def append (a b : Value) : Act Value := do
  let h ← get
  match a.toHandle?, h.kindOf? a with
  | some r, some .array =>
    let items := (h.arrayOf? b).getD #[b]
    change r (changeArray (· ++ items))
    return a
  | _, _ => throw (.typeMismatch "addition" "numbers, strings or an array"
      (h.typeName a ++ " and " ++ h.typeName b))

/-- The sum of numbers, the join of texts, or an array that has grown. -/
def sum (a b : Value) : Act Value := do
  match a.toFloat?, b.toFloat? with
  | some x, some y => return .ofFloat (x + y)
  | _, _ =>
    let h ← get
    match h.textOf? a, h.textOf? b with
    | some s, some t => return .ofHandle (← run (·.intern (s ++ t)))
    | _, _ => append a b

/-! ## Going through the items -/

/-- The largest place that a cursor can mean. -/
def lastPlace : Int := 0xffffffffffffffff

/-- The item at a cursor and the cursor behind it, if there is an item left. A
cursor that is no number stands at the first item. -/
def nextItem (h : Heap) (sequence cursor : Value) : Except Fault (Option (Value × Value)) :=
  match sequence.toHandle? with
  | none => .error (.typeMismatch "iteration" "array or range" sequence.scalarKind)
  | some r => do
    match (← h.get r).body with
    | .array items =>
      let i := (Double.clamp (cursor.toFloat?.getD 0.0) 0 lastPlace).toNat
      return items[i]?.map fun v => (v, .ofFloat (Float.ofNat (i + 1)))
    | .span s =>
      let position := cursor.toFloat?.getD s.start
      if s.step == 0.0 || !s.contains position then return none
      else return some (.ofFloat position, .ofFloat (← s.advance position))
    | body => .error (.typeMismatch "iteration" "array or range" body.kind.name)

end Heap

end FiberMachine
