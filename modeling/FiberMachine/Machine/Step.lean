import FiberMachine.Arithmetic
import FiberMachine.Heap.Equality
import FiberMachine.Heap.Items
import FiberMachine.Machine.Imports
import FiberMachine.Machine.Operands
import FiberMachine.Machine.Properties
import FiberMachine.Machine.Roots

/-!
# Steps

Before each instruction the machine comes to a safe point: timers that are due
become events, events are handled, a fiber is found to run, and garbage is
collected if that is due. A step is a safe point and one instruction; there is
none when no fiber is left.
-/

namespace FiberMachine

namespace Machine

/-! ## Instructions -/

def unary (f : Value → Except Fault Value) : Act Unit := do
  let v ← peek 0
  poke 0 (← f v)

/-- Combines the two topmost operands; the right one is at the top. -/
def binary (f : Value → Value → Act Value) : Act Unit := do
  let right ← pop
  let left ← pop
  push (← f left right)

def equal (a b : Value) : Act Value := return .ofBool ((← get).heap.equal a b)

def loadConstant (index : Nat) : Act Unit := do push (← constant index)

def pushGlobal : Act Unit := do
  let name ← readName
  push (← global name)

def popGlobal (exports : Bool) : Act Unit := do
  let name ← readName
  let v ← pop
  define (← scope) name v
  if exports then recordExport name

def setGlobal : Act Unit := do
  let name ← readName
  assignGlobal name (← peek 0)

/-- The operand index of the local slot that an instruction names. -/
def localIndex : Act Nat := do
  let slot ← readIndex
  return (← frame).base + slot

def pushLocal : Act Unit := do
  let index ← localIndex
  match (← fiber).stack.get? index with
  | some v => push v
  | none => throw (.malformed (.localSlot index))

def setLocal : Act Unit := do
  let index ← localIndex
  let v ← peek 0
  changeStack fun stack => (stack.set? index v).elim (.error (.malformed (.localSlot index))) .ok

def branchIfFalse : Act Unit := do
  let distance ← readIndex
  if (← peek 0).isFalsey then jumpForward distance

def createList (count : Nat) : Act Unit := do
  let items ← top count
  replaceTop count (.ofHandle (← alloc (.array items)))

/-- Joins the texts of the topmost operands. -/
def interpolate (count : Nat) : Act Unit := do
  let fragments ← top count
  let h := (← get).heap
  let text := String.join (fragments.toList.map h.display)
  replaceTop count (.ofHandle (← intern text))

def createSpan (start stop : Value) : Act Value := do
  let (x, y) ← Value.bothNumbers "range" start stop
  return .ofHandle (← alloc (.span (.unitStep x y)))

def writeItem : Act Unit := do
  let v ← pop
  let index ← pop
  let target ← pop
  Heap.setItem target index v
  push v

def createSlice : Act Unit := do
  let stop ← pop
  let start ← pop
  let target ← pop
  push (← Heap.slice target start stop)

def createClass : Act Unit := do
  let name ← readName
  push (.ofHandle (← alloc (.classObject name)))

def getProperty : Act Unit := do
  let name ← readName
  poke 0 (← property (← peek 0) name)

def assignProperty : Act Unit := do
  let name ← readName
  let v ← pop
  let target ← pop
  setField "property assignment" target name v
  push v

/-- Puts the next item of the sequence below the top two places below it, or
leaves the loop. -/
def iterate : Act Unit := do
  let exit ← readIndex
  let sequence ← peek 1
  let cursor ← peek 0
  match ← (← get).heap.nextItem sequence cursor with
  | some (item, next) =>
    poke 2 item
    poke 0 next
  | none => jumpForward exit

def await : Act Unit := do
  let v ← pop
  let delay := v.toFloat?.bind fun ms =>
    if 0.0 ≤ ms then Duration.ofMilliseconds? ms else none
  match delay with
  | some delay => sleep delay
  | none =>
    throw (.typeMismatch "await" "non-negative milliseconds" ((← get).heap.display v))

variable (host : HostFunctions)

def call : Act Unit := do
  let argc ← readCount
  callValue host (← peek argc) argc

def callMember : Act Unit := do
  let name ← readName
  invoke host name (← readCount)

/-! ### Families of instructions

Each family executes its own instructions; any other one is strange to it. -/

def strange (family : String) : Act Unit := throw (.crash (.strangeInstruction family))

def arithmetic : Opcode → Act Unit
  | .negate => unary Value.negate
  | .increment => unary (Value.step 1.0)
  | .decrement => unary (Value.step (-1.0))
  | .add => binary fun a b => Heap.sum a b
  | .subtract => binary fun a b => Value.subtract a b
  | .multiply => binary fun a b => Value.multiply a b
  | .divide => binary fun a b => Value.divide a b
  | .power => binary fun a b => Value.power a b
  | .modulo => binary fun a b => Value.modulo a b
  | _ => strange "arithmetic"

def comparison : Opcode → Act Unit
  | .not => unary fun v => .ok v.not
  | .equal => binary equal
  | .less => binary fun a b => Value.less a b
  | .greater => binary fun a b => Value.greater a b
  | _ => strange "comparison"

def bindings : Opcode → Act Unit
  | .constant => do loadConstant (← readCount)
  | .constantLong => do loadConstant (← readIndex)
  | .pushNil => push .nil
  | .pushTrue => push (.ofBool true)
  | .pushFalse => push (.ofBool false)
  | .pop => discard pop
  | .defineGlobal => popGlobal false
  | .exportGlobal => popGlobal true
  | .getGlobal => pushGlobal
  | .setGlobal => setGlobal
  | .getLocal => pushLocal
  | .setLocal => setLocal
  | _ => strange "bindings"

def control : Opcode → Act Unit
  | .jump => do jumpForward (← readIndex)
  | .jumpIfFalse => branchIfFalse
  | .loop => do jumpBack (← readIndex)
  | .ret => returnFromCall
  | .raise => pure ()
  | _ => strange "control"

def functions : Opcode → Act Unit
  | .call => call host
  | .invoke => callMember host
  | _ => strange "functions"

def collections : Opcode → Act Unit
  | .createList => do createList (← readIndex)
  | .subscriptRead => binary fun target index => Heap.item target index
  | .subscriptWrite => writeItem
  | .sliceArray => createSlice
  | .createRange => binary createSpan
  | _ => strange "collections"

def objects : Opcode → Act Unit
  | .newClass => createClass
  | .getProperty => getProperty
  | .setProperty => assignProperty
  | .method => do defineMethod (← readName)
  | _ => strange "objects"

def iterators : Opcode → Act Unit
  | .iterate => iterate
  | _ => strange "iterators"

def strings : Opcode → Act Unit
  | .interpolate => do interpolate (← readCount)
  | _ => strange "strings"

def imports : Opcode → Act Unit
  | .importModule => do importModule (← readName) none
  | .importModuleAs => do
    let name ← readName
    importModule name (some (← readName))
  | _ => strange "imports"

def suspensions : Opcode → Act Unit
  | .await => await
  | _ => strange "suspensions"

/-- Hands an instruction to its family. -/
def execute (op : Opcode) : Act Unit :=
  match op with
  | .negate | .add | .subtract | .multiply | .divide | .power | .modulo | .increment
  | .decrement => arithmetic op
  | .equal | .greater | .less | .not => comparison op
  | .constant | .constantLong | .pushNil | .pushTrue | .pushFalse | .pop | .defineGlobal
  | .getGlobal | .exportGlobal | .setGlobal | .getLocal | .setLocal => bindings op
  | .jumpIfFalse | .jump | .loop | .ret | .raise => control op
  | .call | .invoke => functions host op
  | .createList | .subscriptRead | .subscriptWrite | .sliceArray | .createRange => collections op
  | .newClass | .getProperty | .setProperty | .method => objects op
  | .iterate => iterators op
  | .interpolate => strings op
  | .importModule | .importModuleAs => imports op
  | .await => suspensions op

/-- Reads and executes one instruction of the running fiber. -/
def instruction : Act Unit := do
  let byte ← readByte
  match Opcode.ofByte? byte with
  | some op => execute host op
  | none => throw (.unknownOpcode byte)

/-! ## Safe points -/

def fire (f : Timers → Timers × List Event) : Act Unit := modify fun m =>
  let (timers, fired) := f m.timers
  { m with timers, events := m.events ++ fired }

def handle : Event → Act Unit
  | .resume fiber => resume fiber
  | .collect => discard collect

/-- Handles events; those behind the one at work are still in the machine. -/
def handleAll : List Event → Act Unit
  | [] => pure ()
  | event :: rest => do
    modify fun m => { m with events := rest }
    handle event
    handleAll rest

/-- Finds a fiber to run, if one is left. The number is how often the machine may
look again. -/
def findFiber : Nat → Act Bool
  | 0 => throw (.failed .nothingRunnable)
  | again + 1 => do
    fire Timers.poll
    handleAll (← get).events
    if (← get).running.isSome then return true
    else if ← startReady then findFiber again
    else if 0 < (← get).timers.active then
      fire Timers.wait
      findFiber again
    else if (← get).root.isNone then return false
    else throw (.failed .nothingRunnable)

/-- Each wait takes a timer away, and a fiber that is started ends the search. -/
def safePoint : Act Bool := do
  let found ← findFiber ((← get).timers.active + 2)
  if found then collectIfDue
  return found

/-! ## Runs -/

def step : Act Bool := do
  if ← safePoint then
    instruction host
    return true
  else return false

/-- Takes steps until no fiber is left. The result is false if the number of
steps did not suffice. -/
def run : Nat → Act Bool
  | 0 => return false
  | steps + 1 => do
    if ← step host then run steps else return true

end Machine

end FiberMachine
