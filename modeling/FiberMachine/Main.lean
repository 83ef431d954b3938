import FiberMachine.Command.Run
import Std.Time.DateTime.Timestamp

/-!
# The command line

The command on a real system. A machine takes one step at a time: the clock is
set before it, and what it printed is written after it. A step that asked for a
file or a line is taken again once that is there, and a step that waited for a
timer is followed by sleep.
-/

namespace FiberMachine

namespace Terminal

def readFault : IO.Error → ReadFault
  | .noFileOrDirectory .. => .missing
  | .permissionDenied .. => .forbidden
  | .inappropriateType none .. => .isFolder
  | .inappropriateType .. => .notFolder
  | .invalidArgument _ _ "name too long" => .longName
  | .userError _ => .notText
  | e => .other (toString e)

def readText (path : String) : IO (Except ReadFault String) := do
  try return .ok (← IO.FS.readFile path)
  catch e => return .error (readFault e)

/-- The texts of the files that the command reads first. -/
def readAll (paths : List String) : IO ReadFile := do
  let texts ← paths.mapM fun path => return (path, ← readText path)
  return fun path => (texts.lookup path).getD (.error .missing)

def readLine : IO String := do
  let line ← (← IO.getStdin).getLine
  return ((Host.inputLines line).head?).getD ""

/-- The time of day in nanoseconds. -/
def timeOfDay : IO Int := return (← Std.Time.Timestamp.now).toNanosecondsSinceUnixEpoch.val

/-- Brings what a step asked for. A file that cannot be read is empty. -/
def supply (host : Host) : List Request → IO Host
  | [] => return { host with requests := [] }
  | .file path :: rest => do
    let text ← readText path
    supply (host.addFile path (text.toOption.getD "")) rest
  | .line :: rest => do supply (host.addLine (← readLine)) rest
  | .time :: rest => do supply (host.addReading (← timeOfDay)) rest

/-- Files, lines and readings last for one step. -/
def forget (host : Host) : Host :=
  { host with files := Host.empty.files, input := [], readings := [], requests := [] }

def write (text : String) : IO Unit := do
  if !text.isEmpty then
    let out ← IO.getStdout
    out.putStr text
    out.flush

abbrev Stepped := EStateM.Result Fault Machine Bool

def machineOf : Stepped → Machine
  | .ok _ m => m
  | .error _ m => m

/-- Takes a step, and takes it again when it asked for something. -/
def step (m : Machine) : IO Stepped := do
  if m.mayAsk then
    let result := Machine.step .none m
    match (machineOf result).host.requests with
    | [] => return result
    | requests => return Machine.step .none (m.withHost (← supply m.host requests))
  else return Machine.step .none m

def sleepUntil (start : Nat) (time : Duration) : IO Unit := do
  let elapsed := (← IO.monoNanosNow) - start
  if elapsed < time then
    IO.sleep (UInt32.ofNat ((time - elapsed) / Duration.perMillisecond + 1))

partial def run (start : Nat) (m : Machine) : IO Outcome := do
  let elapsed := (← IO.monoNanosNow) - start
  match ← step (m.advanceTo elapsed) with
  | .ok more m =>
    sleepUntil start m.timers.now
    let (text, m) := m.takeOutput
    write text
    if more then run start (m.withHost (forget m.host)) else return .finished
  | .error fault m =>
    sleepUntil start m.timers.now
    write m.host.output
    return .halted (.faulted fault m.backtrace)

/-- Starts a program and runs it to its end. -/
def interpret (config : Config) (p : Prototype) : IO Outcome := do
  let start ← IO.monoNanosNow
  match Machine.start p ((Machine.new config).withHost { Host.empty with json := .standard }) with
  | .ok _ m => run start m
  | .error fault m => return .halted (.faulted fault m.backtrace)

def carryOut (args : List String) : IO Reply := do
  let paths := match Command.parse args with
    | .ok c => c.paths
    | .error _ => []
  match Plan.ofArguments (← readAll paths) args with
  | .reply r => return r
  | .run config p => return .ofOutcome "" (← interpret config p)

end Terminal

end FiberMachine

open FiberMachine in
def main (args : List String) : IO UInt32 := do
  let r ← Terminal.carryOut args
  Terminal.write r.output
  IO.eprint r.errors
  return r.code.toUInt32
