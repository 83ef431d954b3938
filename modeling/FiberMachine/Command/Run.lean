import FiberMachine.Code.Listing
import FiberMachine.Command.Arguments
import FiberMachine.Machine.Embedding
import FiberMachine.Text.Blank

/-!
# The command at work

The command reads the configuration, then the code file, and lists the code or
runs it. The first thing that is wrong ends it with a report.
-/

namespace FiberMachine

/-- What the command leaves behind. -/
structure Reply where
  code : UInt8
  output : String
  errors : String
deriving DecidableEq, Repr

namespace Reply

def success (output : String) : Reply := ⟨0, output, ""⟩

def failure (output report : String) : Reply := ⟨1, output, report ++ "\n"⟩

end Reply

namespace Notice

def shortHelpText : String := "Run precompiled Ember bytecode

Usage: ember [OPTIONS] <FILE>

Arguments:
  <FILE>  Bytecode file to execute

Options:
  -c, --config <JSON>  VM configuration as JSON (fields not given keep their defaults)
      --disassemble    Print the disassembled bytecode instead of running it
  -h, --help           Print help (see more with '--help')
  -V, --version        Print version
"

def longHelpText : String := "Ember bytecode runner

Executes a function prototype serialized as JSON:
  - runs it to completion, including every fiber it spawns
  - or prints its disassembly with --disassemble

Usage: ember [OPTIONS] <FILE>

Arguments:
  <FILE>
          Bytecode file to execute

Options:
  -c, --config <JSON>
          VM configuration as JSON (fields not given keep their defaults)

      --disassemble
          Print the disassembled bytecode instead of running it

  -h, --help
          Print help (see a summary with '-h')

  -V, --version
          Print version
"

def usageText : String := "Usage: ember [OPTIONS] <FILE>

For more information, try '--help'.
"

def reply : Notice → Reply
  | shortHelp => .success shortHelpText
  | longHelp => .success longHelpText
  | version => .success "ember 0.1.0\n"
  | usage => ⟨2, "", usageText⟩

end Notice

/-- Reads a file, or says why it cannot be read. -/
abbrev ReadFile := String → Except ReadFault String

/-- What is left to do once all files have been read. -/
inductive Plan where
  | reply (r : Reply)
  | run (config : Config) (p : Prototype)

namespace Command

/-- A report of a failed read has the reason twice, in the message and as its
cause. -/
def configReport (path : String) (e : ConfigError) : String :=
  let cause := match e with
    | .unreadable reason => ": " ++ reason
    | _ => ""
  s!"Error loading config '{path}': " ++ e.message ++ cause

def readConfig (read : ReadFile) (path : String) : Except ConfigError Config :=
  match read path with
  | .error fault => .error (.unreadable fault.message)
  | .ok text => Config.parse text

def configOf (c : Command) (read : ReadFile) : Except String Config :=
  match c.config with
  | none => .ok {}
  | some path => (readConfig read path).mapError (configReport path)

def codeOf (c : Command) (read : ReadFile) : Except String Prototype :=
  match read c.file with
  | .error fault => .error (s!"Error reading file '{c.file}': " ++ fault.message)
  | .ok text =>
    if Blank.isBlankText text then .error s!"File '{c.file}' is empty"
    else (CodeFile.read text).mapError fun r =>
      s!"Compile error in '{c.file}':\n" ++ r.message

def prepare (c : Command) (read : ReadFile) : Except String (Config × Prototype) := do
  let config ← c.configOf read
  return (config, ← c.codeOf read)

def plan (c : Command) (read : ReadFile) : Plan :=
  match c.prepare read with
  | .error report => .reply (.failure "" report)
  | .ok (config, p) =>
    if c.disassembles then .reply (.success (Listing.function p)) else .run config p

/-- The files that the command reads before it runs code. -/
def paths (c : Command) : List String := c.config.toList ++ [c.file]

end Command

namespace Plan

def ofArguments (read : ReadFile) (args : List String) : Plan :=
  match Command.parse args with
  | .error notice => .reply notice.reply
  | .ok c => c.plan read

end Plan

namespace Reply

/-- The message of a fault and the calls it happened in, each on a line. -/
def haltReport : Halt → String
  | .rejected cause => "Compile error:\n" ++ cause.message
  | .faulted cause backtrace =>
    "Runtime error: " ++ cause.message ++ String.join (backtrace.map ("\n  " ++ ·))

/-- The reply after a run that printed a text. -/
def ofOutcome (output : String) : Outcome → Reply
  | .finished => .success output
  | .unfinished => .failure output "Runtime error: unfinished"
  | .halted cause => .failure output (haltReport cause)

end Reply

namespace Command

/-- Carries out the command in a folder, with the input there from the beginning. -/
def perform (folder : Folder) (input : String) (epoch : Duration) (steps : Nat)
    (args : List String) : Reply :=
  match Plan.ofArguments folder.read args with
  | .reply r => r
  | .run config p =>
    let host := ({ Host.empty with epoch }.withFolder folder).withInput input
    let (outcome, m) := ((Machine.new config).withHost host).interpret .none steps p
    .ofOutcome m.host.output outcome

end Command

end FiberMachine
