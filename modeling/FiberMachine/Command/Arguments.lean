/-!
# Arguments of the command

The command takes one file, the path of a configuration, and a flag that asks for
a listing. Words are read from left to right; the first one that asks for help
or for the version, or that is wrong, ends the reading. Behind two hyphens every
word is a file.
-/

namespace FiberMachine

structure Command where
  file : String
  config : Option String
  disassembles : Bool
deriving DecidableEq, Repr

/-- Why there is no command. -/
inductive Notice where
  | shortHelp
  | longHelp
  | version
  | usage
deriving DecidableEq, Repr

/-- What one word of the command line is. -/
inductive Word where
  | operand (s : String)
  | config (attached : Option String)
  | disassemble
  | notice (n : Notice)
deriving DecidableEq, Repr

namespace Word

/-- A long option and the value behind its equals sign. -/
def long (name : List Char) (value : Option String) : Word :=
  match String.ofList name, value with
  | "config", value => .config value
  | "disassemble", none => .disassemble
  | "help", none => .notice .longHelp
  | "version", none => .notice .version
  | _, _ => .notice .usage

/-- The value behind an equals sign, if there is one. -/
def afterEquals (cs : List Char) : Option String :=
  match cs.dropWhile (· != '=') with
  | [] => none
  | _ :: value => some (String.ofList value)

/-- The value in the same word as a short option. -/
def attached : List Char → Option String
  | [] => none
  | '=' :: value => some (String.ofList value)
  | value => some (String.ofList value)

def ofString (s : String) : Word :=
  match s.toList with
  | ['-'] => .operand s
  | '-' :: '-' :: cs => long (cs.takeWhile (· != '=')) (afterEquals cs)
  | '-' :: 'c' :: cs => .config (attached cs)
  | '-' :: 'h' :: _ => .notice .shortHelp
  | '-' :: 'V' :: _ => .notice .version
  | '-' :: _ => .notice .usage
  | _ => .operand s

end Word

namespace Command

/-- What has been read of a command. -/
structure Draft where
  file : Option String
  config : Option String
  disassembles : Bool

namespace Draft

def empty : Draft := ⟨none, none, false⟩

def withFile (d : Draft) (file : String) : Except Notice Draft :=
  if d.file.isSome || file.isEmpty then .error .usage else .ok { d with file := some file }

def withConfig (d : Draft) (config : String) : Except Notice Draft :=
  if d.config.isSome || config.isEmpty then .error .usage
  else .ok { d with config := some config }

def withListing (d : Draft) : Except Notice Draft :=
  if d.disassembles then .error .usage else .ok { d with disassembles := true }

def finish (d : Draft) : Except Notice Command :=
  match d.file with
  | some file => .ok ⟨file, d.config, d.disassembles⟩
  | none => .error .usage

end Draft

def isOperand (s : String) : Bool := Word.ofString s matches .operand _

def words (d : Draft) : List String → Except Notice Draft
  | [] => .ok d
  | "--" :: rest => rest.foldlM Draft.withFile d
  | s :: rest =>
    match Word.ofString s with
    | .operand file => do words (← d.withFile file) rest
    | .disassemble => do words (← d.withListing) rest
    | .notice n => .error n
    | .config (some value) => do words (← d.withConfig value) rest
    | .config none =>
      match rest with
      | [] => .error .usage
      | value :: rest => do
        if isOperand value then words (← d.withConfig value) rest else .error .usage

def parse (args : List String) : Except Notice Command := do (← words .empty args).finish

end Command

end FiberMachine
