import FiberMachine.Duration
import FiberMachine.Folder
import FiberMachine.Json.Library

/-!
# What the host gives

What a machine reads and writes: files by path, lines of input, readings of the
wall clock, and the text printed so far. A file that is not there is empty, and
so is a line behind the last one. What was asked for and not there is noted, so
that whoever runs the machine can bring it and run again. The library for JSON
comes from the host as well.
-/

namespace FiberMachine

inductive Request where
  | file (path : String)
  | line
  | time
deriving DecidableEq, Repr

structure Host where
  /-- The text of the file at a path. -/
  files : String → Option String
  input : List String
  output : String
  /-- The times of day that the wall clock shows next, in nanoseconds. One that is before the
  epoch is negative, and nothing keeps them in order. -/
  readings : List Int
  /-- The time of day behind the last reading. -/
  epoch : Duration
  json : JsonLibrary
  requests : List Request

namespace Host

def empty : Host where
  files _ := none
  input := []
  output := ""
  readings := []
  epoch := 0
  json := .standard
  requests := []

instance : Inhabited Host := ⟨empty⟩

def addFile (h : Host) (path contents : String) : Host :=
  { h with files := fun other => if other = path then some contents else h.files other }

def withFolder (h : Host) (f : Folder) : Host := { h with files := f.text? }

def addLine (h : Host) (line : String) : Host := { h with input := h.input ++ [line] }

def addReading (h : Host) (time : Int) : Host := { h with readings := h.readings ++ [time] }

/-- The lines of a text that is typed in, without the returns at their ends. -/
def inputLines (text : String) : List String :=
  (text.splitOn "\n").map fun line =>
    String.ofList (line.toList.reverse.dropWhile (· == '\r')).reverse

def withInput (h : Host) (text : String) : Host := { h with input := inputLines text }

def fetch (h : Host) (path : String) : String × Host :=
  match h.files path with
  | some contents => (contents, h)
  | none => ("", { h with requests := .file path :: h.requests })

def print (h : Host) (text : String) : Host := { h with output := h.output ++ text }

def readLine (h : Host) : String × Host :=
  match h.input with
  | line :: input => (line, { h with input })
  | [] => ("", { h with requests := .line :: h.requests })

def readClock (h : Host) : Int × Host :=
  match h.readings with
  | time :: readings => (time, { h with readings })
  | [] => (h.epoch, { h with requests := .time :: h.requests })

/-- Drops a carriage return at the end of a line. -/
def trimReturn (line : String) : String :=
  match line.toList.reverse with
  | '\r' :: rest => String.ofList rest.reverse
  | _ => line

/-- The printed lines; a line break at the end begins no line. -/
def lines (h : Host) : List String :=
  let parts := h.output.splitOn "\n"
  match parts.getLast? with
  | none | some "" => parts.dropLast.map trimReturn
  | some last => parts.dropLast.map trimReturn ++ [last]

end Host

end FiberMachine
