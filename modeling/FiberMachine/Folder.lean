import FiberMachine.Table

/-!
# Folders

Files under paths. A path is walked part by part: an empty part and a dot stay
where they are, two dots go up, and a name goes down. Whatever a further part
follows must be a folder. What lies around the working folder is not known, and
no name is found there.
-/

namespace FiberMachine

/-- Why a file cannot be read. -/
inductive ReadFault where
  | missing
  | isFolder
  | notFolder
  | longName
  | forbidden
  | notText
  | other (reason : String)
deriving DecidableEq, Repr

namespace ReadFault

def message : ReadFault → String
  | missing => "No such file or directory (os error 2)"
  | isFolder => "Is a directory (os error 21)"
  | notFolder => "Not a directory (os error 20)"
  | longName => "File name too long (os error 36)"
  | forbidden => "Permission denied (os error 13)"
  | notText => "stream did not contain valid UTF-8"
  | other reason => reason

end ReadFault

/-- Where a walk is: below the root or the working folder, or around that folder. -/
inductive Place where
  /-- The names that lead there, the last one first. -/
  | below (fromRoot : Bool) (names : List String)
  | around
deriving DecidableEq, Repr

namespace Place

def start (path : String) : Place := below (path.startsWith "/") []

def up : Place → Place
  | below fromRoot (_ :: names) => below fromRoot names
  | below true [] => below true []
  | below false [] => around
  | around => around

/-- The path without dots, none around the working folder. -/
def path? : Place → Option String
  | below fromRoot names =>
    some ((if fromRoot then "/" else "") ++ "/".intercalate names.reverse)
  | around => none

/-- The place of a name in a folder. -/
def enter (name : String) : Place → Option Place
  | below fromRoot names => some (below fromRoot (name :: names))
  | around => none

end Place

/-- The texts of files by path. A path from the root begins with a slash, and
one from the working folder with a name; there are no dots in it. -/
structure Folder where
  texts : Table String String

namespace Folder

/-- The folder with these files, of which the last one of a path counts. -/
def ofFiles (files : List (String × String)) : Folder :=
  ⟨files.foldl (fun texts file => texts.insert file.1 file.2) .empty⟩

def maxNameBytes : Nat := 255

def maxPathBytes : Nat := 4095

/-- The text of the file at a place. -/
def textAt? (f : Folder) (p : Place) : Option String := p.path?.bind f.texts.find?

/-- Some file lies below the place. -/
def holdsFile (f : Folder) (p : Place) : Bool :=
  match p.path? with
  | some path => f.texts.entries.any fun entry => entry.1.startsWith (path ++ "/")
  | none => true

def find (f : Folder) (name : String) (p : Place) : Except ReadFault Place :=
  if maxNameBytes < name.utf8ByteSize then .error .longName
  else
    match p.enter name with
    | none => .error .missing
    | some q =>
      if (f.textAt? q).isSome || f.holdsFile q then .ok q else .error .missing

def step (f : Folder) (p : Place) (part : String) : Except ReadFault Place :=
  if (f.textAt? p).isSome then .error .notFolder
  else
    match part with
    | "" | "." => .ok p
    | ".." => .ok p.up
    | name => f.find name p

def walk (f : Folder) (path : String) : Except ReadFault Place :=
  if path.isEmpty then .error .missing
  else if maxPathBytes < path.utf8ByteSize then .error .longName
  else (path.splitOn "/").foldlM f.step (Place.start path)

def read (f : Folder) (path : String) : Except ReadFault String := do
  match f.textAt? (← f.walk path) with
  | some text => .ok text
  | none => .error .isFolder

def text? (f : Folder) (path : String) : Option String := (f.read path).toOption

end Folder

end FiberMachine
