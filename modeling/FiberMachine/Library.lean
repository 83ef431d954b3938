import FiberMachine.Builtin
import FiberMachine.Object.Basic

/-!
# The library of a machine

What a new machine knows by name: native modules that a program can import, the
methods of arrays, ranges, dictionaries and strings, and the functions that are
global from the beginning.
-/

namespace FiberMachine

/-- Native functions and numbers that are imported together. -/
structure NativeModule where
  functions : List Native
  constants : List (String × Float)

namespace NativeModule

def ofBuiltins (functions : List Builtin) (constants : List (String × Float) := []) :
    NativeModule :=
  ⟨functions.map Builtin.native, constants⟩

def size (m : NativeModule) : Nat := m.functions.length + m.constants.length

def find? (m : NativeModule) (name : String) : Option Native :=
  m.functions.find? fun f => f.name == name

end NativeModule

abbrev Library := Table String NativeModule

namespace Library

def io : NativeModule := .ofBuiltins [.print, .printLine, .input]

def pi : Float := Float.ofBits 0x400921fb54442d18

def e : Float := Float.ofBits 0x4005bf0a8b145769

def maths : NativeModule := .ofBuiltins
  ([UnaryMath.sin, .cos, .tan, .asin, .acos, .atan].map .unary ++ [.binary .atan2]
    ++ [UnaryMath.sinh, .cosh, .tanh, .asinh, .acosh, .atanh, .exp, .exp2, .expm1, .log, .log2,
      .log10, .floor, .ceil, .round, .sqrt, .cbrt, .abs].map .unary ++ [.binary .pow])
  [("pi", pi), ("e", e)]

def time : NativeModule := .ofBuiltins [.now, .clock]

def json : NativeModule := .ofBuiltins [.jsonParse, .jsonStringify]

def files : NativeModule := .ofBuiltins [.fileExists, .fileText]

/-- The modules of every machine. -/
def standard : Library :=
  ((((Table.empty.insert "std:io" io).insert "std:maths" maths).insert "std:time" time).insert
    "std:json" json).insert "std:filesystem" files

/-- The names that can be imported, in order. -/
def names (l : Library) : List String := l.keys.mergeSort fun a b => decide (a ≤ b)

/-- The methods that every object of a kind has. -/
def methods : List (Kind × NativeModule) := [
  (.array, .ofBuiltins [.arrayLength, .arrayAppend, .arrayPop]),
  (.span, .ofBuiltins [.spanExpand, .spanStep]),
  (.dictionary, .ofBuiltins [.dictPut, .dictGet, .dictHas, .dictRemove, .dictSize, .dictKeys]),
  (.text, .ofBuiltins [.textLength])]

def globals : NativeModule := .ofBuiltins [.newDictionary, .newList]

end Library

end FiberMachine
