/-!
# Built-in functions

The functions a machine comes with, as names without behaviour. A function
object holds one of these names or the number of a function that the host brings
along, so that objects are plain data.
-/

namespace FiberMachine

inductive UnaryMath where
  | sin | cos | tan | asin | acos | atan
  | sinh | cosh | tanh | asinh | acosh | atanh
  | exp | exp2 | expm1 | log | log2 | log10
  | floor | ceil | round | sqrt | cbrt | abs
deriving DecidableEq, Repr

namespace UnaryMath

def name : UnaryMath → String
  | sin => "sin" | cos => "cos" | tan => "tan"
  | asin => "asin" | acos => "acos" | atan => "atan"
  | sinh => "sinh" | cosh => "cosh" | tanh => "tanh"
  | asinh => "asinh" | acosh => "acosh" | atanh => "atanh"
  | exp => "exp" | exp2 => "exp2" | expm1 => "expm1"
  | log => "log" | log2 => "log2" | log10 => "log10"
  | floor => "floor" | ceil => "ceil" | round => "round"
  | sqrt => "sqrt" | cbrt => "cbrt" | abs => "abs"

end UnaryMath

inductive BinaryMath where
  | atan2 | pow
deriving DecidableEq, Repr

namespace BinaryMath

def name : BinaryMath → String
  | atan2 => "atan2"
  | pow => "pow"

end BinaryMath

inductive Builtin where
  | newDictionary | newList
  | arrayLength | arrayAppend | arrayPop
  | spanExpand | spanStep
  | dictPut | dictGet | dictHas | dictRemove | dictSize | dictKeys
  | textLength
  | print | printLine | input
  | now | clock
  | jsonParse | jsonStringify
  | fileExists | fileText
  | unary (f : UnaryMath)
  | binary (f : BinaryMath)
deriving DecidableEq, Repr

namespace Builtin

/-- The name that a program calls the function by, and that its faults give. -/
def name : Builtin → String
  | newDictionary => "Dictionary"
  | newList => "List"
  | arrayLength | textLength => "length"
  | arrayAppend => "append"
  | arrayPop => "pop"
  | spanExpand => "expand"
  | spanStep => "step"
  | dictPut => "put"
  | dictGet => "get"
  | dictHas => "has"
  | dictRemove => "remove"
  | dictSize => "size"
  | dictKeys => "keys"
  | print => "print"
  | printLine => "println"
  | input => "input"
  | now => "now"
  | clock => "clock"
  | jsonParse => "parse"
  | jsonStringify => "stringify"
  | fileExists => "fileExists"
  | fileText => "readFile"
  | unary f => f.name
  | binary f => f.name

end Builtin

/-- Where the behaviour of a native function is found. -/
inductive NativeCode where
  | builtin (b : Builtin)
  | host (id : Nat)
deriving DecidableEq, Repr

/-- How many arguments a native function takes. -/
inductive Arity where
  | exactly (n : Nat)
  | any
deriving DecidableEq, Repr

namespace Arity

def accepts : Arity → Nat → Bool
  | exactly n, got => n == got
  | any, _ => true

end Arity

structure Native where
  name : String
  arity : Arity
  code : NativeCode
deriving DecidableEq, Repr

namespace Builtin

/-- How many arguments a call gives; the receiver of a method is not one of them. -/
def arity : Builtin → Arity
  | newDictionary | newList | arrayLength | arrayPop | spanExpand | dictSize | dictKeys
  | textLength | input | now | clock => .exactly 0
  | arrayAppend | spanStep | dictGet | dictHas | dictRemove | jsonParse | fileExists | fileText
  | unary _ => .exactly 1
  | dictPut | binary _ => .exactly 2
  | print | printLine | jsonStringify => .any

def native (b : Builtin) : Native := ⟨b.name, b.arity, .builtin b⟩

end Builtin

end FiberMachine
