import ScriptTrace.Native.Symbol
import ScriptTrace.Visibility

namespace ScriptTrace.Native

def runtimePackages : List String := ["std", "core", "alloc"]

def capturePackages : List String := ["backtrace", "phpstack", "phpstack_backtrace"]

def moduleOf (package : String) : CodeModule :=
  { name := package
    signatureKey := if runtimePackages.contains package then some runtimeSignatureKey else none }

def startsUppercase [CharClasses] (name : String) : Bool :=
  name.toList.head?.any CharClasses.isUppercase

/-- The name that stands before a routine's is a type if it starts in upper case. Otherwise it is a
scope of code, whose routines are free functions. -/
def typeOf [CharClasses] (scope package : String) : DeclaringType :=
  { name := scope
    isScriptMarked := !startsUppercase scope
    markers := { stackTraceHidden := capturePackages.contains package }
    module := moduleOf package }

/-- The routine that a symbol names. A lone name comes from foreign code, and the `main` of a
package is its top-level code. A package that is known from elsewhere goes before the one that the
symbol starts with. -/
def routineOfSymbol [CharClasses] (symbol : String) (package : Option String)
    (globalCodeName : String) : Routine :=
  match (Symbol.path symbol).reverse with
  | [] => { name := symbol }
  | [name] => { name, markers := { debuggerHidden := true } }
  | name :: scope :: outer =>
    { name := if outer.isEmpty && name = "main" then globalCodeName else name
      declaringType := some (typeOf scope (package.getD (outer.getLast?.getD scope))) }

end ScriptTrace.Native
