import ScriptTrace.Place
import ScriptTrace.Visibility

namespace ScriptTrace

inductive Callee
  | globalCode
  | routine (name : String) (owner : Option String) (isStatic : Bool) (parameters : List String)
  deriving DecidableEq

namespace Callee

def name : Callee → String
  | globalCode => "\x7bmain\x7d"
  | routine name .. => name

def owner : Callee → Option String
  | globalCode => none
  | routine _ owner .. => owner

def isStatic : Callee → Bool
  | globalCode => true
  | routine _ _ isStatic _ => isStatic

def isGlobalCode : Callee → Bool
  | globalCode => true
  | routine .. => false

def parameters : Callee → List String
  | globalCode => []
  | routine _ _ _ parameters => parameters

def operator (callee : Callee) : String := if callee.isStatic then "::" else "->"

def qualifiedName (callee : Callee) : String :=
  match callee.owner with
  | none => callee.name
  | some owner => owner ++ callee.operator ++ callee.name

def parametersText (callee : Callee) : String :=
  String.intercalate ", " (callee.parameters.map ("$" ++ ·))

/-- Top-level code is not called, so its text has no parentheses. -/
def callText (callee : Callee) : String :=
  match callee with
  | globalCode => callee.name
  | routine .. => callee.qualifiedName ++ "(" ++ callee.parametersText ++ ")"

end Callee

/-- Routines of a script's own container and of the static-only types of a library extension read
as free functions. -/
def DeclaringType.holdsFreeFunctions (type : DeclaringType) : Bool :=
  type.isScriptMarked || (type.isPublic && type.isAbstract && type.module.isLibraryExtension)

/-- Only a leading implicit parameter is left out. -/
def Routine.sourceParameters (routine : Routine) : List String :=
  match routine.parameters with
  | [] => []
  | first :: rest => ((if first.isImplicit then rest else first :: rest).map (·.name))

def Routine.owner (routine : Routine) : Option String :=
  (routine.declaringType.filter (!·.holdsFreeFunctions)).map (·.name)

structure Frame where
  place : Option Place
  callee : Callee
  deriving DecidableEq

namespace Frame

def file (frame : Frame) : Option String := frame.place.map (·.file)

def line (frame : Frame) : Option UInt32 := frame.place.map (·.line)

def column (frame : Frame) : Option UInt32 := frame.place.bind (·.column)

def hasPlace (frame : Frame) : Bool := frame.place.isSome

end Frame

namespace FrameFilter

variable (filter : FrameFilter)

def calleeOf (routine : Routine) : Callee :=
  if filter.isGlobalCode routine then .globalCode
  else .routine routine.name routine.owner routine.isStatic routine.sourceParameters

/-- The script's view of a host frame that has a routine, visible or not. -/
def frame? (host : HostFrame) : Option Frame :=
  host.routine.map fun routine ↦ ⟨host.position.bind Place.ofHost?, filter.calleeOf routine⟩

def visibleFrame? [CharClasses] (host : HostFrame) : Option Frame :=
  if filter.shows host then filter.frame? host else none

end FrameFilter

end ScriptTrace
