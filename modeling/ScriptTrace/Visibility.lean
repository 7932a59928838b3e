import ScriptTrace.Host.Frame
import ScriptTrace.Identifier

namespace ScriptTrace

inductive Visibility
  | visible
  | noRoutine
  | synthesizedName
  | scriptContainer
  | trustedInternal
  | hidden
  deriving DecidableEq

namespace Visibility

def isVisible (visibility : Visibility) : Bool := visibility = .visible

def label : Visibility → String
  | visible => "Visible"
  | noRoutine => "NoRoutine"
  | synthesizedName => "SynthesizedName"
  | scriptContainer => "ScriptContainer"
  | trustedInternal => "TrustedInternal"
  | hidden => "Hidden"

end Visibility

def runtimeSignatureKey : String := "5b4bee2bf1f98593"

def Routine.isLibraryRoutine (routine : Routine) (type : DeclaringType) : Bool :=
  routine.isPublic && routine.isStatic && type.isPublic && type.isAbstract

def Routine.isMarkedHidden (routine : Routine) : Bool :=
  routine.markers.any || routine.declaringType.any (·.markers.any)

structure FrameFilter where
  globalCodeName : String := "<Main>"
  scriptContainerName : String := "<Script>"
  trustedSignatureKeys : List String := [runtimeSignatureKey]
  showHidden : Bool := false
  deriving DecidableEq

namespace FrameFilter

variable (filter : FrameFilter)

def isGlobalCode (routine : Routine) : Bool :=
  routine.isStatic && routine.name = filter.globalCodeName

def admitsName [CharClasses] (name : String) : Bool :=
  name = filter.globalCodeName || isIdentifier name

def inScriptContainer (routine : Routine) : Bool :=
  routine.declaringType.any (·.name = filter.scriptContainerName)

def isTrusted (type : DeclaringType) : Bool :=
  type.module.signatureKey.any (filter.trustedSignatureKeys.contains ·)

def isTrustedInternal (routine : Routine) : Bool :=
  routine.declaringType.any fun type ↦ filter.isTrusted type && !routine.isLibraryRoutine type

/-- Showing hidden frames lifts the last two rules only. -/
def visibility [CharClasses] (frame : HostFrame) : Visibility :=
  match frame.routine with
  | none => .noRoutine
  | some routine =>
    if !filter.admitsName routine.name then .synthesizedName
    else if filter.inScriptContainer routine then .scriptContainer
    else if filter.showHidden then .visible
    else if filter.isTrustedInternal routine then .trustedInternal
    else if routine.isMarkedHidden then .hidden
    else .visible

def shows [CharClasses] (frame : HostFrame) : Bool := (filter.visibility frame).isVisible

end FrameFilter

end ScriptTrace
