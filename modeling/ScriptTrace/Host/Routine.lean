namespace ScriptTrace

structure HideMarkers where
  debuggerHidden : Bool := false
  stackTraceHidden : Bool := false
  deriving DecidableEq

def HideMarkers.any (markers : HideMarkers) : Bool :=
  markers.debuggerHidden || markers.stackTraceHidden

structure CodeModule where
  name : String := ""
  signatureKey : Option String := none
  isLibraryExtension : Bool := false
  deriving DecidableEq

namespace CodeModule

def sign (module : CodeModule) (key : String) : CodeModule :=
  { module with signatureKey := some key }

def asLibraryExtension (module : CodeModule) : CodeModule :=
  { module with isLibraryExtension := true }

end CodeModule

structure DeclaringType where
  name : String
  isPublic : Bool := true
  isAbstract : Bool := false
  isScriptMarked : Bool := false
  markers : HideMarkers := {}
  module : CodeModule := {}
  deriving DecidableEq

namespace DeclaringType

def asPrivate (type : DeclaringType) : DeclaringType := { type with isPublic := false }

def asStaticOnly (type : DeclaringType) : DeclaringType := { type with isAbstract := true }

def asScriptMarked (type : DeclaringType) : DeclaringType := { type with isScriptMarked := true }

def mark (type : DeclaringType) (markers : HideMarkers) : DeclaringType :=
  { type with markers }

def loadedFrom (type : DeclaringType) (module : CodeModule) : DeclaringType := { type with module }

end DeclaringType

/-- A declared parameter; an implicit one was added by the compiler. -/
structure Parameter where
  name : String
  isImplicit : Bool := false
  deriving DecidableEq

structure Routine where
  name : String
  isStatic : Bool := true
  isPublic : Bool := true
  parameters : List Parameter := []
  markers : HideMarkers := {}
  declaringType : Option DeclaringType := none
  deriving DecidableEq

namespace Routine

def asInstance (routine : Routine) : Routine := { routine with isStatic := false }

def asPrivate (routine : Routine) : Routine := { routine with isPublic := false }

def addParameter (routine : Routine) (parameter : Parameter) : Routine :=
  { routine with parameters := routine.parameters ++ [parameter] }

def mark (routine : Routine) (markers : HideMarkers) : Routine := { routine with markers }

def declareIn (routine : Routine) (type : DeclaringType) : Routine :=
  { routine with declaringType := some type }

end Routine

end ScriptTrace
