import ScriptTrace.Host.Routine

namespace ScriptTrace

/-- A source position as the host reports it: lines and columns count from one, and zero stands
for an unknown number. -/
structure HostPosition where
  file : Option String := none
  line : UInt32 := 0
  column : UInt32 := 0
  deriving DecidableEq

structure HostFrame where
  routine : Option Routine := none
  position : Option HostPosition := none
  deriving DecidableEq

namespace HostFrame

def unresolved : HostFrame := {}

def ofRoutine (routine : Routine) : HostFrame := { routine := some routine }

def atPosition (frame : HostFrame) (file : String) (line column : UInt32) : HostFrame :=
  { frame with position := some { file := some file, line, column } }

end HostFrame

end ScriptTrace
