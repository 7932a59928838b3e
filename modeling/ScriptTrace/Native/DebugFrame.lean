import ScriptTrace.Native.PackageSource
import ScriptTrace.Native.Routine
import ScriptTrace.Native.Settings
import ScriptTrace.Text.Utf16

namespace ScriptTrace.Native

inductive FileName
  | text (name : String)
  | bytes (octets : List UInt8)
  | wide (units : List UInt16)

def FileName.decode : FileName → String
  | text name => name
  | bytes octets => Text.Utf8.decode octets
  | wide units => Text.Utf16.decode units

structure DebugFrame where
  symbol : Option String := none
  file : Option FileName := none
  line : Option UInt32 := none
  column : Option UInt32 := none

def Settings.shownPath (settings : Settings) (path : String) (source : Option PackageSource) :
    String :=
  match source with
  | none => path
  | some source => if settings.showFullPath then path else source.suffix

/-- A frame without a symbol or a file name is left unresolved. -/
def Settings.hostFrame [CharClasses] [PatternSearch] (settings : Settings) (frame : DebugFrame) :
    HostFrame :=
  match frame.symbol, frame.file with
  | some symbol, some file =>
    let path := file.decode
    let source := PackageSource.ofPath? path
    let routine :=
      routineOfSymbol symbol (source.map (·.package)) settings.filter.globalCodeName
    (HostFrame.ofRoutine routine).atPosition (settings.shownPath path source)
      (frame.line.getD 0) (frame.column.getD 0)
  | _, _ => .unresolved

end ScriptTrace.Native
