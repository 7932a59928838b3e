import ScriptTrace.Host.Frame
import ScriptTrace.Text.Decimal

namespace ScriptTrace

/-- A source position as scripts see it: lines and columns count from zero. -/
structure Place where
  file : String
  line : UInt32
  column : Option UInt32
  deriving DecidableEq

namespace Place

/-- The number that follows zero-based counting; an unknown line counts as the first. -/
def zeroBasedLine (line : UInt32) : UInt32 := if line = 0 then 0 else line - 1

def zeroBasedColumn? (column : UInt32) : Option UInt32 :=
  if column = 0 then none else some (column - 1)

/-- A position without a file, or with an empty one, is no place. -/
def ofHost? (position : HostPosition) : Option Place :=
  match position.file with
  | none => none
  | some file =>
    if file.isEmpty then none
    else some ⟨file, zeroBasedLine position.line, zeroBasedColumn? position.column⟩

def columnText : Option UInt32 → String
  | none => "?"
  | some column => Text.decimal column.toNat

def text (place : Place) : String :=
  place.file ++ "(" ++ Text.decimal place.line.toNat ++ "," ++
    columnText place.column ++ ")"

end Place

end ScriptTrace
