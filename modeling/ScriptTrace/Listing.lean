import ScriptTrace.Record
import ScriptTrace.Error

namespace ScriptTrace.Listing

/-- The records of the calls that have a place: the first line made no call, and the last has no
place. Of these, the first `skip` are left out and at most `limit` are kept. -/
def records (lines : List Line) (skip : Int) (limit : Option Nat) :
    Except Error (List Record) :=
  if skip < 0 then .error (.invalidArgument "skip" skip)
  else
    let listed := (lines.drop 1).dropLast.drop skip.toNat
    let kept := match limit with
      | none => listed
      | some limit => listed.take limit
    .ok (kept.map Record.ofLine)

def numberedLines (lines : List Line) : String :=
  String.join (lines.map (·.numberedText ++ "\n"))

def sum? (m n : UInt64) : Option UInt64 :=
  if m.toNat + n.toNat < UInt64.size then some (m + n) else none

/-- The text of the lines after the first, less `start` more. The count of lines to leave out must
be a word, so that the greatest `start` stops the program. -/
def traceTextFrom? (lines : List Line) (start : UInt64) : Option String :=
  (sum? 1 start).map fun count ↦ numberedLines (lines.drop count.toNat)

theorem isSome_traceTextFrom?_zero (lines : List Line) : (traceTextFrom? lines 0).isSome = true :=
  rfl

def traceText (lines : List Line) : String :=
  (traceTextFrom? lines 0).get (isSome_traceTextFrom?_zero lines)

def banner (lines : List Line) (identifier message : String) : String :=
  let title := if message.isEmpty then identifier else identifier ++ ": " ++ message
  match lines with
  | [] => title
  | first :: rest =>
    title ++ (if first.hasPlace then " in " ++ first.plainText else "") ++
      (if rest.isEmpty then "" else "\nStack trace:\n" ++ numberedLines rest)

end ScriptTrace.Listing
