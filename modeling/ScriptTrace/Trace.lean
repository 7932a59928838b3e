import ScriptTrace.Listing

namespace ScriptTrace

/-- The visible frames of one captured stack, most recent call first. -/
structure Trace where
  frames : List Frame := []
  deriving DecidableEq

namespace Trace

def ofStack [CharClasses] (filter : FrameFilter) (stack : List HostFrame) : Trace :=
  ⟨stack.filterMap filter.visibleFrame?⟩

def unfiltered (filter : FrameFilter) (stack : List HostFrame) : Trace :=
  ⟨stack.filterMap filter.frame?⟩

variable (trace : Trace)

def lines : List Line := Line.sequence trace.frames

def capturePoint : Option Place := trace.frames.head?.bind (·.place)

def file : String := (trace.capturePoint.map (·.file)).getD ""

def line : UInt32 := (trace.capturePoint.map (·.line)).getD 0

def column : Option UInt32 := trace.capturePoint.bind (·.column)

def text : String := Listing.traceText trace.lines

def backtrace (skip : Int) (limit : Option Nat) : Except Error (List Record) :=
  Listing.records trace.lines skip limit

def banner (identifier message : String) : String :=
  Listing.banner trace.lines identifier message

end Trace

end ScriptTrace
