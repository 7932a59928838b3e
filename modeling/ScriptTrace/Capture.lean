import ScriptTrace.Trace
import ScriptTrace.Text.Quoted

namespace ScriptTrace

inductive LogLevel
  | trace
  | debug
  | warn
  deriving DecidableEq

def LogLevel.label : LogLevel → String
  | trace => "TRACE"
  | debug => "DEBUG"
  | warn => "WARN"

inductive LogEvent
  | droppedFrame (routine : Option String) (reason : Visibility)
  | builtTrace (taken visible : Nat)
  | captureFailed (error : Error)
  deriving DecidableEq

namespace LogEvent

def level : LogEvent → LogLevel
  | droppedFrame .. => .trace
  | builtTrace .. => .debug
  | captureFailed _ => .warn

def message : LogEvent → String
  | droppedFrame .. => "dropping frame"
  | builtTrace .. => "built trace"
  | captureFailed _ => "stack capture failed"

def optionalText [CharClasses] : Option String → String
  | none => "None"
  | some text => "Some(" ++ Text.quoted text ++ ")"

def fields [CharClasses] : LogEvent → List (String × String)
  | droppedFrame routine reason => [("routine", optionalText routine), ("reason", reason.label)]
  | builtTrace taken visible =>
    [("raw_count", Text.decimal taken), ("visible", Text.decimal visible)]
  | captureFailed error => [("error", error.message)]

end LogEvent

/-- How far a stack has been sifted: the count of host frames taken from it, the frames that stay,
and the log. -/
structure Sifting where
  taken : Nat := 0
  frames : List Frame := []
  events : List LogEvent := []

namespace Sifting

variable [CharClasses] (filter : FrameFilter)

/-- Takes one host frame, and counts it before its fate is known. -/
def take (sifting : Sifting) (host : HostFrame) : Sifting :=
  let counted := { sifting with taken := sifting.taken + 1 }
  match filter.visibility host with
  | .visible =>
    match filter.frame? host with
    | some frame => { counted with frames := counted.frames ++ [frame] }
    | none => counted
  | reason =>
    { counted with
      events := counted.events ++ [.droppedFrame (host.routine.map (·.name)) reason] }

def ofStack (stack : List HostFrame) : Sifting := stack.foldl (take filter) {}

end Sifting

namespace Trace

variable [CharClasses] (filter : FrameFilter)

def build (stack : List HostFrame) : Trace × List LogEvent :=
  let sifting := Sifting.ofStack filter stack
  (⟨sifting.frames⟩, sifting.events ++ [.builtTrace sifting.taken sifting.frames.length])

def capture : Except Error (List HostFrame) → Except Error Trace × List LogEvent
  | .error error => (.error error, [.captureFailed error])
  | .ok stack =>
    let (trace, events) := build filter stack
    (.ok trace, events)

end Trace

end ScriptTrace
