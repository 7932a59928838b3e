import ScriptTrace.Frame

namespace ScriptTrace

/-- One line of a trace: where a call was made, and what was called. The place and the callee come
from neighbouring frames, and the line before the first call has order −1. -/
structure Line where
  order : Int
  caller : Option Frame
  called : Option Frame
  deriving DecidableEq

namespace Line

def place (line : Line) : Option Place := line.caller.bind (·.place)

def hasPlace (line : Line) : Bool := line.place.isSome

def placeText (line : Line) : String :=
  match line.place with
  | none => ""
  | some place => place.text

def callText (line : Line) : String :=
  match line.called with
  | none => ""
  | some frame => (if line.hasPlace then ": " else "") ++ frame.callee.callText

def plainText (line : Line) : String := line.placeText ++ line.callText

def numberedText (line : Line) : String :=
  "#" ++ Text.signedDecimal line.order ++ " " ++ line.plainText

def text (line : Line) : String :=
  if 0 ≤ line.order then line.numberedText else line.plainText

def sequenceFrom (order : Int) (called : Option Frame) : List Frame → List Line
  | [] => [⟨order, none, called⟩]
  | frame :: rest => ⟨order, some frame, called⟩ :: sequenceFrom (order + 1) (some frame) rest

/-- The lines of a stack, most recent call first: one more than it has frames. -/
def sequence (frames : List Frame) : List Line := sequenceFrom (-1) none frames

theorem length_sequenceFrom (order : Int) (called : Option Frame) (frames : List Frame) :
    (sequenceFrom order called frames).length = frames.length + 1 := by
  induction frames generalizing order called with
  | nil => rfl
  | cons frame rest ih => exact congrArg (· + 1) (ih (order + 1) (some frame))

theorem length_sequence (frames : List Frame) : (sequence frames).length = frames.length + 1 :=
  length_sequenceFrom _ _ _

end Line

end ScriptTrace
