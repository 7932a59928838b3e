import ScriptTrace.Text.Decimal

namespace ScriptTrace

inductive Error
  | invalidArgument (argument : String) (value : Int)
  | captureUnavailable (reason : String)
  deriving DecidableEq

def Error.message : Error → String
  | invalidArgument argument value =>
    "argument `" ++ argument ++ "` must be greater than or equal to 0, got " ++
      Text.signedDecimal value
  | captureUnavailable reason => "stack capture is unavailable: " ++ reason

end ScriptTrace
