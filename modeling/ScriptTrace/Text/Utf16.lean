import ScriptTrace.Text.Utf8

namespace ScriptTrace.Text.Utf16

def isHighSurrogate (unit : UInt16) : Bool := 0xD800 ≤ unit && unit ≤ 0xDBFF

def isLowSurrogate (unit : UInt16) : Bool := 0xDC00 ≤ unit && unit ≤ 0xDFFF

def paired (high low : UInt16) : Char :=
  Char.ofNat (0x10000 + (high.toNat - 0xD800) * 0x400 + (low.toNat - 0xDC00))

def chars : List UInt16 → List Char
  | [] => []
  | [unit] =>
    [if isHighSurrogate unit || isLowSurrogate unit then Utf8.replacement
      else Char.ofNat unit.toNat]
  | unit :: next :: rest =>
    if isHighSurrogate unit then
      if isLowSurrogate next then paired unit next :: chars rest
      else Utf8.replacement :: chars (next :: rest)
    else if isLowSurrogate unit then Utf8.replacement :: chars (next :: rest)
    else Char.ofNat unit.toNat :: chars (next :: rest)

/-- Decodes code units, with one replacement for each unpaired surrogate. -/
def decode (units : List UInt16) : String := String.ofList (chars units)

end ScriptTrace.Text.Utf16
