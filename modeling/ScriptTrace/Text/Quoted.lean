import ScriptTrace.CharClasses

namespace ScriptTrace.Text

/-- A quote and a backslash are escaped, four controls by a letter or a zero. Any other character
that does not show by itself is given by its code in hexadecimal. -/
def escaped [CharClasses] (c : Char) : List Char :=
  if c = '"' then ['\\', '"']
  else if c = '\\' then ['\\', '\\']
  else if c = '\t' then ['\\', 't']
  else if c = '\r' then ['\\', 'r']
  else if c = '\n' then ['\\', 'n']
  else if c = '\x00' then ['\\', '0']
  else if CharClasses.extendsGrapheme c || !CharClasses.isPrintable c then
    ['\\', 'u', '{'] ++ Nat.toDigits 16 c.toNat ++ ['}']
  else [c]

def quoted [CharClasses] (s : String) : String :=
  String.ofList ('"' :: s.toList.flatMap escaped ++ ['"'])

end ScriptTrace.Text
