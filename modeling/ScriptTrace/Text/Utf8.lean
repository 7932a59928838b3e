namespace ScriptTrace.Text.Utf8

def replacement : Char := '\ufffd'

/-- How a sequence goes on after its first byte: the bits that byte gives, the range of the second
byte, and the number of bytes after the second. -/
structure Lead where
  bits : Nat
  low : Nat
  high : Nat
  more : Nat

/-- The well-formed first bytes above ASCII. The narrowed second ranges shut out overlong forms,
surrogates, and code points past the last. -/
def lead? (byte : Nat) : Option Lead :=
  if byte < 0xC2 then none
  else if byte < 0xE0 then some ⟨byte - 0xC0, 0x80, 0xBF, 0⟩
  else if byte = 0xE0 then some ⟨0, 0xA0, 0xBF, 1⟩
  else if byte = 0xED then some ⟨0xD, 0x80, 0x9F, 1⟩
  else if byte < 0xF0 then some ⟨byte - 0xE0, 0x80, 0xBF, 1⟩
  else if byte = 0xF0 then some ⟨0, 0x90, 0xBF, 2⟩
  else if byte = 0xF4 then some ⟨4, 0x80, 0x8F, 2⟩
  else if byte < 0xF4 then some ⟨byte - 0xF0, 0x80, 0xBF, 2⟩
  else none

inductive State where
  | start
  | within (bits low high more : Nat)

def enter (byte : Nat) : List Char × State :=
  if byte < 0x80 then ([Char.ofNat byte], .start)
  else match lead? byte with
    | some lead => ([], .within lead.bits lead.low lead.high lead.more)
    | none => ([replacement], .start)

/-- A byte that does not continue the sequence at hand ends it as one invalid part and is read
afresh. -/
def step (byte : Nat) : State → List Char × State
  | .start => enter byte
  | .within bits low high more =>
    if low ≤ byte && byte ≤ high then
      let bits := bits * 64 + (byte - 0x80)
      match more with
      | 0 => ([Char.ofNat bits], .start)
      | more + 1 => ([], .within bits 0x80 0xBF more)
    else
      let (chars, state) := enter byte
      (replacement :: chars, state)

def run : State → List UInt8 → List Char
  | .start, [] => []
  | .within .., [] => [replacement]
  | state, byte :: rest =>
    let (chars, state) := step byte.toNat state
    chars ++ run state rest

def encode (text : String) : List UInt8 := text.toList.flatMap String.utf8EncodeChar

def decode (bytes : List UInt8) : String := String.ofList (run .start bytes)

end ScriptTrace.Text.Utf8
