namespace ScriptTrace

/-- The classes of characters of the version of Unicode at hand: `XID_Start`, `XID_Continue`,
`Uppercase` and `Grapheme_Extend`, and the characters that show when printed. They grow from one
version to the next, so that they come from outside. -/
class CharClasses where
  isIdentifierStart : Char → Bool
  isIdentifierContinue : Char → Bool
  isUppercase : Char → Bool
  extendsGrapheme : Char → Bool
  isPrintable : Char → Bool

namespace CharClasses

/-- On ASCII all versions agree. -/
structure ExactOnAscii [CharClasses] : Prop where
  start : ∀ c : Char, c.toNat < 128 → isIdentifierStart c = c.isAlpha
  further : ∀ c : Char, c.toNat < 128 → isIdentifierContinue c = (c.isAlphanum || c = '_')

namespace Ascii

scoped instance ascii : CharClasses where
  isIdentifierStart := Char.isAlpha
  isIdentifierContinue c := c.isAlphanum || c = '_'
  isUppercase := Char.isUpper
  extendsGrapheme _ := false
  isPrintable c := 32 ≤ c.toNat && c.toNat < 127

theorem exactOnAscii : ExactOnAscii := ⟨fun _ _ ↦ rfl, fun _ _ ↦ rfl⟩

end Ascii

end CharClasses

end ScriptTrace
