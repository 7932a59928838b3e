import ScriptTrace.CharClasses

namespace ScriptTrace

/-- A name that script source can spell: a letter or underscore, then letters, digits and
underscores, in the Unicode sense. -/
def isIdentifier [CharClasses] (name : String) : Bool :=
  match name.toList with
  | [] => false
  | first :: rest =>
    (first = '_' || CharClasses.isIdentifierStart first) &&
      rest.all CharClasses.isIdentifierContinue

end ScriptTrace
