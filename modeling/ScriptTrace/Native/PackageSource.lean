import ScriptTrace.Pattern

namespace ScriptTrace.Native

structure PackageSource where
  package : String
  suffix : String
  deriving DecidableEq

namespace PackageSource

def hexDigit : CharSet := { ranges := [('0', '9'), ('a', 'f')] }

def packageLetter : CharSet := { ranges := [('a', 'z')], singles := ['_'] }

def decimalDigit : CharSet := { ranges := [('0', '9')] }

def inFolder : CharSet := { singles := ['/'], isNegated := true }

def beforeDot : CharSet := { singles := ['.', '/'], isNegated := true }

def sourceFile : Pattern := .literal "/src/" ++ (.repeated .inLine 0 none ++ .stop)

/-- A source file of the standard library, as installed or below the root that is named by the hash
of a compiler's sources. -/
def libraryPattern : Pattern :=
  .either (.literal "/lib/rustlib/src/rust")
      (.start ++ (.literal "/rustc/" ++ .repeated hexDigit 40 (some 40))) ++
    (.literal "/library/" ++ (.group (.repeated packageLetter 1 none) ++ sourceFile))

/-- A source file of a release, below the index of a registry. -/
def releasePattern : Pattern :=
  .literal "/.cargo/registry/src/" ++ (.repeated inFolder 1 none ++ (.literal "-" ++
    (.repeated hexDigit 16 (some 16) ++ (.literal "/" ++ (.group (.repeated beforeDot 1 none) ++
      (.literal "-" ++ (.repeated decimalDigit 1 none ++ (.literal "." ++
        (.repeated inFolder 0 none ++ sourceFile)))))))))

example : libraryPattern.source =
    "(?:/lib/rustlib/src/rust|^/rustc/[0-9a-f]{40})/library/([a-z_]+)/src/.*$" := by
  decide +kernel

example : releasePattern.source =
    "/\\.cargo/registry/src/[^/]+-[0-9a-f]{16}/([^./]+)-[0-9]+\\.[^/]*/src/.*$" := by
  decide +kernel

def underscored (c : Char) : Char := if c = '-' then '_' else c

def ofCaptures? (captures : Captures) : Option PackageSource :=
  (captures.get? 1).map fun package ↦
    ⟨String.ofList (package.text.map underscored), String.ofList (package.text ++ package.after)⟩

/-- The standard library goes before the registry. -/
def ofPath? [PatternSearch] (path : String) : Option PackageSource :=
  ((PatternSearch.captures? libraryPattern path).or
    (PatternSearch.captures? releasePattern path)).bind ofCaptures?

end PackageSource

end ScriptTrace.Native
