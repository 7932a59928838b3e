import ScriptTrace.Proofs.PackageReadings

namespace ScriptTrace.Native.PackageSource

open Pattern PatternSearch

/-- Of all places of a text where a shape stands, the one that has the least before it. -/
def IsFirst {σ : Type} (standsAfter : List Char → σ → Prop) (before : List Char) (s : σ) : Prop :=
  standsAfter before s ∧ ∀ before' s', standsAfter before' s' → before.length ≤ before'.length

section Search

variable {σ : Type} {pattern : Pattern} {standsAfter : List Char → List Char → σ → Prop}
  {package suffix : σ → List Char}

theorem IsFirst.unique (hr : Reads pattern standsAfter package suffix)
    {text before before' : List Char} {source source' : σ}
    (h : IsFirst (standsAfter text) before source)
    (h' : IsFirst (standsAfter text) before' source') :
    package source = package source' ∧ suffix source = suffix source' := by
  obtain ⟨rest, rfl, -⟩ := hr.complete h.1
  obtain ⟨rest', htext, -⟩ := hr.complete h'.1
  have hlength := Nat.le_antisymm (h.2 _ _ h'.1) (h'.2 _ _ h.1)
  obtain ⟨rfl, -⟩ := List.append_inj htext hlength
  exact hr.unique h.1 h'.1

variable [PatternSearch] {path : String}

theorem exists_isFirst_of_captures? (hs : IsLeftmostFirst pattern)
    (hr : Reads pattern standsAfter package suffix) {captures : Captures}
    (h : captures? pattern path = some captures) :
    ∃ before source outside below, IsFirst (standsAfter path.toList) before source ∧
      captures.get? 1 = some ⟨outside, package source, below⟩ ∧
      suffix source = package source ++ below := by
  obtain ⟨before, rest, hpath, hcaptures, hfirst⟩ := hs.leftmost_first path captures h
  obtain ⟨reading, hreading, rfl⟩ := mem_of_capturesAt? hcaptures
  obtain ⟨source, outside, below, hstands, hgroup, hsuffix⟩ := hr.sound hreading
  refine ⟨before, source, outside, below, ⟨hpath ▸ hstands, fun before' source' h' ↦ ?_⟩, hgroup,
    hsuffix⟩
  obtain ⟨rest', hpath', hne⟩ := hr.complete h'
  exact hfirst before' rest' hpath' (isSome_capturesAt?_iff.mpr hne)

theorem isSome_captures?_iff (hs : IsLeftmostFirst pattern)
    (hr : Reads pattern standsAfter package suffix) :
    (captures? pattern path).isSome = true ↔
      ∃ before source, standsAfter path.toList before source := by
  constructor
  · intro h
    obtain ⟨captures, hcaptures⟩ := Option.isSome_iff_exists.mp h
    obtain ⟨before, source, _, _, hfirst, -⟩ := exists_isFirst_of_captures? hs hr hcaptures
    exact ⟨before, source, hfirst.1⟩
  · rintro ⟨before, source, hstands⟩
    obtain ⟨rest, hpath, hne⟩ := hr.complete hstands
    exact hs.finds path before rest hpath (isSome_capturesAt?_iff.mpr hne)

theorem bind_ofCaptures?_eq_some_iff (hs : IsLeftmostFirst pattern)
    (hr : Reads pattern standsAfter package suffix) {found : PackageSource} :
    (captures? pattern path).bind ofCaptures? = some found ↔
      ∃ before source, IsFirst (standsAfter path.toList) before source ∧
        found = ⟨String.ofList ((package source).map underscored),
          String.ofList (suffix source)⟩ := by
  constructor
  · intro h
    obtain ⟨captures, hcaptures, hfound⟩ := Option.bind_eq_some_iff.mp h
    obtain ⟨before, source, outside, below, hfirst, hgroup, hsuffix⟩ :=
      exists_isFirst_of_captures? hs hr hcaptures
    rw [ofCaptures?, hgroup, Option.map_some, ← hsuffix, Option.some.injEq] at hfound
    exact ⟨before, source, hfirst, hfound.symm⟩
  · rintro ⟨before, source, hfirst, rfl⟩
    obtain ⟨captures, hcaptures⟩ := Option.isSome_iff_exists.mp
      ((isSome_captures?_iff hs hr).mpr ⟨before, source, hfirst.1⟩)
    obtain ⟨before', source', outside, below, hfirst', hgroup, hsuffix⟩ :=
      exists_isFirst_of_captures? hs hr hcaptures
    obtain ⟨hpackage, hcut⟩ := IsFirst.unique hr hfirst hfirst'
    rw [hcaptures, Option.bind_some, ofCaptures?, hgroup, Option.map_some, hpackage, hcut,
      ← hsuffix]

theorem isSome_bind_ofCaptures?_iff (hs : IsLeftmostFirst pattern)
    (hr : Reads pattern standsAfter package suffix) (path : String) :
    ((captures? pattern path).bind ofCaptures?).isSome = true ↔
      (captures? pattern path).isSome = true := by
  cases hcaptures : captures? pattern path with
  | none => rfl
  | some captures =>
    obtain ⟨_, source, outside, below, -, hgroup, -⟩ := exists_isFirst_of_captures? hs hr hcaptures
    rw [Option.bind_some, ofCaptures?, hgroup]
    rfl

end Search

structure SearchesLeftmostFirst [PatternSearch] : Prop where
  library : IsLeftmostFirst libraryPattern
  release : IsLeftmostFirst releasePattern

section Paths

variable [PatternSearch]

theorem ofPath?_eq_some_iff (hs : SearchesLeftmostFirst) {path : String} {found : PackageSource} :
    ofPath? path = some found ↔
      (∃ before source, IsFirst (LibrarySource.StandsAfter path.toList) before source ∧
        found = ⟨String.ofList (source.package.map underscored), String.ofList source.suffix⟩) ∨
      (¬∃ before source, LibrarySource.StandsAfter path.toList before source) ∧
        ∃ before source, IsFirst (ReleaseSource.StandsAfter path.toList) before source ∧
          found = ⟨String.ofList (source.package.map underscored),
            String.ofList source.suffix⟩ := by
  rw [← isSome_captures?_iff hs.library reads_library,
    ← bind_ofCaptures?_eq_some_iff hs.library reads_library,
    ← bind_ofCaptures?_eq_some_iff hs.release reads_release, ofPath?]
  cases captures? libraryPattern path <;> simp

theorem isSome_ofPath?_iff (hs : SearchesLeftmostFirst) {path : String} :
    (ofPath? path).isSome = true ↔
      (∃ before source, LibrarySource.StandsAfter path.toList before source) ∨
        ∃ before source, ReleaseSource.StandsAfter path.toList before source := by
  have hlibrary := isSome_bind_ofCaptures?_iff hs.library reads_library path
  have hrelease := isSome_bind_ofCaptures?_iff hs.release reads_release path
  rw [← isSome_captures?_iff hs.library reads_library,
    ← isSome_captures?_iff hs.release reads_release, ofPath?]
  cases hc : captures? libraryPattern path with
  | none => simpa using hrelease
  | some captures => simpa [hc] using hlibrary

/-- A path is cut at the package of the first library source in it, and where there is none, of the
first release. A path without either belongs to no known package. -/
theorem ofPath?_cuts_first (hs : SearchesLeftmostFirst) (path : String) :
    (∀ found, ofPath? path = some found ↔
      (∃ before source, IsFirst (LibrarySource.StandsAfter path.toList) before source ∧
        found = ⟨String.ofList (source.package.map fun c ↦ if c = '-' then '_' else c),
          String.ofList source.suffix⟩) ∨
      (¬∃ before source, LibrarySource.StandsAfter path.toList before source) ∧
        ∃ before source, IsFirst (ReleaseSource.StandsAfter path.toList) before source ∧
          found = ⟨String.ofList (source.package.map fun c ↦ if c = '-' then '_' else c),
            String.ofList source.suffix⟩) ∧
    ((ofPath? path).isSome = true ↔
      (∃ before source, LibrarySource.StandsAfter path.toList before source) ∨
        ∃ before source, ReleaseSource.StandsAfter path.toList before source) :=
  ⟨fun _ ↦ ofPath?_eq_some_iff hs, isSome_ofPath?_iff hs⟩

end Paths

open PatternSearch.Backtracking

theorem SearchesLeftmostFirst.backtracking : SearchesLeftmostFirst :=
  ⟨isLeftmostFirst _, isLeftmostFirst _⟩

/-- The first of two library sources is taken, and a library source before any release. -/
theorem ofPath?_cuts_first_of_library_below_release :
    let release := "/a/.cargo/registry/src/i-0123456789abcdef/p-q-1.0/src"
    let file := "lib/rustlib/src/rust/library/std/src/b.rs"
    let path := release ++ "/lib/rustlib/src/rust/library/core/src/" ++ file
    let found : PackageSource := ⟨"core", "core/src/" ++ file⟩
    SearchesLeftmostFirst ∧ ofPath? path = some found ∧
      (∃ before source, ReleaseSource.StandsAfter path.toList before source) ∧
      ∃ before source, IsFirst (LibrarySource.StandsAfter path.toList) before source ∧
        found = ⟨String.ofList (source.package.map fun c ↦ if c = '-' then '_' else c),
          String.ofList source.suffix⟩ := by
  intro release file path found
  have hfound : ofPath? path = some found := by decide +kernel
  have hlibrary : LibrarySource.StandsAfter path.toList release.toList
      { package := "core".toList, file := file.toList } :=
    ⟨_, .installed _, by decide +kernel⟩
  have hrelease : ReleaseSource.StandsAfter path.toList "/a".toList
      { index := ['i'], hash := "0123456789abcdef".toList, package := "p-q".toList
        number := ['1'], version := ['0']
        file := "lib/rustlib/src/rust/library/core/src/".toList ++ file.toList
        number_digits := List.all_eq_true.mp (by decide) } := by
    unfold ReleaseSource.StandsAfter
    decide +kernel
  refine ⟨.backtracking, hfound, ⟨_, _, hrelease⟩, ?_⟩
  exact (((ofPath?_cuts_first .backtracking path).1 found).mp hfound).resolve_right
    fun h ↦ h.1 ⟨_, _, hlibrary⟩

end ScriptTrace.Native.PackageSource
