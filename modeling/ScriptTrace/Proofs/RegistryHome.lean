import ScriptTrace.Native.DebugFrame
import ScriptTrace.Proofs.PackagePaths
import ScriptTrace.Trace

namespace ScriptTrace.Native

open PackageSource

/-- A text below which a registry may lie: it is not itself the start of a known path. -/
structure IsHome (home : List Char) : Prop where
  no_registry : ¬"/.cargo/registry/src/".toList <:+: home
  no_library : ¬"/lib/rustlib/src/rust/library/".toList <:+: home
  not_built : ¬"/rustc/".toList <+: home

/-- A literal that starts before a hidden folder and is longer than what stands there ends with the
slash of that folder. -/
theorem literal_ends_at_folder {literal start rest after : List Char} (hs : start ≠ [])
    (hl : ∀ i < literal.length, 0 < i → (literal.drop i).take 2 ≠ ['/', '.'])
    (hp : ¬literal <+: start) (h : start ++ '/' :: '.' :: rest = literal ++ after) :
    after = '.' :: rest := by
  rcases List.append_eq_append_iff.mp h with ⟨more, hmore, hafter⟩ | ⟨more, rfl, hafter⟩
  · rcases more with _ | ⟨slash, _ | ⟨dot, more⟩⟩
    · exact absurd (by simp [hmore]) hp
    · exact (List.cons.inj hafter).2.symm
    · obtain ⟨rfl, hdot⟩ := List.cons.inj hafter
      obtain ⟨rfl, -⟩ := List.cons.inj hdot
      have hlt : start.length < literal.length := by simp [hmore]
      exact absurd (by simp [hmore]) (hl start.length hlt (List.length_pos_iff.mpr hs))
  · exact absurd (List.prefix_append _ _) hp

section Shift

variable {σ : Type} {standsAfter : List Char → List Char → σ → Prop} {home text : List Char}

theorem exists_isFirst_append_iff (h : ∀ before s, standsAfter (home ++ text) before s ↔
      ∃ inner, before = home ++ inner ∧ standsAfter text inner s) (p : σ → Prop) :
    (∃ before s, IsFirst (standsAfter (home ++ text)) before s ∧ p s) ↔
      ∃ before s, IsFirst (standsAfter text) before s ∧ p s := by
  have hle (inner inner' : List Char) : (home ++ inner).length ≤ (home ++ inner').length ↔
      inner.length ≤ inner'.length := by
    simp
  constructor
  · rintro ⟨before, s, ⟨hs, hfirst⟩, hp⟩
    obtain ⟨inner, rfl, hinner⟩ := (h before s).mp hs
    exact ⟨inner, s, ⟨hinner, fun inner' s' h' ↦
      (hle inner inner').mp (hfirst _ s' ((h _ s').mpr ⟨inner', rfl, h'⟩))⟩, hp⟩
  · rintro ⟨inner, s, ⟨hinner, hfirst⟩, hp⟩
    refine ⟨home ++ inner, s, ⟨(h _ s).mpr ⟨inner, rfl, hinner⟩, fun before' s' h' ↦ ?_⟩, hp⟩
    obtain ⟨inner', rfl, hinner'⟩ := (h before' s').mp h'
    exact (hle inner inner').mpr (hfirst inner' s' hinner')

theorem exists_append_iff (h : ∀ before s, standsAfter (home ++ text) before s ↔
      ∃ inner, before = home ++ inner ∧ standsAfter text inner s) :
    (∃ before s, standsAfter (home ++ text) before s) ↔ ∃ before s, standsAfter text before s := by
  constructor
  · rintro ⟨before, s, hs⟩
    obtain ⟨inner, -, hinner⟩ := (h before s).mp hs
    exact ⟨inner, s, hinner⟩
  · rintro ⟨inner, s, hinner⟩
    exact ⟨_, s, (h _ s).mpr ⟨inner, rfl, hinner⟩⟩

/-- What stands after a text that ends inside the home would have to reach across its end. -/
theorem exists_append_of_not_across {before shape : List Char}
    (h : ∀ rest ≠ [], home = before ++ rest → rest ++ text ≠ shape)
    (he : home ++ text = before ++ shape) :
    ∃ inner, before = home ++ inner ∧ text = inner ++ shape := by
  rcases List.append_eq_append_iff.mp he with ⟨inner, hbefore, htext⟩ | ⟨rest, hh, hshape⟩
  · exact ⟨inner, hbefore, htext⟩
  · cases rest with
    | nil =>
      rw [List.append_nil] at hh
      exact ⟨[], by rw [hh, List.append_nil], hshape.symm⟩
    | cons c rest => exact absurd hshape.symm (h (c :: rest) (List.cons_ne_nil c rest) hh)

end Shift

variable {home : List Char} (source : ReleaseSource)

theorem path_eq_cons : source.path = '/' :: '.' :: ("cargo/registry/src/".toList ++
    source.belowRegistry) := rfl

theorem not_prefix_of_infix {literal before rest : List Char}
    (h : ¬literal <:+: before ++ rest) : ¬literal <+: rest := by
  intro hp
  exact h (hp.isInfix.trans (List.suffix_append before rest).isInfix)

theorem release_across_home (h : IsHome home) (source' : ReleaseSource) {before : List Char} :
    ∀ rest ≠ [], home = before ++ rest → rest ++ source.path ≠ source'.path := by
  intro rest hr hh hpath
  have hprefix := not_prefix_of_infix (hh ▸ h.no_registry)
  have hbelow : source'.index ++ '-' :: source'.hash ++ '/' :: source'.suffix =
      ".cargo".toList ++ '/' :: ("registry/src/".toList ++ source.belowRegistry) :=
    literal_ends_at_folder hr (by decide) hprefix hpath
  -- The folder `.cargo` would have to be an index with its hash.
  have hhash : '/' ∉ source'.hash := fun hm ↦ absurd (source'.hash_digits hm) (by decide)
  have hfolder : '/' ∉ source'.index ++ '-' :: source'.hash := by
    simp [source'.index_in_folder, hhash]
  have hcargo := congrArg List.length (Text.append_cons_inj hfolder (by decide) hbelow).1
  simp [source'.length_hash] at hcargo

theorem installed_across_home (h : IsHome home) (library : LibrarySource) {before : List Char} :
    ∀ rest ≠ [], home = before ++ rest →
      rest ++ source.path ≠ "/lib/rustlib/src/rust/library/".toList ++ library.suffix := by
  intro rest hr hh hpath
  have hprefix := not_prefix_of_infix (hh ▸ h.no_library)
  have hsuffix : library.suffix = '.' :: ("cargo/registry/src/".toList ++ source.belowRegistry) :=
    literal_ends_at_folder hr (by decide) hprefix hpath
  obtain ⟨first, letters, hpackage⟩ := List.exists_cons_of_ne_nil library.package_ne_nil
  rw [LibrarySource.suffix, hpackage] at hsuffix
  have hdot : first = '.' := (List.cons.inj hsuffix).1
  have hletter := library.package_letters (show first ∈ library.package by simp [hpackage])
  exact absurd (hdot ▸ hletter) (by decide)

theorem not_built_below_home (h : IsHome home) {hash rest : List Char} (hlength : hash.length = 40)
    (hdigits : hash ⊆ hexDigits) : home ++ source.path ≠ "/rustc/".toList ++ (hash ++ rest) := by
  intro hpath
  obtain ⟨first, digits, rfl⟩ := List.exists_cons_of_length_pos (l := hash) (by omega)
  cases home with
  | nil => simp [path_eq_cons] at hpath
  | cons c home =>
    have hbelow := literal_ends_at_folder (List.cons_ne_nil c home) (by decide) h.not_built hpath
    have hdot : first = '.' := (List.cons.inj hbelow).1
    exact absurd (hdot ▸ hdigits List.mem_cons_self) (by decide)

theorem releaseStandsAfter_append_iff (h : IsHome home) (before : List Char)
    (source' : ReleaseSource) : ReleaseSource.StandsAfter (home ++ source.path) before source' ↔
      ∃ inner, before = home ++ inner ∧ ReleaseSource.StandsAfter source.path inner source' := by
  constructor
  · exact exists_append_of_not_across (release_across_home source h source')
  · rintro ⟨inner, rfl, hstands⟩
    exact (congrArg (home ++ ·) hstands).trans (List.append_assoc _ _ _).symm

theorem libraryStandsAfter_append_iff (h : IsHome home) (before : List Char)
    (library : LibrarySource) : LibrarySource.StandsAfter (home ++ source.path) before library ↔
      ∃ inner, before = home ++ inner ∧ LibrarySource.StandsAfter source.path inner library := by
  constructor
  · rintro ⟨root, hroot, hpath⟩
    cases hroot with
    | built hlength hdigits =>
      rw [List.nil_append, List.append_assoc, List.append_assoc] at hpath
      exact absurd hpath (not_built_below_home source h hlength hdigits)
    | installed =>
      obtain ⟨inner, hbefore, hinner⟩ :=
        exists_append_of_not_across (installed_across_home source h library) hpath
      exact ⟨inner, hbefore, _, .installed inner, hinner⟩
  · rintro ⟨inner, rfl, root, hroot, hpath⟩
    cases hroot with
    | installed =>
      exact ⟨_, .installed _, (congrArg (home ++ ·) hpath).trans (List.append_assoc _ _ _).symm⟩
    | built => simp [path_eq_cons] at hpath

theorem suffix_isSuffix_of_library {path before : List Char} {library : LibrarySource}
    (h : LibrarySource.StandsAfter path before library) : library.suffix <:+ path := by
  obtain ⟨root, -, rfl⟩ := h
  exact (List.suffix_append _ _).trans (List.suffix_append _ _)

theorem suffix_isSuffix_of_release {path before : List Char} {release : ReleaseSource}
    (h : ReleaseSource.StandsAfter path before release) : release.suffix <:+ path := by
  have hbelow : release.suffix <:+ release.belowRegistry :=
    (List.suffix_cons _ _).trans (List.suffix_append _ _)
  rw [h]
  exact hbelow.trans ((List.suffix_append _ _).trans (List.suffix_append _ _))

section Search

variable [PatternSearch]

theorem suffix_of_ofPath? (hs : SearchesLeftmostFirst) {path : String}
    {found : PackageSource} (h : ofPath? path = some found) :
    found.suffix.toList <:+ path.toList := by
  rcases (ofPath?_eq_some_iff hs).mp h with
    ⟨before, library, ⟨hstands, -⟩, rfl⟩ | ⟨-, before, release, ⟨hstands, -⟩, rfl⟩
  · rw [String.toList_ofList]
    exact suffix_isSuffix_of_library hstands
  · rw [String.toList_ofList]
    exact suffix_isSuffix_of_release hstands

theorem ofPath?_below_home (hs : SearchesLeftmostFirst) (h : IsHome home) {path : String}
    (hp : path.toList = home ++ source.path) :
    ofPath? path = ofPath? (String.ofList source.path) := by
  ext found
  rw [ofPath?_eq_some_iff hs, ofPath?_eq_some_iff hs, hp, String.toList_ofList,
    exists_isFirst_append_iff (libraryStandsAfter_append_iff source h),
    exists_append_iff (libraryStandsAfter_append_iff source h),
    exists_isFirst_append_iff (releaseStandsAfter_append_iff source h)]

theorem exists_ofPath?_below_homes (hs : SearchesLeftmostFirst) :
    ∃ found : PackageSource, found.suffix.toList <:+ source.path ∧
      ∀ (path : String) (home : List Char), IsHome home → path.toList = home ++ source.path →
        ofPath? path = some found := by
  have hpath : (String.ofList source.path).toList = source.path := String.toList_ofList
  obtain ⟨found, hfound⟩ := Option.isSome_iff_exists.mp
    ((isSome_ofPath?_iff hs).mpr (.inr ⟨[], source, hpath⟩))
  refine ⟨found, hpath ▸ suffix_of_ofPath? hs hfound, fun path home h hp ↦ ?_⟩
  rw [ofPath?_below_home source hs h hp, hfound]

end Search

/-- A frame and itself, or a frame in a release below one home and the same frame below another. -/
inductive Moved (home home' : String) : DebugFrame → DebugFrame → Prop
  | same (frame : DebugFrame) : Moved home home' frame frame
  | release (frame : DebugFrame) {name name' : FileName} (source : ReleaseSource)
      (hn : name.decode.toList = home.toList ++ source.path)
      (hn' : name'.decode.toList = home'.toList ++ source.path) :
      Moved home home' { frame with file := some name } { frame with file := some name' }

section Frames

variable [CharClasses] [PatternSearch] {settings : Settings} {frame frame' : DebugFrame}

theorem hostFrame_of_ofPath? (hfull : settings.showFullPath = false) {name : FileName}
    (hn : frame.file = some name) {found : PackageSource} (hf : ofPath? name.decode = some found) :
    settings.hostFrame frame = frame.symbol.elim .unresolved fun symbol ↦
      (HostFrame.ofRoutine
        (routineOfSymbol symbol (some found.package) settings.filter.globalCodeName)).atPosition
          found.suffix (frame.line.getD 0) (frame.column.getD 0) := by
  unfold Settings.hostFrame
  cases frame.symbol with
  | none => rfl
  | some symbol => simp [hn, hf, Settings.shownPath, hfull]

variable {home home' : String}

theorem Moved.hostFrame_eq (hs : SearchesLeftmostFirst) (h : IsHome home.toList)
    (h' : IsHome home'.toList) (hfull : settings.showFullPath = false)
    (hm : Moved home home' frame frame') :
    settings.hostFrame frame = settings.hostFrame frame' := by
  cases hm with
  | same => rfl
  | release frame source hn hn' =>
    obtain ⟨found, -, hfound⟩ := exists_ofPath?_below_homes source hs
    rw [hostFrame_of_ofPath? hfull rfl (hfound _ _ h hn),
      hostFrame_of_ofPath? hfull rfl (hfound _ _ h' hn')]

theorem file_shown_below_home (hs : SearchesLeftmostFirst) (h : IsHome home.toList)
    (hfull : settings.showFullPath = false) {name : FileName} (hn : frame.file = some name)
    {source : ReleaseSource} (hp : name.decode.toList = home.toList ++ source.path)
    {position : HostPosition} (hm : (settings.hostFrame frame).position = some position) :
    ∃ shown, position.file = some shown ∧ shown.toList <:+ source.path := by
  obtain ⟨found, hsuffix, hfound⟩ := exists_ofPath?_below_homes source hs
  rw [hostFrame_of_ofPath? hfull hn (hfound _ _ h hp)] at hm
  cases hsymbol : frame.symbol with
  | none => simp [hsymbol, HostFrame.unresolved] at hm
  | some symbol =>
    rw [hsymbol, Option.elim_some] at hm
    obtain rfl := Option.some.inj hm
    exact ⟨found.suffix, rfl, hsuffix⟩

/-- Files of releases may be moved from one home to another: shortened, they give the same host
frames, and with them the same traces. What is shown of such a file lies below the home. -/
theorem home_does_not_show (hs : SearchesLeftmostFirst) (h : IsHome home.toList)
    (h' : IsHome home'.toList) (hfull : settings.showFullPath = false)
    {frames frames' : List DebugFrame} (hm : List.Forall₂ (Moved home home') frames frames') :
    frames.map settings.hostFrame = frames'.map settings.hostFrame ∧
    (∀ filter,
      let trace := Trace.ofStack filter (frames.map settings.hostFrame)
      let trace' := Trace.ofStack filter (frames'.map settings.hostFrame)
      trace = trace' ∧ trace.text = trace'.text ∧
        (∀ identifier message, trace.banner identifier message = trace'.banner identifier message) ∧
        ∀ skip limit, trace.backtrace skip limit = trace'.backtrace skip limit) ∧
    ∀ frame ∈ frames, ∀ (name : FileName) (source : ReleaseSource), frame.file = some name →
      name.decode.toList = home.toList ++ source.path →
      ∀ position, (settings.hostFrame frame).position = some position →
        ∃ shown, position.file = some shown ∧ shown.toList <:+ source.path := by
  have hframes : frames.map settings.hostFrame = frames'.map settings.hostFrame := by
    induction hm with
    | nil => rfl
    | cons hfirst _ ih => rw [List.map_cons, List.map_cons, hfirst.hostFrame_eq hs h h' hfull, ih]
  refine ⟨hframes, fun filter ↦ ?_, ?_⟩
  · rw [hframes]
    exact ⟨rfl, rfl, fun _ _ ↦ rfl, fun _ _ ↦ rfl⟩
  · intro frame _ name source hn hp position hposition
    exact file_shown_below_home hs h hfull hn hp hposition

end Frames

open CharClasses.Ascii PatternSearch.Backtracking

/-- One home is empty, the other breaks off inside the name of a registry. -/
theorem home_does_not_show_of_broken_registry :
    let source : ReleaseSource :=
      { index := "index.io".toList, hash := "1949cf8c6b5b557f".toList, package := "to-kio".toList
        number := ['1'], version := "48.0".toList, file := "rt.rs".toList
        number_digits := List.all_eq_true.mp (by decide) }
    let path := "/.cargo/registry/src/index.io-1949cf8c6b5b557f/to-kio-1.48.0/src/rt.rs"
    let broken := "/home/u/.cargo/registry/src"
    let below (home : String) : DebugFrame :=
      { symbol := some "to_kio::rt::park", file := some (.text (home ++ path)), line := some 7 }
    let frames : List DebugFrame := [below "", {}]
    let frames' : List DebugFrame := [below broken, {}]
    let settings : Settings := {}
    SearchesLeftmostFirst ∧ IsHome "".toList ∧ IsHome broken.toList ∧
      settings.showFullPath = false ∧ List.Forall₂ (Moved "" broken) frames frames' ∧
      frames.map settings.hostFrame = frames'.map settings.hostFrame ∧
      (Trace.ofStack {} (frames.map settings.hostFrame)).text =
        (Trace.ofStack {} (frames'.map settings.hostFrame)).text ∧
      ∃ position : HostPosition, (settings.hostFrame (below "")).position = some position ∧
        ∃ shown, position.file = some shown ∧ shown.toList <:+ source.path := by
  intro source path broken below frames frames' settings
  have hpath : ("" ++ path).toList = "".toList ++ source.path := by decide +kernel
  have hpath' : (broken ++ path).toList = broken.toList ++ source.path := by decide +kernel
  have hempty : IsHome "".toList := ⟨by decide, by decide, by decide⟩
  have hbroken : IsHome broken.toList := ⟨by decide +kernel, by decide +kernel, by decide +kernel⟩
  have hfull : settings.showFullPath = false := rfl
  have hm : List.Forall₂ (Moved "" broken) frames frames' :=
    .cons (.release (below "") source hpath hpath') (.cons (.same _) .nil)
  obtain ⟨hframes, htraces, hshown⟩ := home_does_not_show .backtracking hempty hbroken hfull hm
  exact ⟨.backtracking, hempty, hbroken, hfull, hm, hframes, (htraces {}).2.1, _, rfl,
    hshown (below "") List.mem_cons_self _ source rfl hpath _ rfl⟩

end ScriptTrace.Native
