import ScriptTrace.Frame
import ScriptTrace.Native.Routine
import ScriptTrace.Proofs.SymbolPath
import ScriptTrace.Proofs.Visible

namespace ScriptTrace.Native

open CharClasses Native.Symbol

theorem bracket_notMem_path {symbol name : String} (h : name ∈ path symbol) :
    '<' ∉ name.toList := by
  obtain ⟨segment, hs, rfl⟩ := List.mem_map.mp h
  rw [String.toList_ofList]
  exact bracket_notMem_segments hs

theorem ne_of_bracket {name other : String} (h : '<' ∉ name.toList) (ho : '<' ∈ other.toList) :
    name ≠ other := fun he ↦ h (he ▸ ho)

theorem path_of_isIdentifier [CharClasses] (he : ExactOnAscii) {symbol : String}
    (h : isIdentifier symbol = true) : path symbol = [symbol] := by
  have hcolon := Text.notMem_of_exactOnAscii he h (c := ':') (by decide) (by decide) (by decide)
  have hbracket := Text.notMem_of_exactOnAscii he h (c := '<') (by decide) (by decide) (by decide)
  obtain ⟨first, rest, hs, -⟩ := (isIdentifier_iff symbol).mp h
  have hne : symbol.toList ≠ [] := hs ▸ List.cons_ne_nil first rest
  rw [path, segments_of_notMem hcolon hbracket hne, List.map_singleton, String.ofList_toList]

theorem path_globalCodeName : path "<Main>" = ["Main"] := by decide +kernel

theorem isIdentifier_main [CharClasses] (he : ExactOnAscii) : isIdentifier "main" = true := by
  have hrest : "ain".toList.all (fun c ↦ c.toNat < 128 && (c.isAlphanum || c = '_')) = true := by
    decide
  refine (isIdentifier_iff _).mpr ⟨'m', "ain".toList, rfl, .inr ?_, fun c hc ↦ ?_⟩
  · exact he.start 'm' (by decide)
  · obtain ⟨hascii, hletter⟩ := Bool.and_eq_true_iff.mp (List.all_eq_true.mp hrest c hc)
    exact (he.further c (of_decide_eq_true hascii)).trans hletter

section Routine

variable [CharClasses] {symbol name scope : String} {outer : List String}
  {known : Option String} {globalCodeName : String}

theorem routineOfSymbol_of_nil (h : path symbol = []) :
    routineOfSymbol symbol known globalCodeName = { name := symbol } := by
  simp [routineOfSymbol, h]

theorem routineOfSymbol_of_singleton (h : path symbol = [name]) :
    routineOfSymbol symbol known globalCodeName =
      { name, markers := { debuggerHidden := true } } := by
  simp [routineOfSymbol, h]

theorem routineOfSymbol_of_concat (h : path symbol = outer ++ [scope, name]) :
    routineOfSymbol symbol known globalCodeName =
      { name := if outer = [] ∧ name = "main" then globalCodeName else name
        declaringType := some (typeOf scope (known.getD (outer.head?.getD scope))) } := by
  simp [routineOfSymbol, h]

end Routine

theorem nil_or_singleton_or_concat {α : Type} (names : List α) :
    names = [] ∨ (∃ name, names = [name]) ∨ ∃ outer scope name, names = outer ++ [scope, name] := by
  rcases List.eq_nil_or_concat' names with rfl | ⟨front, name, rfl⟩
  · exact .inl rfl
  · rcases List.eq_nil_or_concat' front with rfl | ⟨outer, scope, rfl⟩
    · exact .inr (.inl ⟨name, rfl⟩)
    · exact .inr (.inr ⟨outer, scope, name, by simp⟩)

section Verdict

variable [CharClasses] {showHidden : Bool}

theorem admitsName_of_bracket_notMem {name : String} (h : '<' ∉ name.toList) :
    FrameFilter.admitsName { showHidden } name = isIdentifier name := by
  have hne : name ≠ "<Main>" := ne_of_bracket h (by decide)
  simp [FrameFilter.admitsName, hne]

theorem admitsName_of_path_eq_nil (he : ExactOnAscii) {symbol : String} (h : path symbol = []) :
    FrameFilter.admitsName { showHidden } symbol = false := by
  have hmain : symbol ≠ "<Main>" := by
    rintro rfl
    exact absurd (path_globalCodeName.symm.trans h) (List.cons_ne_nil _ _)
  have hname : isIdentifier symbol = false := by
    rw [Bool.eq_false_iff]
    intro hi
    exact absurd ((path_of_isIdentifier he hi).symm.trans h) (List.cons_ne_nil _ _)
  simp [FrameFilter.admitsName, hmain, hname]

def verdictOnPath (showHidden : Bool) (names : List String) (known : Option String) : Visibility :=
  if !names.getLast?.any isIdentifier then .synthesizedName
  else if showHidden then .visible
  else if names.length = 1 then .hidden
  else if known.or names.head? ∈ [some "std", some "core", some "alloc"] then .trustedInternal
  else if known.or names.head? ∈ [some "backtrace", some "phpstack", some "phpstack_backtrace"] then
    .hidden
  else .visible

theorem visibility_of_scope {routine : Routine} {scope package : String}
    (ht : routine.declaringType = some (typeOf scope package)) (hm : routine.markers = {})
    (hs : '<' ∉ scope.toList) (position : Option HostPosition) :
    FrameFilter.visibility { showHidden } ⟨some routine, position⟩ =
      if !FrameFilter.admitsName { showHidden } routine.name then .synthesizedName
      else if showHidden then .visible
      else if package ∈ runtimePackages then .trustedInternal
      else if package ∈ capturePackages then .hidden
      else .visible := by
  have hne : scope ≠ "<Script>" := ne_of_bracket hs (by decide)
  have hcontainer : FrameFilter.inScriptContainer { showHidden } routine = false := by
    simp [FrameFilter.inScriptContainer, ht, typeOf, hne]
  have htrusted : FrameFilter.isTrustedInternal { showHidden } routine =
      decide (package ∈ runtimePackages) := by
    by_cases hp : package ∈ runtimePackages <;>
      simp [FrameFilter.isTrustedInternal, FrameFilter.isTrusted, Routine.isLibraryRoutine, ht,
        typeOf, moduleOf, hp]
  have hmarked : routine.isMarkedHidden = decide (package ∈ capturePackages) := by
    simp [Routine.isMarkedHidden, HideMarkers.any, hm, ht, typeOf]
  simp only [FrameFilter.visibility, hcontainer, htrusted, hmarked, Bool.false_eq_true, if_false,
    decide_eq_true_eq]

theorem visibility_routineOfSymbol (he : ExactOnAscii) (symbol : String) (known : Option String)
    (position : Option HostPosition) :
    FrameFilter.visibility { showHidden } ⟨some (routineOfSymbol symbol known "<Main>"), position⟩ =
      verdictOnPath showHidden (path symbol) known := by
  rcases nil_or_singleton_or_concat (path symbol) with h | ⟨name, h⟩ | ⟨outer, scope, name, h⟩
  · rw [routineOfSymbol_of_nil h, verdictOnPath, h, FrameFilter.visibility]
    simp [admitsName_of_path_eq_nil he h]
  · have hm : name ∈ path symbol := by simp [h]
    rw [routineOfSymbol_of_singleton h, verdictOnPath, h, FrameFilter.visibility]
    simp [admitsName_of_bracket_notMem (bracket_notMem_path hm), FrameFilter.inScriptContainer,
      FrameFilter.isTrustedInternal, Routine.isMarkedHidden, HideMarkers.any]
  · have hm : name ∈ path symbol := by simp [h]
    have hs : scope ∈ path symbol := by simp [h]
    have hname : FrameFilter.admitsName { showHidden }
        (if outer = [] ∧ name = "main" then "<Main>" else name) = isIdentifier name := by
      split
      · next hmain =>
        simp [FrameFilter.admitsName, hmain.2, isIdentifier_main he]
      · exact admitsName_of_bracket_notMem (bracket_notMem_path hm)
    have hhead : (outer ++ [scope, name]).head? = some (outer.head?.getD scope) := by
      cases outer <;> rfl
    have hpackage : known.or (some (outer.head?.getD scope)) =
        some (known.getD (outer.head?.getD scope)) := by cases known <;> rfl
    rw [routineOfSymbol_of_concat h, visibility_of_scope rfl rfl (bracket_notMem_path hs), hname,
      verdictOnPath, h, hhead, hpackage]
    simp [runtimePackages, capturePackages]

theorem calleeOf_routineOfSymbol {symbol scope name : String} {outer : List String}
    (h : path symbol = outer ++ [scope, name]) (known : Option String) :
    FrameFilter.calleeOf { showHidden } (routineOfSymbol symbol known "<Main>") =
      if outer = [] ∧ name = "main" then .globalCode
      else .routine name (if startsUppercase scope then some scope else none) true [] := by
  rw [routineOfSymbol_of_concat h]
  split
  · exact FrameFilter.calleeOf_of_isGlobalCode ⟨rfl, rfl⟩
  · have hm : name ∈ path symbol := by simp [h]
    have hne : name ≠ "<Main>" := ne_of_bracket (bracket_notMem_path hm) (by decide)
    rw [FrameFilter.calleeOf_of_not_isGlobalCode fun hg ↦ hne hg.2]
    cases hu : startsUppercase scope <;>
      simp [Routine.owner, Routine.sourceParameters, DeclaringType.holdsFreeFunctions, typeOf, hu]

/-- Which native frames a script sees, why it does not see the others, and what they are called:
all of it read off the names on the path of the symbol and the package. -/
theorem native_frames_classified (he : ExactOnAscii) (symbol : String) (known : Option String)
    (position : Option HostPosition) :
    let names := path symbol
    let package := known.or names.head?
    let host : HostFrame := ⟨some (routineOfSymbol symbol known "<Main>"), position⟩
    let verdict := FrameFilter.visibility {} host
    let legal := ∃ name, names.getLast? = some name ∧ isIdentifier name = true
    let runtime := package ∈ [some "std", some "core", some "alloc"]
    let capture := package ∈ [some "backtrace", some "phpstack", some "phpstack_backtrace"]
    (verdict = .visible ↔ 2 ≤ names.length ∧ legal ∧ ¬runtime ∧ ¬capture) ∧
    (¬legal → verdict = .synthesizedName) ∧
    (legal → names.length = 1 → verdict = .hidden) ∧
    (legal → 2 ≤ names.length → runtime → verdict = .trustedInternal) ∧
    (legal → 2 ≤ names.length → capture → verdict = .hidden) ∧
    (FrameFilter.visibility { showHidden := true } host = .visible ↔ legal) ∧
    ∀ showHidden outer scope name, names = outer ++ [scope, name] →
      ∃ frame, FrameFilter.frame? { showHidden } host = some frame ∧
        (frame.callee.isGlobalCode = true ↔ names.length = 2 ∧ name = "main") ∧
        (frame.callee.isGlobalCode = false → frame.callee.name = name ∧
          frame.callee.parameters = [] ∧ frame.callee.operator = "::" ∧
          frame.callee.owner = if startsUppercase scope then some scope else none) := by
  intro names package host verdict legal runtime capture
  have hlegal : names.getLast?.any isIdentifier = true ↔ legal := Option.any_eq_true _ _
  have hlength : legal → names.length ≠ 1 → 2 ≤ names.length := by
    rintro ⟨name, hl, -⟩ hne
    have hpos : names.length ≠ 0 := by
      intro h0
      rw [List.length_eq_zero_iff.mp h0] at hl
      cases hl
    omega
  have hdisjoint : capture → ¬runtime := by
    have h : ∀ p ∈ [some "std", some "core", some "alloc"],
        p ∉ [some "backtrace", some "phpstack", some "phpstack_backtrace"] := by decide
    exact fun hc hr ↦ h package hr hc
  have hpath : verdict = verdictOnPath false names known :=
    visibility_routineOfSymbol he symbol known position
  have hillegal : ¬legal → verdict = .synthesizedName := by
    intro hl
    have hn := mt hlegal.mp hl
    rw [hpath, verdictOnPath, if_pos (by simpa using hn)]
  have hverdict : legal → verdict = if names.length = 1 then .hidden
      else if runtime then .trustedInternal else if capture then .hidden else .visible := by
    intro hl
    rw [hpath, verdictOnPath, hlegal.mpr hl, if_neg (by decide), if_neg Bool.false_ne_true]
  refine ⟨⟨fun hv ↦ ?_, ?_⟩, hillegal, ?_, ?_, ?_, ?_, ?_⟩
  · by_cases hl : legal
    · rw [hverdict hl] at hv
      split_ifs at hv with h1 hr hc
      exact ⟨hlength hl h1, hl, hr, hc⟩
    · cases (hillegal hl).symm.trans hv
  · rintro ⟨h2, hl, hr, hc⟩
    rw [hverdict hl, if_neg (by omega), if_neg hr, if_neg hc]
  · intro hl h1
    rw [hverdict hl, if_pos h1]
  · intro hl h2 hr
    rw [hverdict hl, if_neg (by omega), if_pos hr]
  · intro hl h2 hc
    rw [hverdict hl, if_neg (by omega), if_neg (hdisjoint hc), if_pos hc]
  · rw [visibility_routineOfSymbol he, verdictOnPath, ← hlegal]
    cases names.getLast?.any isIdentifier <;> simp
  · intro showHidden outer scope name h
    have htwo : names.length = 2 ↔ outer = [] := by simp [names, h]
    refine ⟨_, rfl, ?_⟩
    dsimp only
    rw [calleeOf_routineOfSymbol h, htwo]
    split
    · next hmain => exact ⟨⟨fun _ ↦ hmain, fun _ ↦ rfl⟩, nofun⟩
    · next hmain => exact ⟨⟨nofun, fun hm ↦ absurd hm hmain⟩, fun _ ↦ ⟨rfl, rfl, rfl, rfl⟩⟩

end Verdict

open CharClasses.Ascii

theorem native_frames_classified_of_method :
    let symbol := "<&app::Foo<T> as core::fmt::Debug>::fmt"
    let names := ["app", "Foo", "fmt"]
    let host (known : Option String) : HostFrame :=
      ⟨some (routineOfSymbol symbol known "<Main>"), none⟩
    let closure : HostFrame := ⟨some (routineOfSymbol "app::f::\x7bc\x7d" none "<Main>"), none⟩
    ExactOnAscii ∧ path symbol = names ∧
      (∃ name, names.getLast? = some name ∧ isIdentifier name = true) ∧
      FrameFilter.visibility {} (host none) = .visible ∧
      FrameFilter.visibility {} (host (some "core")) = .trustedInternal ∧
      FrameFilter.visibility {} (host (some "backtrace")) = .hidden ∧
      FrameFilter.visibility {} closure = .synthesizedName ∧
      ∃ frame, FrameFilter.frame? {} (host none) = some frame ∧ frame.callee.name = "fmt" ∧
        frame.callee.owner = some "Foo" := by
  intro symbol names host closure
  have hpath : path symbol = names := by decide +kernel
  have hclosure : path "app::f::\x7bc\x7d" = ["app", "f", "\x7bc\x7d"] := by decide +kernel
  have hlegal : ∃ name, (path symbol).getLast? = some name ∧ isIdentifier name = true :=
    ⟨"fmt", by rw [hpath]; rfl, by decide⟩
  have hlength : 2 ≤ (path symbol).length := by rw [hpath]; decide
  have hhead : (path symbol).head? = some "app" := by rw [hpath]; rfl
  obtain ⟨hvisible, -, -, -, -, -, hframe⟩ := native_frames_classified exactOnAscii symbol none none
  obtain ⟨-, -, -, hruntime, -⟩ := native_frames_classified exactOnAscii symbol (some "core") none
  obtain ⟨-, -, -, -, hcapture, -⟩ :=
    native_frames_classified exactOnAscii symbol (some "backtrace") none
  obtain ⟨-, hillegal, -⟩ := native_frames_classified exactOnAscii "app::f::\x7bc\x7d" none none
  obtain ⟨frame, hf, hglobal, hcallee⟩ := hframe false ["app"] "Foo" "fmt" hpath
  have hcall : frame.callee.isGlobalCode = false := by
    rw [Bool.eq_false_iff]
    exact fun hg ↦ absurd (hglobal.mp hg).2 (by decide)
  obtain ⟨hname, -, -, howner⟩ := hcallee hcall
  refine ⟨exactOnAscii, hpath, hpath ▸ hlegal, hvisible.mpr ⟨hlength, hlegal, ?_, ?_⟩,
    hruntime hlegal hlength (by decide), hcapture hlegal hlength (by decide), hillegal ?_,
    frame, hf, hname, howner.trans (by decide)⟩
  · rw [hhead]
    decide
  · rw [hhead]
    decide
  · rintro ⟨name, hl, hi⟩
    rw [hclosure] at hl
    obtain rfl := Option.some.inj hl
    exact absurd hi (by decide)

end ScriptTrace.Native
