import ScriptTrace.Native.PackageSource
import ScriptTrace.Proofs.PackageShapes
import ScriptTrace.Proofs.Patterns

namespace ScriptTrace.Native.PackageSource

open Pattern

section Sets

theorem mem_iff_toNat_mem {chars : List Char} {c : Char} :
    c ∈ chars ↔ c.toNat ∈ chars.map Char.toNat :=
  (List.mem_map_of_injective fun _ _ ↦ Char.toNat_inj.mp).symm

theorem le_iff_toNat_le {c d : Char} : c ≤ d ↔ c.toNat ≤ d.toNat :=
  Char.le_def.trans UInt32.le_iff_toNat_le

theorem contains_hexDigit_iff {c : Char} : hexDigit.contains c = true ↔ c ∈ hexDigits := by
  have hcodes : hexDigits.map Char.toNat = List.range' 48 10 ++ List.range' 97 6 := by decide
  have hset : hexDigit.contains c = true ↔
      (48 ≤ c.toNat ∧ c.toNat ≤ 57) ∨ (97 ≤ c.toNat ∧ c.toNat ≤ 102) := by
    simp [hexDigit, CharSet.contains, le_iff_toNat_le]
  rw [hset, mem_iff_toNat_mem, hcodes, List.mem_append, List.mem_range'_1, List.mem_range'_1]
  omega

theorem contains_packageLetter_iff {c : Char} :
    packageLetter.contains c = true ↔ c ∈ packageLetters := by
  have hcodes : packageLetters.map Char.toNat = List.range' 97 26 ++ [95] := by decide
  have hset : packageLetter.contains c = true ↔
      (97 ≤ c.toNat ∧ c.toNat ≤ 122) ∨ c.toNat = 95 := by
    simp [packageLetter, CharSet.contains, le_iff_toNat_le, ← Char.toNat_inj]
  rw [hset, mem_iff_toNat_mem, hcodes, List.mem_append, List.mem_range'_1, List.mem_singleton]
  omega

theorem contains_decimalDigit_iff {c : Char} :
    decimalDigit.contains c = true ↔ c.isDigit = true := by
  simp [decimalDigit, CharSet.contains, Char.isDigit, Char.le_def]

theorem contains_inFolder_iff {c : Char} : inFolder.contains c = true ↔ c ≠ '/' := by
  simp [inFolder, CharSet.contains]

theorem contains_beforeDot_iff {c : Char} :
    beforeDot.contains c = true ↔ c ≠ '.' ∧ c ≠ '/' := by
  simp [beforeDot, CharSet.contains]

theorem contains_inLine_iff {c : Char} : CharSet.inLine.contains c = true ↔ c ≠ '\n' := by
  simp [CharSet.inLine, CharSet.contains]

end Sets

section Readings

variable {reading next : Reading} {before rest : List Char}

theorem mem_readings_sourceFile : next ∈ sourceFile.readings reading ↔
    ∃ file, reading.rest = "/src/".toList ++ file ∧ '\n' ∉ file ∧
      next = reading.past ("/src/".toList ++ file) [] := by
  simp only [sourceFile, mem_readings_append, mem_readings_literal, mem_readings_repeated,
    mem_readings_stop, contains_inLine_iff]
  constructor
  · rintro ⟨_, ⟨rest, hrest, rfl⟩, _, ⟨file, tail, rfl, hline, -, -, rfl⟩, hstop, rfl⟩
    obtain rfl : tail = [] := hstop
    rw [List.append_nil] at hrest
    exact ⟨file, hrest, fun hm ↦ hline _ hm rfl, Reading.past_past _ _ _ _ _⟩
  · rintro ⟨file, hrest, hline, rfl⟩
    exact ⟨_, ⟨file, hrest, rfl⟩, _, ⟨file, [], (List.append_nil file).symm,
      fun c hc he ↦ hline (he ▸ hc), Nat.zero_le _, nofun, rfl⟩, rfl,
      (Reading.past_past _ _ _ _ _).symm⟩

theorem mem_readings_root {stage : Reading} :
    stage ∈ (either (.literal "/lib/rustlib/src/rust")
      (.start ++ (.literal "/rustc/" ++ .repeated hexDigit 40 (some 40)))).readings
        ⟨before.reverse, rest, none⟩ ↔
      ∃ root below, LibrarySource.IsRoot before root ∧ rest = root ++ below ∧
        stage = (⟨before.reverse, rest, none⟩ : Reading).past root below := by
  simp only [mem_readings_append, mem_readings_either, mem_readings_literal, mem_readings_repeated,
    mem_readings_start, contains_hexDigit_iff]
  constructor
  · rintro (⟨below, hrest, rfl⟩ |
      ⟨_, ⟨hstart, rfl⟩, _, ⟨_, hrest, rfl⟩, hash, below, rfl, hdigits, hleast, hmost, rfl⟩)
    · exact ⟨_, below, .installed before, hrest, rfl⟩
    · obtain rfl := List.reverse_eq_nil_iff.mp hstart
      have hlength : hash.length = 40 := Nat.le_antisymm (hmost 40 rfl) hleast
      refine ⟨_, below, .built hlength hdigits, ?_, Reading.past_past _ _ _ _ _⟩
      rw [List.append_assoc]
      exact hrest
  · rintro ⟨root, below, hroot, hrest, rfl⟩
    cases hroot with
    | installed => exact .inl ⟨below, hrest, rfl⟩
    | @built hash hlength hdigits =>
      rw [List.append_assoc] at hrest
      exact .inr ⟨_, ⟨rfl, rfl⟩, _, ⟨hash ++ below, hrest, rfl⟩, hash, below, rfl,
        fun c hc ↦ hdigits hc, Nat.le_of_eq hlength.symm,
        fun bound hb ↦ Option.some.inj hb ▸ Nat.le_of_eq hlength,
        (Reading.past_past _ _ _ _ _).symm⟩

theorem exists_of_mem_readings_library
    (h : next ∈ libraryPattern.readings ⟨before.reverse, rest, none⟩) :
    ∃ source outside, LibrarySource.StandsAfter (before ++ rest) before source ∧
      next.group? = some ⟨outside, source.package, "/src/".toList ++ source.file⟩ := by
  simp only [libraryPattern, mem_readings_append, mem_readings_root, mem_readings_literal,
    mem_readings_group, mem_readings_repeated, mem_readings_sourceFile,
    contains_packageLetter_iff] at h
  obtain ⟨_, ⟨root, _, hroot, rfl, rfl⟩, _, ⟨_, rfl, rfl⟩, _,
    ⟨_, ⟨package, _, rfl, hletters, hleast, -, rfl⟩, rfl⟩, file, rfl, hline, rfl⟩ := h
  let source : LibrarySource :=
    ⟨package, file, List.ne_nil_of_length_pos hleast, hletters, hline⟩
  exact ⟨source, _, ⟨root, hroot, by simp [source, LibrarySource.suffix]⟩,
    congrArg some (Reading.since_past _ _ _)⟩

theorem readings_library_ne_nil {text : List Char} {source : LibrarySource}
    (h : LibrarySource.StandsAfter text before source) :
    ∃ rest, text = before ++ rest ∧ libraryPattern.readings ⟨before.reverse, rest, none⟩ ≠ [] := by
  obtain ⟨root, hroot, rfl⟩ := h
  have hsuffix : source.suffix = source.package ++ ("/src/".toList ++ source.file) :=
    List.append_assoc _ _ _
  refine ⟨_, rfl, readings_append_ne_nil
    (mem_readings_root.mpr ⟨root, _, hroot, List.append_assoc _ _ _, rfl⟩) ?_⟩
  refine readings_literal_append_ne_nil (Reading.rest_past _ _ _) ?_
  refine readings_group_append_ne_nil (mem_readings_repeated.mpr ⟨source.package, _,
    (Reading.rest_past _ _ _).trans hsuffix,
    fun c hc ↦ contains_packageLetter_iff.mpr (source.package_letters hc),
    List.length_pos_iff.mpr source.package_ne_nil, nofun, rfl⟩) ?_
  exact List.ne_nil_of_mem (mem_readings_sourceFile.mpr ⟨source.file,
    (Reading.rest_grouped _ _).trans (Reading.rest_past _ _ _), source.file_on_one_line, rfl⟩)

theorem exists_of_mem_readings_index {second : Pattern}
    (h : next ∈ (.repeated inFolder 1 none ++ (.literal "-" ++ (.repeated hexDigit 16 (some 16) ++
      (.literal "/" ++ second))) : Pattern).readings reading) :
    ∃ index hash taken below,
      reading.rest = index ++ ("-".toList ++ (hash ++ ("/".toList ++ below))) ∧
      index ≠ [] ∧ '/' ∉ index ∧ hash.length = 16 ∧ hash ⊆ hexDigits ∧
      next ∈ second.readings (reading.past taken below) := by
  simp only [mem_readings_append, mem_readings_literal, mem_readings_repeated,
    contains_inFolder_iff, contains_hexDigit_iff] at h
  obtain ⟨_, ⟨index, _, hrest, hindex, hsome, -, rfl⟩, _, ⟨_, rfl, rfl⟩, _,
    ⟨hash, _, rfl, hhash, hleast, hmost, rfl⟩, _, ⟨below, rfl, rfl⟩, hnext⟩ := h
  simp only [Reading.past_past] at hnext
  exact ⟨index, hash, _, below, hrest, List.ne_nil_of_length_pos hsome,
    fun hm ↦ hindex _ hm rfl, Nat.le_antisymm (hmost 16 rfl) hleast, hhash, hnext⟩

theorem exists_of_mem_readings_folder
    (h : next ∈ (.group (.repeated beforeDot 1 none) ++ (.literal "-" ++
      (.repeated decimalDigit 1 none ++ (.literal "." ++ (.repeated inFolder 0 none ++
        sourceFile)))) : Pattern).readings reading) :
    ∃ package number version file, package ≠ [] ∧ '/' ∉ package ∧ '.' ∉ package ∧
      number ≠ [] ∧ (∀ c ∈ number, c.isDigit = true) ∧ '/' ∉ version ∧ '\n' ∉ file ∧
      ∃ outside below, reading.rest = package ++ below ∧
        next.group? = some ⟨outside, package, below⟩ ∧
        below =
          "-".toList ++ (number ++ (".".toList ++ (version ++ ("/src/".toList ++ file)))) := by
  simp only [mem_readings_append, mem_readings_literal, mem_readings_group, mem_readings_repeated,
    mem_readings_sourceFile, contains_inFolder_iff, contains_beforeDot_iff,
    contains_decimalDigit_iff] at h
  obtain ⟨_, ⟨_, ⟨package, _, hrest, hpackage, hletter, -, rfl⟩, rfl⟩, _, ⟨_, rfl, rfl⟩, _,
    ⟨number, _, rfl, hnumber, hdigit, -, rfl⟩, _, ⟨_, rfl, rfl⟩, _,
    ⟨version, _, rfl, hversion, -, -, rfl⟩, file, rfl, hline, rfl⟩ := h
  exact ⟨package, number, version, file, List.ne_nil_of_length_pos hletter,
    fun hm ↦ (hpackage _ hm).2 rfl, fun hm ↦ (hpackage _ hm).1 rfl,
    List.ne_nil_of_length_pos hdigit, hnumber, fun hm ↦ hversion _ hm rfl, hline, _, _, hrest,
    congrArg some (Reading.since_past _ _ _), rfl⟩

theorem exists_of_mem_readings_release
    (h : next ∈ releasePattern.readings ⟨before.reverse, rest, none⟩) :
    ∃ source outside below, ReleaseSource.StandsAfter (before ++ rest) before source ∧
      next.group? = some ⟨outside, source.package, below⟩ ∧
      source.suffix = source.package ++ below := by
  obtain ⟨_, hstage, h⟩ := mem_readings_append.mp h
  obtain ⟨registry, rfl, rfl⟩ := mem_readings_literal.mp hstage
  obtain ⟨index, hash, taken, suffix, rfl, hindex, hfolder, hlength, hdigits, h⟩ :=
    exists_of_mem_readings_index h
  obtain ⟨package, number, version, file, hpackage, hslash, hdot, hnumber, hnumbers, hversion,
    hline, outside, below, rfl, hgroup, rfl⟩ := exists_of_mem_readings_folder h
  let source : ReleaseSource :=
    ⟨index, hash, package, number, version, file, hindex, hfolder, hlength, hdigits, hpackage,
      hslash, hdot, hnumber, hnumbers, hversion, hline⟩
  have hbelow := source.belowRegistry_eq
  rw [source.suffix_eq] at hbelow
  exact ⟨source, outside, _,
    congrArg (fun below ↦ before ++ ("/.cargo/registry/src/".toList ++ below)) hbelow.symm,
    hgroup, source.suffix_eq⟩

theorem readings_release_ne_nil {text : List Char} {source : ReleaseSource}
    (h : ReleaseSource.StandsAfter text before source) :
    ∃ rest, text = before ++ rest ∧ releasePattern.readings ⟨before.reverse, rest, none⟩ ≠ [] := by
  refine ⟨source.path, h, readings_literal_append_ne_nil rfl ?_⟩
  refine readings_repeated_append_ne_nil
    ((Reading.rest_past _ _ _).trans source.belowRegistry_eq)
    (fun c hc ↦ contains_inFolder_iff.mpr fun he ↦ source.index_in_folder (he ▸ hc))
    (List.length_pos_iff.mpr source.index_ne_nil) nofun ?_
  refine readings_literal_append_ne_nil (Reading.rest_past _ _ _) ?_
  refine readings_repeated_append_ne_nil (Reading.rest_past _ _ _)
    (fun c hc ↦ contains_hexDigit_iff.mpr (source.hash_digits hc))
    (Nat.le_of_eq source.length_hash.symm)
    (fun _ hb ↦ Option.some.inj hb ▸ Nat.le_of_eq source.length_hash) ?_
  refine readings_literal_append_ne_nil (Reading.rest_past _ _ _) ?_
  refine readings_group_append_ne_nil (mem_readings_repeated.mpr ⟨source.package, _,
    (Reading.rest_past _ _ _).trans source.suffix_eq, fun c hc ↦ contains_beforeDot_iff.mpr
      ⟨fun he ↦ source.package_before_dot (he ▸ hc), fun he ↦ source.package_in_folder (he ▸ hc)⟩,
    List.length_pos_iff.mpr source.package_ne_nil, nofun, rfl⟩) ?_
  refine readings_literal_append_ne_nil
    ((Reading.rest_grouped _ _).trans (Reading.rest_past _ _ _)) ?_
  refine readings_repeated_append_ne_nil (Reading.rest_past _ _ _)
    (fun c hc ↦ contains_decimalDigit_iff.mpr (source.number_digits c hc))
    (List.length_pos_iff.mpr source.number_ne_nil) nofun ?_
  refine readings_literal_append_ne_nil (Reading.rest_past _ _ _) ?_
  refine readings_repeated_append_ne_nil (Reading.rest_past _ _ _)
    (fun c hc ↦ contains_inFolder_iff.mpr fun he ↦ source.version_in_folder (he ▸ hc))
    (Nat.zero_le _) nofun ?_
  exact List.ne_nil_of_mem (mem_readings_sourceFile.mpr
    ⟨source.file, Reading.rest_past _ _ _, source.file_on_one_line, rfl⟩)

end Readings

/-- The readings of a pattern are the sources that stand at a place. Its group is the package, and
what the path is cut down to depends on the place only. -/
structure Reads {σ : Type} (pattern : Pattern) (standsAfter : List Char → List Char → σ → Prop)
    (package suffix : σ → List Char) : Prop where
  sound : ∀ {before rest next}, next ∈ pattern.readings ⟨before.reverse, rest, none⟩ →
    ∃ source outside below, standsAfter (before ++ rest) before source ∧
      next.group? = some ⟨outside, package source, below⟩ ∧
      suffix source = package source ++ below
  complete : ∀ {text before source}, standsAfter text before source →
    ∃ rest, text = before ++ rest ∧ pattern.readings ⟨before.reverse, rest, none⟩ ≠ []
  unique : ∀ {text before source source'}, standsAfter text before source →
    standsAfter text before source' →
      package source = package source' ∧ suffix source = suffix source'

theorem reads_library : Reads libraryPattern LibrarySource.StandsAfter LibrarySource.package
    LibrarySource.suffix where
  sound h := by
    obtain ⟨source, outside, hstands, hgroup⟩ := exists_of_mem_readings_library h
    exact ⟨source, outside, _, hstands, hgroup, List.append_assoc _ _ _⟩
  complete := readings_library_ne_nil
  unique := LibrarySource.StandsAfter.unique

theorem reads_release : Reads releasePattern ReleaseSource.StandsAfter ReleaseSource.package
    ReleaseSource.suffix :=
  ⟨exists_of_mem_readings_release, readings_release_ne_nil, ReleaseSource.StandsAfter.unique⟩

end ScriptTrace.Native.PackageSource
