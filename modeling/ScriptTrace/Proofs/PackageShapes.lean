import ScriptTrace.Proofs.Separators

namespace ScriptTrace.Native

open Text

def hexDigits : List Char := "0123456789abcdef".toList

def packageLetters : List Char := "abcdefghijklmnopqrstuvwxyz_".toList

structure LibrarySource where
  package : List Char
  file : List Char
  package_ne_nil : package ≠ [] := by decide
  package_letters : package ⊆ packageLetters := by decide
  file_on_one_line : '\n' ∉ file := by decide

namespace LibrarySource

def suffix (source : LibrarySource) : List Char :=
  source.package ++ "/src/".toList ++ source.file

/-- Any text may stand before the root of an installed library, but none before the root that a
compiler has for its own. -/
inductive IsRoot : List Char → List Char → Prop
  | installed (before : List Char) : IsRoot before "/lib/rustlib/src/rust".toList
  | built {hash : List Char} (length_hash : hash.length = 40) (hash_digits : hash ⊆ hexDigits) :
      IsRoot [] ("/rustc/".toList ++ hash)

def StandsAfter (path before : List Char) (source : LibrarySource) : Prop :=
  ∃ root, IsRoot before root ∧ path = before ++ (root ++ "/library/".toList ++ source.suffix)

theorem IsRoot.below_eq {before root root' below below' : List Char}
    (h : IsRoot before root) (h' : IsRoot before root')
    (he : root ++ below = root' ++ below') : below = below' := by
  cases h with
  | installed =>
    cases h' with
    | installed => exact List.append_cancel_left he
    | built => simp at he
  | built hlength =>
    cases h' with
    | installed => simp at he
    | built hlength' =>
      rw [List.append_assoc, List.append_assoc] at he
      exact (List.append_inj (List.append_cancel_left he) (hlength.trans hlength'.symm)).2

theorem StandsAfter.unique {text before : List Char} {source source' : LibrarySource}
    (h : StandsAfter text before source)
    (h' : StandsAfter text before source') :
    source.package = source'.package ∧ source.suffix = source'.suffix := by
  obtain ⟨root, hroot, rfl⟩ := h
  obtain ⟨root', hroot', he⟩ := h'
  rw [List.append_assoc, List.append_assoc] at he
  have hsuffix : source.suffix = source'.suffix :=
    List.append_cancel_left (IsRoot.below_eq hroot hroot' (List.append_cancel_left he))
  have hslash (s : LibrarySource) : '/' ∉ s.package :=
    fun hm ↦ absurd (s.package_letters hm) (by decide)
  have hcons (s : LibrarySource) : s.suffix = s.package ++ '/' :: ("src/".toList ++ s.file) :=
    List.append_assoc _ _ _
  refine ⟨?_, hsuffix⟩
  rw [hcons, hcons] at hsuffix
  exact (append_cons_inj (hslash source) (hslash source') hsuffix).1

end LibrarySource

structure ReleaseSource where
  index : List Char
  hash : List Char
  package : List Char
  number : List Char
  version : List Char
  file : List Char
  index_ne_nil : index ≠ [] := by decide
  index_in_folder : '/' ∉ index := by decide
  length_hash : hash.length = 16 := by decide
  hash_digits : hash ⊆ hexDigits := by decide
  package_ne_nil : package ≠ [] := by decide
  package_in_folder : '/' ∉ package := by decide
  package_before_dot : '.' ∉ package := by decide
  number_ne_nil : number ≠ [] := by decide
  number_digits : ∀ c ∈ number, c.isDigit = true
  version_in_folder : '/' ∉ version := by decide
  file_on_one_line : '\n' ∉ file := by decide

namespace ReleaseSource

variable (source : ReleaseSource)

def folder : List Char := source.package ++ '-' :: (source.number ++ '.' :: source.version)

def suffix : List Char := source.folder ++ "/src/".toList ++ source.file

def belowRegistry : List Char := source.index ++ '-' :: source.hash ++ '/' :: source.suffix

def path : List Char := "/.cargo/registry/src/".toList ++ source.belowRegistry

theorem suffix_eq : source.suffix = source.package ++ ("-".toList ++ (source.number ++
    (".".toList ++ (source.version ++ ("/src/".toList ++ source.file))))) := by
  rw [suffix, folder]
  simp only [List.append_assoc, List.cons_append]
  rfl

theorem belowRegistry_eq : source.belowRegistry = source.index ++ ("-".toList ++
    (source.hash ++ ("/".toList ++ source.suffix))) := List.append_assoc _ _ _

def StandsAfter (path before : List Char) (source : ReleaseSource) : Prop :=
  path = before ++ source.path

theorem slash_notMem_folder : '/' ∉ source.folder := by
  have hnumber : '/' ∉ source.number := fun hm ↦ absurd (source.number_digits _ hm) (by decide)
  simp [folder, source.package_in_folder, hnumber, source.version_in_folder]

theorem package_eq_of_folder_eq {source source' : ReleaseSource}
    (h : source.folder = source'.folder) : source.package = source'.package := by
  have hstem (s : ReleaseSource) : s.folder = s.package ++ '-' :: s.number ++ '.' :: s.version := by
    simp [folder]
  have hnumber (s : ReleaseSource) {c : Char} (hc : c.isDigit = false) : c ∉ s.number :=
    fun hm ↦ absurd (s.number_digits _ hm) (by simp [hc])
  have hdot (s : ReleaseSource) : '.' ∉ s.package ++ '-' :: s.number := by
    simp [s.package_before_dot, hnumber s]
  rw [hstem, hstem] at h
  have hstems := (append_cons_inj (hdot source) (hdot source') h).1
  exact (append_cons_inj_right (hnumber source rfl) (hnumber source' rfl) hstems).1

theorem StandsAfter.unique {text before : List Char} {source source' : ReleaseSource}
    (h : StandsAfter text before source)
    (h' : StandsAfter text before source') :
    source.package = source'.package ∧ source.suffix = source'.suffix := by
  have hbelow : source.belowRegistry = source'.belowRegistry :=
    List.append_cancel_left (List.append_cancel_left (h.symm.trans h'))
  have hindex (s : ReleaseSource) : '/' ∉ s.index ++ '-' :: s.hash := by
    have hhash : '/' ∉ s.hash := fun hm ↦ absurd (s.hash_digits hm) (by decide)
    simp [s.index_in_folder, hhash]
  have hcons (s : ReleaseSource) : s.suffix = s.folder ++ '/' :: ("src/".toList ++ s.file) :=
    List.append_assoc _ _ _
  have hsuffix : source.suffix = source'.suffix :=
    (append_cons_inj (hindex source) (hindex source') hbelow).2
  refine ⟨package_eq_of_folder_eq ?_, hsuffix⟩
  rw [hcons, hcons] at hsuffix
  exact (append_cons_inj source.slash_notMem_folder source'.slash_notMem_folder hsuffix).1

end ReleaseSource

end ScriptTrace.Native
