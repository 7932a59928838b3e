import ScriptTrace.Proofs.SymbolPath

namespace ScriptTrace.Native.Symbol

def IsPlainName (name : String) : Prop :=
  name ≠ "" ∧ ∀ c ∈ [':', '<', '>', '{', '}'], c ∉ name.toList

instance (name : String) : Decidable (IsPlainName name) :=
  decidable_of_iff (name ≠ "" ∧
      [':', '<', '>', '{', '}'].all (fun c ↦ !name.toList.contains c) = true)
    (by simp only [IsPlainName, List.all_eq_true, Bool.not_eq_true', List.contains_eq_mem,
      decide_eq_false_iff_not])

/-- A name that the compiler made up: its last character closes the brace that its first opens. -/
def IsBracedName (name : String) : Prop :=
  ∃ inner, name.toList = '{' :: (inner ++ ['}']) ∧ IsBalanced braceWeight inner ∧
    '<' ∉ inner ∧ '>' ∉ inner

structure Arguments where
  text : String
  angles : IsBalanced angleWeight text.toList
  braces : IsBalanced braceWeight text.toList
  no_arrow : text.toList.getLast? ≠ some '-'

inductive Generics
  | omitted
  | attached (arguments : Arguments)
  | turbofish (arguments : Arguments)

structure PrintedName where
  name : String
  isName : IsPlainName name ∨ IsBracedName name
  generics : Generics := .omitted

namespace PrintedName

variable (printed : PrintedName)

def text : String :=
  match printed.generics with
  | .omitted => printed.name
  | .attached arguments => printed.name ++ "<" ++ arguments.text ++ ">"
  | .turbofish arguments => printed.name ++ "::<" ++ arguments.text ++ ">"

end PrintedName

def printPath (names : List PrintedName) : String :=
  String.intercalate "::" (names.map (·.text))

def Arguments.piece (arguments : Arguments) : List Char :=
  '<' :: (arguments.text.toList ++ ['>'])

theorem Arguments.isPiece (arguments : Arguments) : IsPiece arguments.piece :=
  isPiece_angles arguments.angles arguments.braces arguments.no_arrow

theorem IsPlainName.isPiece {name : String} (h : IsPlainName name) : IsPiece name.toList := by
  refine isPiece_of_notMem (h.2 ':' (by decide)) fun c hc hb ↦ h.2 c ?_ hc
  exact List.mem_cons_of_mem _ hb

theorem IsBracedName.isPiece {name : String} (h : IsBracedName name) : IsPiece name.toList := by
  obtain ⟨inner, hi, hb, hopen, hclose⟩ := h
  rw [hi]
  refine isPiece_braces (isBalanced_of_weight_eq_zero fun previous c hc ↦ ?_) hb
  have hne : c ≠ '<' := ne_of_mem_of_not_mem hc hopen
  have hne' : c ≠ '>' := ne_of_mem_of_not_mem hc hclose
  simp [angleWeight, hne, hne']

namespace PrintedName

variable (printed : PrintedName)

theorem isPiece_name : IsPiece printed.name.toList :=
  printed.isName.elim IsPlainName.isPiece IsBracedName.isPiece

theorem exists_name_eq_cons :
    ∃ c rest, printed.name.toList = c :: rest ∧ '<' ∉ c :: rest := by
  rcases printed.isName with ⟨hne, hc⟩ | ⟨inner, hi, -, hopen, -⟩
  · obtain ⟨c, rest, hn⟩ := List.exists_cons_of_ne_nil (mt String.toList_eq_nil_iff.mp hne)
    exact ⟨c, rest, hn, hn ▸ hc '<' (by decide)⟩
  · exact ⟨'{', _, hi, by simpa using hopen⟩

def pieces : List (List Char) :=
  match printed.generics with
  | .omitted => [printed.name.toList]
  | .attached arguments => [printed.name.toList ++ arguments.piece]
  | .turbofish arguments => [printed.name.toList, arguments.piece]

theorem toList_text : printed.text.toList = [':', ':'].intercalate printed.pieces := by
  unfold text pieces
  cases printed.generics <;> simp [Arguments.piece, List.intercalate_cons_cons]

theorem isPiece_of_mem_pieces {piece : List Char} (h : piece ∈ printed.pieces) : IsPiece piece := by
  unfold pieces at h
  cases hg : printed.generics with
  | omitted =>
    obtain rfl := List.mem_singleton.mp (by simpa only [hg] using h)
    exact printed.isPiece_name
  | attached arguments =>
    obtain rfl := List.mem_singleton.mp (by simpa only [hg] using h)
    exact printed.isPiece_name.append arguments.isPiece (by decide)
  | turbofish arguments =>
    simp only [hg, List.mem_cons, List.not_mem_nil, or_false] at h
    rcases h with rfl | rfl
    · exact printed.isPiece_name
    · exact arguments.isPiece

theorem pieces_ne_nil : printed.pieces ≠ [] := by
  unfold pieces
  cases printed.generics <;> exact List.cons_ne_nil _ _

theorem enclosed?_of_mem_head? {piece : List Char} (h : piece ∈ printed.pieces.head?) :
    enclosed? piece = none := by
  obtain ⟨c, rest, hn, hb⟩ := printed.exists_name_eq_cons
  have hc : c ≠ '<' := fun he ↦ hb (he ▸ List.mem_cons_self)
  unfold pieces at h
  cases hg : printed.generics <;>
    · simp only [hg, List.head?_cons, Option.mem_some_iff] at h
      simp [← h, hn, enclosed?, hc]

theorem filterMap_name?_pieces : printed.pieces.filterMap name? = [printed.name.toList] := by
  obtain ⟨c, rest, hn, hb⟩ := printed.exists_name_eq_cons
  have hname : name? (c :: rest) = some (c :: rest) := name?_of_notMem (List.cons_ne_nil _ _) hb
  have hattached : ∀ arguments : Arguments,
      name? (c :: rest ++ arguments.piece) = some (c :: rest) :=
    fun _ ↦ name?_append_cons (List.cons_ne_nil _ _) hb _
  have hpiece : ∀ arguments : Arguments, name? arguments.piece = none := fun _ ↦ rfl
  cases hg : printed.generics <;>
    simp only [pieces, hg, hn, List.filterMap_cons, List.filterMap_nil, hname, hattached, hpiece]

end PrintedName

theorem toList_printPath (names : List PrintedName) :
    (printPath names).toList = [':', ':'].intercalate (names.flatMap (·.pieces)) := by
  have htexts : (names.map (·.text)).map String.toList =
      names.map fun printed ↦ [':', ':'].intercalate printed.pieces := by
    rw [List.map_map]
    exact List.map_congr_left fun printed _ ↦ printed.toList_text
  rw [printPath, String.toList_intercalate, htexts]
  exact Text.intercalate_map_intercalate (fun printed ↦ printed.pieces_ne_nil) names

theorem pieces_printPath {names : List PrintedName} (h : names ≠ []) :
    pieces (printPath names).toList = names.flatMap (·.pieces) := by
  rw [toList_printPath]
  refine pieces_intercalate ?_ fun piece hp ↦ ?_
  · obtain ⟨first, rest, rfl⟩ := List.exists_cons_of_ne_nil h
    simp [first.pieces_ne_nil]
  · obtain ⟨printed, -, hp⟩ := List.mem_flatMap.mp hp
    exact printed.isPiece_of_mem_pieces hp

theorem filterMap_name?_pieces_printPath (names : List PrintedName) :
    (pieces (printPath names).toList).filterMap name? = names.map (·.name.toList) := by
  cases names with
  | nil => rfl
  | cons first rest =>
    rw [pieces_printPath (List.cons_ne_nil first rest), List.filterMap_flatMap, List.map_eq_flatMap]
    simp only [PrintedName.filterMap_name?_pieces]

theorem segments_printPath (names : List PrintedName) :
    segments (printPath names).toList = names.map (·.name.toList) := by
  rw [← filterMap_name?_pieces_printPath]
  cases names with
  | nil =>
    have hempty : (printPath []).toList = [] := rfl
    rw [hempty, segments_eq_filterMap (pieces_of_notMem List.not_mem_nil) rfl]
    rfl
  | cons first rest =>
    obtain ⟨piece, more, hfirst⟩ := List.exists_cons_of_ne_nil first.pieces_ne_nil
    have he : enclosed? piece = none := first.enclosed?_of_mem_head? (by simp [hfirst])
    have hp := pieces_printPath (List.cons_ne_nil first rest)
    rw [List.flatMap_cons, hfirst, List.cons_append] at hp
    rw [segments_eq_filterMap hp he, hp]

/-- The path of a printed symbol is the names that were printed, in their order. -/
theorem path_printPath (names : List PrintedName) :
    path (printPath names) = names.map (·.name) := by
  rw [path, segments_printPath, List.map_map]
  exact List.map_congr_left fun printed _ ↦ String.ofList_toList

/-- A block in a method of a generic type: double colons, nested arguments, an arrow and a cast
stand between the brackets, and double colons between the braces of the last name. -/
theorem path_printPath_of_generic_method :
    let symbol :=
      "app::Map<a::K,fn(&a::K) -> Vec<b::V>>::get::<\x7b<u8 as c::D>::N\x7d>::\x7bimpl: a::b\x7d"
    ∃ names, printPath names = symbol ∧
      path symbol = ["app", "Map", "get", "\x7bimpl: a::b\x7d"] := by
  intro symbol
  let types : Arguments :=
    ⟨"a::K,fn(&a::K) -> Vec<b::V>", by decide +kernel, by decide +kernel, by decide⟩
  let constant : Arguments :=
    ⟨"\x7b<u8 as c::D>::N\x7d", by decide +kernel, by decide +kernel, by decide⟩
  have hbraced : IsBracedName "\x7bimpl: a::b\x7d" :=
    ⟨"impl: a::b".toList, by decide, by decide, by decide, by decide⟩
  let names : List PrintedName :=
    [⟨"app", .inl (by decide), .omitted⟩, ⟨"Map", .inl (by decide), .attached types⟩,
      ⟨"get", .inl (by decide), .turbofish constant⟩, ⟨_, .inr hbraced, .omitted⟩]
  have hprinted : printPath names = symbol := rfl
  exact ⟨names, hprinted, hprinted ▸ path_printPath names⟩

end ScriptTrace.Native.Symbol
