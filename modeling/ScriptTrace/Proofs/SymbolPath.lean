import ScriptTrace.Proofs.Separators
import ScriptTrace.Proofs.SymbolPieces

namespace ScriptTrace.Native.Symbol

theorem pieces_of_notMem {symbol : List Char} (h : ':' ∉ symbol) : pieces symbol = [symbol] :=
  pieces_eq_singleton fun start hs _ ↦
    absurd (hs.subset (List.mem_append_right start List.mem_cons_self)) h

section Segments

variable {symbol first inner : List Char} {rest : List (List Char)}

theorem enclosed?_eq_some_iff {piece : List Char} :
    enclosed? piece = some inner ↔ piece = '<' :: (inner ++ ['>']) := by
  refine ⟨fun h ↦ ?_, by rintro rfl; simp [enclosed?]⟩
  cases piece with
  | nil => cases h
  | cons c rest =>
    rw [enclosed?] at h
    split at h
    · next hc =>
      obtain ⟨rfl, hl⟩ : c = '<' ∧ rest.getLast? = some '>' := by simpa using hc
      obtain ⟨front, rfl⟩ := List.getLast?_eq_some_iff.mp hl
      rw [List.dropLast_concat] at h
      rw [Option.some.inj h]
    · cases h

theorem segments_of_enclosed?_eq_none (hp : pieces symbol = first :: rest)
    (he : enclosed? first = none) :
    segments symbol = (name? first).toList ++ rest.filterMap name? := by
  rw [segments]
  split
  · next h => cases hp.symm.trans h
  · next first' rest' h =>
    obtain ⟨rfl, rfl⟩ := List.cons.inj (hp.symm.trans h)
    split
    · rfl
    · next inner' he' => cases he.symm.trans he'

theorem segments_of_enclosed?_eq_some (hp : pieces symbol = first :: rest)
    (he : enclosed? first = some inner) :
    segments symbol = segments (selfType inner) ++ rest.filterMap name? := by
  rw [segments]
  split
  · next h => cases hp.symm.trans h
  · next first' rest' h =>
    obtain ⟨rfl, rfl⟩ := List.cons.inj (hp.symm.trans h)
    split
    · next he' => cases he.symm.trans he'
    · next inner' he' =>
      obtain rfl := Option.some.inj (he.symm.trans he')
      rfl

theorem filterMap_name?_cons (piece : List Char) (rest : List (List Char)) :
    (piece :: rest).filterMap name? = (name? piece).toList ++ rest.filterMap name? := by
  rw [List.filterMap_cons]
  cases name? piece <;> rfl

theorem segments_eq_filterMap (hp : pieces symbol = first :: rest) (he : enclosed? first = none) :
    segments symbol = (first :: rest).filterMap name? := by
  rw [segments_of_enclosed?_eq_none hp he, filterMap_name?_cons]

theorem name?_eq_some_iff {piece name : List Char} :
    name? piece = some name ↔ piece.takeWhile (· ≠ '<') = name ∧ name ≠ [] := by
  rw [name?]
  split
  · next h =>
    rw [h]
    exact ⟨nofun, fun ⟨hn, hne⟩ ↦ absurd hn.symm hne⟩
  · next h =>
    rw [Option.some.injEq]
    exact ⟨fun he ↦ ⟨he, he ▸ h⟩, And.left⟩

theorem name?_of_notMem {name : List Char} (hne : name ≠ []) (h : '<' ∉ name) :
    name? name = some name := by
  rw [name?_eq_some_iff, List.takeWhile_eq_self_iff]
  exact ⟨fun x hx ↦ decide_eq_true (ne_of_mem_of_not_mem hx h), hne⟩

theorem name?_append_cons {name : List Char} (hne : name ≠ []) (h : '<' ∉ name)
    (arguments : List Char) : name? (name ++ '<' :: arguments) = some name := by
  rw [name?_eq_some_iff, Text.takeWhile_ne_append_cons h]
  exact ⟨rfl, hne⟩

theorem bracket_notMem_of_name? {piece name : List Char} (h : name? piece = some name) :
    '<' ∉ name := by
  obtain ⟨rfl, -⟩ := name?_eq_some_iff.mp h
  exact Text.notMem_takeWhile_ne '<' piece

theorem exists_name?_of_mem_segments {name : List Char} (hn : name ∈ segments symbol) :
    ∃ text, ∃ piece ∈ pieces text, name? piece = some name := by
  fun_induction segments symbol with
  | case1 => cases hn
  | case2 symbol first rest hp _ =>
    rw [← filterMap_name?_cons, List.mem_filterMap] at hn
    exact ⟨symbol, hp ▸ hn⟩
  | case3 symbol first rest hp inner _ _ ih =>
    rcases List.mem_append.mp hn with hn | hn
    · exact ih hn
    · obtain ⟨piece, hm, hname⟩ := List.mem_filterMap.mp hn
      exact ⟨symbol, piece, hp ▸ List.mem_cons_of_mem _ hm, hname⟩

theorem bracket_notMem_segments {name : List Char} (hn : name ∈ segments symbol) : '<' ∉ name := by
  obtain ⟨_, piece, -, hp⟩ := exists_name?_of_mem_segments hn
  exact bracket_notMem_of_name? hp

theorem segments_eq_singleton (hp : pieces symbol = [symbol]) (hb : '<' ∉ symbol)
    (hne : symbol ≠ []) : segments symbol = [symbol] := by
  obtain ⟨c, rest, rfl⟩ := List.exists_cons_of_ne_nil hne
  have he : enclosed? (c :: rest) = none := by
    have hbracket : c ≠ '<' := fun h ↦ hb (h ▸ List.mem_cons_self)
    simp [enclosed?, hbracket]
  rw [segments_eq_filterMap hp he, List.filterMap_cons_some (name?_of_notMem hne hb),
    List.filterMap_nil]

theorem segments_of_notMem (hc : ':' ∉ symbol) (hb : '<' ∉ symbol) (hne : symbol ≠ []) :
    segments symbol = [symbol] := segments_eq_singleton (pieces_of_notMem hc) hb hne

end Segments

end ScriptTrace.Native.Symbol
