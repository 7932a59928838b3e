import ScriptTrace.Proofs.SymbolPath
import Mathlib.Data.Nat.PSub
import Mathlib.Data.String.Basic

namespace ScriptTrace.Native.Symbol

/-- The part of a text between two byte offsets. There is none if they are in reverse order, or if
one lies past the end or within a character. -/
def slice? (text : String) (start stop : Nat) : Option String :=
  if start ≤ stop && String.Pos.Raw.isValid text ⟨start⟩ && String.Pos.Raw.isValid text ⟨stop⟩ then
    some (String.Pos.Raw.extract text ⟨start⟩ ⟨stop⟩)
  else none

/-- The scan of a symbol in place from offset `index` on; `start` is where the piece at hand begins.
A cut slices it out up to the colon that was read last, and no offset stands before the first. -/
def slicesFrom? (symbol : String) (depth : Depth) (previous : Option Char) (start index : Nat) :
    List Char → Option (List String)
  | [] => (slice? symbol start symbol.utf8ByteSize).map ([·])
  | c :: rest =>
    if c = ':' && previous = some ':' && depth = {} then do
      let stop ← index.ppred
      let piece ← slice? symbol start stop
      let more ← slicesFrom? symbol depth none (index + 1) (index + 1) rest
      return piece :: more
    else slicesFrom? symbol (depth.after previous c) (some c) start (index + c.utf8Size) rest

def slices? (symbol : String) : Option (List String) :=
  slicesFrom? symbol {} none 0 0 symbol.toList

theorem isValid_utf8Len {text : String} {a b : List Char} (h : text.toList = a ++ b) :
    String.Pos.Raw.isValid text ⟨String.utf8Len a⟩ = true := by
  rw [String.Pos.Raw.isValid_eq_true_iff, String.Pos.Raw.isValid_iff_exists_append]
  refine ⟨String.ofList a, String.ofList b, ?_, (String.rawEndPos_ofList a).symm⟩
  rw [← String.ofList_append, ← h, String.ofList_toList]

theorem slice?_eq_some {text : String} {a b c : List Char} (h : text.toList = a ++ b ++ c) :
    slice? text (String.utf8Len a) (String.utf8Len (a ++ b)) = some (String.ofList b) := by
  have hstart := isValid_utf8Len (h.trans (List.append_assoc a b c))
  have hstop := isValid_utf8Len h
  have hle : String.utf8Len a ≤ String.utf8Len (a ++ b) := by simp
  have hextract := String.extract_of_valid a b c
  rw [← h, String.ofList_toList, ← String.utf8Len_append] at hextract
  rw [slice?, hstart, hstop, hextract, decide_eq_true hle]
  rfl

theorem utf8Len_concat_colon (text : List Char) :
    String.utf8Len (text ++ [':']) = String.utf8Len text + 1 := String.utf8Len_append text [':']

theorem slicesFrom?_cut {symbol : String} {front middle rest : List Char} {more : List String}
    (h : symbol.toList = front ++ middle ++ ':' :: ':' :: rest)
    (hmore : slicesFrom? symbol {} none (String.utf8Len (front ++ middle ++ [':'] ++ [':']))
      (String.utf8Len (front ++ middle ++ [':'] ++ [':'])) rest = some more) :
    slicesFrom? symbol {} (some ':') (String.utf8Len front)
        (String.utf8Len (front ++ middle ++ [':'])) (':' :: rest) =
      some (String.ofList middle :: more) := by
  rw [utf8Len_concat_colon, utf8Len_concat_colon] at hmore
  rw [slicesFrom?, if_pos (by decide), utf8Len_concat_colon, Nat.ppred_succ]
  simp only [Option.bind_eq_bind, Option.bind_some, slice?_eq_some h, hmore]
  rfl

theorem slicesFrom?_eq_some {symbol : String} {front read rest : List Char} {depth : Depth}
    (h : symbol.toList = front ++ read.reverse ++ rest) :
    slicesFrom? symbol depth read.head? (String.utf8Len front)
        (String.utf8Len (front ++ read.reverse)) rest =
      some ((piecesFrom depth read rest).map String.ofList) := by
  induction rest generalizing front read depth with
  | nil =>
    have hsize : symbol.utf8ByteSize = String.utf8Len (front ++ read.reverse) := by
      rw [← String.utf8Len_toList, h, List.append_nil]
    rw [slicesFrom?, hsize, slice?_eq_some h]
    rfl
  | cons c rest ih =>
    by_cases hcut : (c = ':' && read.head? = some ':' && depth = {}) = true
    · rw [piecesFrom, if_pos hcut]
      simp only [Bool.and_eq_true, decide_eq_true_eq] at hcut
      obtain ⟨⟨rfl, hhead⟩, rfl⟩ := hcut
      obtain ⟨tail, rfl⟩ := List.head?_eq_some_iff.mp hhead
      rw [List.reverse_cons, ← List.append_assoc] at h ⊢
      refine slicesFrom?_cut (by simpa using h) ?_
      have hrest : symbol.toList =
          front ++ tail.reverse ++ [':'] ++ [':'] ++ ([] : List Char).reverse ++ rest := by
        simpa using h
      have hmore := @ih _ _ {} hrest
      rwa [List.reverse_nil, List.append_nil] at hmore
    · have hindex : String.utf8Len (front ++ read.reverse) + c.utf8Size =
          String.utf8Len (front ++ (c :: read).reverse) := by
        simp [Nat.add_assoc]
      have hrest : symbol.toList = front ++ (c :: read).reverse ++ rest := by simpa using h
      rw [slicesFrom?, if_neg hcut, piecesFrom, if_neg hcut, hindex]
      exact ih hrest

theorem slices?_eq_some (symbol : String) :
    slices? symbol = some ((pieces symbol.toList).map String.ofList) := by
  have h : symbol.toList = [] ++ ([] : List Char).reverse ++ symbol.toList := rfl
  exact slicesFrom?_eq_some h

theorem slices?_eq_some_iff {symbol : String} {slices : List String} :
    slices? symbol = some slices ↔ pieces symbol.toList = slices.map String.toList := by
  rw [slices?_eq_some, Option.some.injEq]
  constructor
  · rintro rfl
    simp
  · intro h
    simp [h]

def sliceName? (slice : String) : Option String := (name? slice.toList).map String.ofList

def pathInPlace? (symbol : String) : Option (List String) :=
  match h : slices? symbol with
  | none => none
  | some [] => some []
  | some (first :: rest) =>
    match he : enclosed? first.toList with
    | none => some ((first :: rest).filterMap sliceName?)
    | some inner =>
      have : (selfType inner).length < symbol.toList.length :=
        length_selfType_lt (slices?_eq_some_iff.mp h) he
      (pathInPlace? (String.ofList (selfType inner))).map (· ++ rest.filterMap sliceName?)
termination_by symbol.toList.length
decreasing_by rwa [String.toList_ofList]

theorem map_filterMap_name? (slices : List String) :
    ((slices.map String.toList).filterMap name?).map String.ofList =
      slices.filterMap sliceName? := by
  rw [List.filterMap_map, List.map_filterMap]
  rfl

/-- Read in place, a symbol has its path, and no slice fails. -/
theorem pathInPlace?_eq_some (symbol : String) : pathInPlace? symbol = some (path symbol) := by
  fun_induction pathInPlace? symbol with
  | case1 symbol h =>
    rw [slices?_eq_some] at h
    cases h
  | case2 symbol h =>
    have hp := slices?_eq_some_iff.mp h
    rw [path, segments]
    split
    · rfl
    · next hp' => cases hp.symm.trans hp'
  | case3 symbol first rest h he =>
    have hp := slices?_eq_some_iff.mp h
    rw [path, segments_eq_filterMap hp he, ← List.map_cons, map_filterMap_name?]
  | case4 symbol first rest h inner he _ ih =>
    have hp := slices?_eq_some_iff.mp h
    rw [ih, Option.map_some, path, path, String.toList_ofList, segments_of_enclosed?_eq_some hp he,
      List.map_append, map_filterMap_name?]

end ScriptTrace.Native.Symbol
