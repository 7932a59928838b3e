import ScriptTrace.Proofs.InPlacePath
import ScriptTrace.Proofs.SelfType

namespace ScriptTrace.Text

variable {α : Type}

/-- The parts stand in a text one after another, with gaps before, between and after them. -/
inductive InOrder : List (List α) → List α → Prop
  | nil (gap : List α) : InOrder [] gap
  | cons (gap part : List α) {parts : List (List α)} {rest : List α} :
      InOrder parts rest → InOrder (part :: parts) (gap ++ part ++ rest)

namespace InOrder

variable {parts parts' : List (List α)} {text text' : List α}

theorem append (h : InOrder parts text) (h' : InOrder parts' text') :
    InOrder (parts ++ parts') (text ++ text') := by
  induction h with
  | nil gap =>
    cases h' with
    | nil gap' => exact .nil _
    | cons gap' part h' =>
      rw [← List.append_assoc, ← List.append_assoc]
      exact .cons (gap ++ gap') part h'
  | cons gap part _ ih =>
    rw [List.append_assoc]
    exact .cons gap part ih

theorem of_isInfix (h : InOrder parts text) (hi : text <:+: text') : InOrder parts text' := by
  obtain ⟨front, rest, rfl⟩ := hi
  simpa using ((InOrder.nil front).append h).append (.nil rest)

theorem singleton_of_isInfix {part : List α} (h : part <:+: text) : InOrder [part] text := by
  obtain ⟨front, rest, rfl⟩ := h
  exact .cons front part (.nil rest)

theorem flatMap {f : List α → List (List α)} (h : InOrder parts text)
    (hf : ∀ part, InOrder (f part) part) : InOrder (parts.flatMap f) text := by
  induction h with
  | nil gap => exact .nil gap
  | cons gap part _ ih =>
    rw [List.flatMap_cons]
    exact ((hf part).of_isInfix (List.suffix_append gap part).isInfix).append ih

end InOrder

end ScriptTrace.Text

namespace ScriptTrace.Native.Symbol

open Text

section Order

theorem inOrder_piecesFrom (depth : Depth) (read text : List Char) :
    InOrder (piecesFrom depth read text) (read.reverse ++ text) := by
  induction text generalizing depth read with
  | nil => exact InOrder.singleton_of_isInfix (List.prefix_append _ _).isInfix
  | cons c rest ih =>
    rw [piecesFrom]
    split
    · next hcut =>
      simp only [Bool.and_eq_true, decide_eq_true_eq] at hcut
      obtain ⟨tail, rfl⟩ := List.head?_eq_some_iff.mp hcut.1.2
      rw [List.tail_cons, List.reverse_cons, List.append_assoc]
      refine InOrder.cons [] tail.reverse ((ih depth []).of_isInfix ?_)
      exact (List.suffix_append [':', c] rest).isInfix
    · rw [List.append_cons, ← List.reverse_cons]
      exact ih _ _

theorem inOrder_pieces (symbol : List Char) : InOrder (pieces symbol) symbol :=
  inOrder_piecesFrom {} [] symbol

theorem inOrder_filterMap_name? {pieces : List (List Char)} {text : List Char}
    (h : InOrder pieces text) : InOrder (pieces.filterMap name?) text := by
  rw [List.filterMap_eq_flatMap_toList]
  refine h.flatMap fun piece ↦ ?_
  cases hn : name? piece with
  | none => exact .nil piece
  | some name =>
    obtain ⟨rfl, -⟩ := name?_eq_some_iff.mp hn
    exact InOrder.singleton_of_isInfix (List.takeWhile_prefix _).isInfix

theorem selfType_isInfix (inner : List Char) : selfType inner <:+: inner :=
  (unsigned_suffix _).isInfix.trans (before_isPrefix _ _).isInfix

theorem inOrder_segments (symbol : List Char) : InOrder (segments symbol) symbol := by
  fun_induction segments symbol with
  | case1 symbol => exact .nil symbol
  | case2 symbol first rest hp _ =>
    rw [← filterMap_name?_cons, ← hp]
    exact inOrder_filterMap_name? (inOrder_pieces symbol)
  | case3 symbol first rest hp inner he _ ih =>
    have hpieces := inOrder_pieces symbol
    rw [hp] at hpieces
    cases hpieces with
    | cons gap _ hrest =>
      refine InOrder.append (ih.of_isInfix ?_) (inOrder_filterMap_name? hrest)
      have hinner : inner <:+: first := ⟨['<'], ['>'], (enclosed?_eq_some_iff.mp he).symm⟩
      exact (selfType_isInfix inner).trans (hinner.trans (List.suffix_append gap first).isInfix)

end Order

def braceDepth (text : List Char) : Nat :=
  text.foldl (fun depth c ↦ if c = '{' then depth + 1 else if c = '}' then depth - 1 else depth) 0

namespace Depth

variable {depth : Depth} {previous : Option Char}

theorem after_colon : depth.after previous ':' = depth := after_of_notMem (by decide)

theorem brace_after (c : Char) :
    (depth.after previous c).brace =
      if c = '{' then depth.brace + 1 else if c = '}' then depth.brace - 1 else depth.brace := by
  unfold after
  split_ifs <;> simp_all

theorem brace_through (text : List Char) :
    (depth.through previous text).brace =
      text.foldl (fun depth c ↦ if c = '{' then depth + 1 else if c = '}' then depth - 1 else depth)
        depth.brace := by
  induction text generalizing depth previous with
  | nil => rfl
  | cons c rest ih => rw [through, ih, brace_after, List.foldl_cons]

theorem angle_after_le {c : Char} (hc : c ≠ '<') :
    (depth.after previous c).angle ≤ depth.angle := by
  unfold after
  split_ifs <;> simp_all

theorem angle_through_le {text : List Char} (h : '<' ∉ text) :
    (depth.through previous text).angle ≤ depth.angle := by
  induction text generalizing depth previous with
  | nil => exact Nat.le_refl _
  | cons c rest ih =>
    rw [List.mem_cons, not_or] at h
    exact Nat.le_trans (ih h.2) (angle_after_le (Ne.symm h.1))

theorem through_concat_colon (text : List Char) :
    depth.through previous (text ++ [':']) = depth.through previous text := by
  rw [through_append, through, through, after_colon]

end Depth

def IsUncut (text : List Char) : Prop :=
  ∀ start, start ++ [':', ':'] <+: text → Depth.through {} none start ≠ {}

namespace IsUncut

variable {text : List Char}

theorem of_isPrefix (h : IsUncut text) {start : List Char} (hs : start <+: text) : IsUncut start :=
  fun front hf ↦ h front (hf.trans hs)

theorem pieces_eq (h : IsUncut text) : pieces text = [text] := by
  refine pieces_eq_singleton fun start hs hl ↦ ?_
  obtain ⟨front, rfl⟩ := List.getLast?_eq_some_iff.mp hl
  rw [Depth.through_concat_colon]
  exact h front (by simpa using hs)

theorem concat {c : Char} (h : IsUncut text)
    (hc : c = ':' → text.getLast? = some ':' → Depth.through {} none text ≠ {}) :
    IsUncut (text ++ [c]) := by
  intro start hs
  rcases List.prefix_concat_iff.mp hs with he | hs
  · have hconcat : (start ++ [':']) ++ [':'] = text ++ [c] := by rwa [List.append_assoc]
    obtain ⟨rfl, hcolon⟩ := List.append_inj' hconcat rfl
    rw [← Depth.through_concat_colon]
    exact hc (List.singleton_inj.mp hcolon).symm List.getLast?_concat
  · exact h start hs

theorem braceDepth_pos (h : IsUncut text) (hb : '<' ∉ text) {start : List Char}
    (hs : start ++ [':', ':'] <+: text) : 0 < braceDepth start := by
  have hangle : (Depth.through {} none start).angle = 0 :=
    Nat.le_zero.mp (Depth.angle_through_le fun hm ↦
      hb (hs.subset (List.mem_append_left _ hm)))
  have hbrace : (Depth.through {} none start).brace = braceDepth start := Depth.brace_through start
  refine Nat.pos_of_ne_zero fun hz ↦ h start hs (Depth.ext hangle ?_)
  rw [hbrace, hz]

theorem segments_eq (h : IsUncut text) (hb : '<' ∉ text) (hne : text ≠ []) :
    segments text = [text] := segments_eq_singleton h.pieces_eq hb hne

end IsUncut

/-- What is read of a piece has no place for a cut, and `depth` is where it has come to. -/
theorem isUncut_of_mem_piecesFrom {depth : Depth} {read text piece : List Char}
    (hr : IsUncut read.reverse) (hd : depth = Depth.through {} none read.reverse)
    (hp : piece ∈ piecesFrom depth read text) : IsUncut piece := by
  induction text generalizing depth read with
  | nil => rwa [List.mem_singleton.mp hp]
  | cons c rest ih =>
    rw [piecesFrom] at hp
    split at hp
    · next hcut =>
      simp only [Bool.and_eq_true, decide_eq_true_eq] at hcut
      obtain ⟨tail, rfl⟩ := List.head?_eq_some_iff.mp hcut.1.2
      rcases List.mem_cons.mp hp with rfl | hp
      · rw [List.reverse_cons] at hr
        exact hr.of_isPrefix (List.prefix_append _ _)
      · exact ih (by simp [IsUncut]) hcut.2 hp
    · next hcut =>
      simp only [Bool.and_eq_true, decide_eq_true_eq, not_and] at hcut
      have hread : IsUncut (c :: read).reverse := by
        rw [List.reverse_cons]
        refine hr.concat fun hc hl ↦ ?_
        rw [← hd]
        exact hcut ⟨hc, by simpa using hl⟩
      have hdepth : depth.after read.head? c = Depth.through {} none (c :: read).reverse := by
        rw [List.reverse_cons, Depth.through_append, ← hd, List.getLast?_reverse, Option.or_none]
        rfl
      exact ih hread hdepth hp

theorem isUncut_of_mem_pieces {symbol piece : List Char} (hp : piece ∈ pieces symbol) :
    IsUncut piece := by
  have hread : IsUncut ([] : List Char).reverse := by simp [IsUncut]
  exact isUncut_of_mem_piecesFrom hread rfl hp

theorem isUncut_of_mem_segments {symbol name : List Char} (hn : name ∈ segments symbol) :
    IsUncut name := by
  obtain ⟨_, piece, hp, hname⟩ := exists_name?_of_mem_segments hn
  obtain ⟨rfl, -⟩ := name?_eq_some_iff.mp hname
  exact (isUncut_of_mem_pieces hp).of_isPrefix (List.takeWhile_prefix _)

theorem ne_nil_of_mem_segments {symbol name : List Char} (hn : name ∈ segments symbol) :
    name ≠ [] := by
  obtain ⟨_, piece, -, hname⟩ := exists_name?_of_mem_segments hn
  exact (name?_eq_some_iff.mp hname).2

structure IsPathName (name : String) : Prop where
  nonempty : name ≠ ""
  no_bracket : '<' ∉ name.toList
  colons_in_braces : ∀ start, start ++ [':', ':'] <+: name.toList → 0 < braceDepth start

/-- A path is read in place without a bad slice. Its names are parts of the symbol in their order,
however the brackets and braces of the symbol stand, and each is a path by itself. -/
theorem path_names_are_parts (symbol : String) :
    pathInPlace? symbol = some (path symbol) ∧
    (∀ name ∈ path symbol, IsPathName name ∧ path name = [name]) ∧
    InOrder ((path symbol).map String.toList) symbol.toList := by
  refine ⟨pathInPlace?_eq_some symbol, fun name hn ↦ ?_, ?_⟩
  · obtain ⟨segment, hs, rfl⟩ := List.mem_map.mp hn
    have hne := ne_nil_of_mem_segments hs
    have hbracket := bracket_notMem_segments hs
    have huncut := isUncut_of_mem_segments hs
    refine ⟨⟨by simpa using hne, by simpa using hbracket, fun start hstart ↦ ?_⟩, ?_⟩
    · exact huncut.braceDepth_pos hbracket (by simpa using hstart)
    · rw [path, String.toList_ofList, huncut.segments_eq hbracket hne]
      rfl
  · have hsegments : (path symbol).map String.toList = segments symbol.toList := by simp [path]
    rw [hsegments]
    exact inOrder_segments symbol.toList

/-- Brackets that close nothing do not count, and one left open keeps the rest uncut. -/
example : path "é>>::a->b::::c<d<::e" = ["é>>", "a->b", "c"] := by decide +kernel

end ScriptTrace.Native.Symbol
