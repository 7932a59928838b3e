import ScriptTrace.Proofs.Brackets

namespace ScriptTrace.Native.Symbol

theorem piecesFrom_append {depth : Depth} {text : List Char} (read : List Char)
    (h : ∀ start, start ++ [':'] <+: text → start.getLast?.or read.head? = some ':' →
      depth.through read.head? start ≠ {})
    (after : List Char) :
    piecesFrom depth read (text ++ after) =
      piecesFrom (depth.through read.head? text) (text.reverse ++ read) after := by
  induction text generalizing depth read with
  | nil => rfl
  | cons c rest ih =>
    have hcut : (c = ':' && read.head? = some ':' && depth = {}) = false := by
      rw [Bool.eq_false_iff]
      intro hc
      simp only [Bool.and_eq_true, decide_eq_true_eq] at hc
      exact h [] (by simp [hc.1.1]) (by simp [hc.1.2]) hc.2
    have hrest : ∀ start, start ++ [':'] <+: rest → start.getLast?.or (c :: read).head? = some ':' →
        (depth.after read.head? c).through (c :: read).head? start ≠ {} := by
      intro start hs hl
      refine h (c :: start) (List.cons_prefix_cons.mpr ⟨rfl, hs⟩) ?_
      rw [← hl, List.getLast?_cons]
      cases start.getLast? <;> rfl
    rw [List.cons_append, piecesFrom, hcut, if_neg Bool.false_ne_true, ih _ hrest,
      List.reverse_cons, List.append_assoc]
    rfl

theorem pieces_eq_singleton {text : List Char}
    (h : ∀ start, start ++ [':'] <+: text → start.getLast? = some ':' →
      Depth.through {} none start ≠ {}) :
    pieces text = [text] := by
  have hp := piecesFrom_append [] (fun start hs hl ↦ h start hs (by simpa using hl)) []
  rwa [List.append_nil, List.append_nil, piecesFrom, List.reverse_reverse] at hp

/-- A text that stays whole when it stands between double colons: it closes its brackets and braces,
and its colons all stand inside of them. -/
structure IsPiece (text : List Char) : Prop where
  closed : Depth.through {} none text = {}
  colons_nested : ∀ start, start ++ [':'] <+: text → Depth.through {} none start ≠ {}

namespace IsPiece

variable {text : List Char}

theorem getLast?_ne (h : IsPiece text) : text.getLast? ≠ some ':' := by
  intro hl
  obtain ⟨start, rfl⟩ := List.getLast?_eq_some_iff.mp hl
  refine h.colons_nested start (List.prefix_refl _) ?_
  have hclosed := h.closed
  rw [Depth.through_append] at hclosed
  simpa only [Depth.through, Depth.after_of_notMem (c := ':') (by decide)] using hclosed

theorem piecesFrom_eq (h : IsPiece text) (after : List Char) :
    piecesFrom {} [] (text ++ after) = piecesFrom {} text.reverse after := by
  have hp := piecesFrom_append [] (fun start hs _ ↦ h.colons_nested start hs) after
  rwa [List.head?_nil, h.closed, List.append_nil] at hp

theorem pieces_eq (h : IsPiece text) : pieces text = [text] :=
  pieces_eq_singleton fun start hs _ ↦ h.colons_nested start hs

theorem pieces_of_isPrefix (h : IsPiece text) {start : List Char} (hs : start <+: text) :
    pieces start = [start] :=
  pieces_eq_singleton fun tail ht _ ↦ h.colons_nested tail (ht.trans hs)

theorem pieces_append (h : IsPiece text) (after : List Char) :
    pieces (text ++ ':' :: ':' :: after) = text :: pieces after := by
  -- The first colon cuts nothing, since the text before it does not end in one.
  rw [pieces, h.piecesFrom_eq, piecesFrom, if_neg (by simp [h.getLast?_ne]),
    Depth.after_of_notMem (c := ':') (by decide), piecesFrom, if_pos (by simp), List.tail_cons,
    List.reverse_reverse]
  rfl

/-- Unless the second text starts with the head of an arrow, it is scanned as if nothing stood
before it. -/
theorem append {c : Char} {rest : List Char} (h : IsPiece text) (hrest : IsPiece (c :: rest))
    (hc : c ≠ '>') : IsPiece (text ++ c :: rest) where
  closed := by
    rw [Depth.through_append, h.closed, Depth.through_cons_of_ne hc, hrest.closed]
  colons_nested := by
    intro start hs
    rcases List.prefix_or_prefix_of_prefix hs (List.prefix_append text (c :: rest)) with ht | ht
    · exact h.colons_nested start ht
    rcases List.prefix_concat_iff.mp ht with rfl | ⟨tail, rfl⟩
    · exact h.colons_nested start (List.prefix_refl _)
    · rw [List.append_assoc, List.prefix_append_right_inj] at hs
      rw [Depth.through_append, h.closed]
      cases tail with
      | nil => exact hrest.colons_nested [] hs
      | cons d tail =>
        obtain ⟨rfl, -⟩ := List.cons_prefix_cons.mp hs
        rw [Depth.through_cons_of_ne hc]
        exact hrest.colons_nested (d :: tail) hs

end IsPiece

theorem isPiece_of_notMem {text : List Char} (hc : ':' ∉ text)
    (hb : ∀ c ∈ text, c ∉ ['<', '>', '{', '}']) : IsPiece text where
  closed := Depth.through_of_notMem hb
  colons_nested := by
    intro start hs
    exact absurd (hs.subset (List.mem_append_right start List.mem_cons_self)) hc

theorem isPiece_of_enclosed {opening closing : Char} {inner : List Char}
    (ho : opening ≠ ':') (hc : closing ≠ ':')
    (hinner : ∀ start, start <+: inner →
      (Depth.after {} none opening).through (some opening) start ≠ {})
    (hclosed : ((Depth.after {} none opening).through (some opening) inner).after
      (inner.getLast?.or (some opening)) closing = {}) :
    IsPiece (opening :: (inner ++ [closing])) where
  closed := by
    rw [Depth.through, Depth.through_append]
    exact hclosed
  colons_nested := by
    intro start hs
    cases start with
    | nil => exact absurd (List.cons_prefix_cons.mp hs).1.symm ho
    | cons c start =>
      obtain ⟨rfl, ht⟩ := List.cons_prefix_cons.mp hs
      rcases List.prefix_concat_iff.mp ht with he | ht
      · exact absurd (List.append_inj' he rfl).2 (by simpa using hc.symm)
      · exact hinner start ((List.prefix_append start [':']).trans ht)

section Balanced

variable {inner : List Char} (ha : IsBalanced angleWeight inner) (hb : IsBalanced braceWeight inner)

include ha hb

theorem isPiece_angles (hlast : inner.getLast? ≠ some '-') :
    IsPiece ('<' :: (inner ++ ['>'])) := by
  have hp : some '<' ≠ some '-' := by decide
  refine isPiece_of_enclosed (by decide) (by decide)
    (fun start hs ↦ Depth.through_ne_of_balanced ha hb hp (by decide) hs) ?_
  rw [Depth.through_of_balanced ha hb hp]
  have hend : inner.getLast?.or (some '<') ≠ some '-' := by
    cases hi : inner.getLast? with
    | none => decide
    | some c => simpa [hi] using hlast
  rw [Depth.after_closing hend]
  rfl

theorem isPiece_braces : IsPiece ('{' :: (inner ++ ['}'])) := by
  have hp : some '{' ≠ some '-' := by decide
  refine isPiece_of_enclosed (by decide) (by decide)
    (fun start hs ↦ Depth.through_ne_of_balanced ha hb hp (by decide) hs) ?_
  rw [Depth.through_of_balanced ha hb hp]
  rfl

end Balanced

/-- The pieces of a symbol are the texts that double colons join. -/
theorem pieces_intercalate {texts : List (List Char)} (hne : texts ≠ [])
    (h : ∀ text ∈ texts, IsPiece text) : pieces ([':', ':'].intercalate texts) = texts := by
  induction texts with
  | nil => exact absurd rfl hne
  | cons text rest ih =>
    have ht := h text List.mem_cons_self
    cases rest with
    | nil => rw [List.intercalate_singleton, ht.pieces_eq]
    | cons next rest =>
      have hrest := ih (List.cons_ne_nil _ _) fun t hm ↦ h t (List.mem_cons_of_mem _ hm)
      rw [List.intercalate_cons_cons, List.append_assoc, List.cons_append, List.singleton_append,
        ht.pieces_append, hrest]

end ScriptTrace.Native.Symbol
