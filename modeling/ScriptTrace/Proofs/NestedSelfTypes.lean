import ScriptTrace.Proofs.SelfType

namespace ScriptTrace.Native.Symbol

section Concat

variable {c : Char}

theorem piecesFrom_concat (hc : c ≠ ':') (depth : Depth) (read text : List Char) :
    ∃ front last, piecesFrom depth read text = front ++ [last] ∧
      piecesFrom depth read (text ++ [c]) = front ++ [last ++ [c]] := by
  induction text generalizing depth read with
  | nil => exact ⟨[], read.reverse, rfl, by simp [piecesFrom, hc]⟩
  | cons d rest ih =>
    rw [List.cons_append, piecesFrom, piecesFrom]
    split
    · obtain ⟨front, last, hp, hq⟩ := ih depth []
      exact ⟨_ :: front, last, congrArg _ hp, congrArg _ hq⟩
    · exact ih _ _

theorem selfType_concat (inner : List Char) :
    selfType (inner ++ ['>']) = selfType inner ∨
      selfType (inner ++ ['>']) = selfType inner ++ ['>'] := by
  by_cases h : castWord <:+: inner
  · exact .inl (congrArg unsigned (before_append_of_isInfix castWord_ne_nil h _))
  · have hc : '>' ∉ castWord := by decide
    have hb : before castWord (inner ++ ['>']) = inner ++ ['>'] := before_append_cons hc h []
    rw [selfType_eq, selfType_eq, hb, before_eq_self h]
    exact .inr (unsigned_concat (by decide) inner)

theorem name?_bracket (rest : List Char) : name? ('<' :: rest) = none := rfl

theorem name?_cons (hc : c ≠ '<') (rest : List Char) :
    name? (c :: rest) = some (c :: rest.takeWhile (· ≠ '<')) := by
  simp [name?, hc]

theorem length_filterMap_name?_le_concat (front : List (List Char)) (last : List Char)
    (c : Char) :
    ((front ++ [last]).filterMap name?).length ≤
      ((front ++ [last ++ [c]]).filterMap name?).length := by
  have hname : (name? last).toList.length ≤ (name? (last ++ [c])).toList.length := by
    cases last with
    | nil => exact Nat.zero_le _
    | cons d rest =>
      by_cases hd : d = '<'
      · rw [hd, name?_bracket]
        exact Nat.zero_le _
      · rw [List.cons_append, name?_cons hd, name?_cons hd]
        exact Nat.le_refl 1
  rw [List.filterMap_append, List.filterMap_append, List.length_append, List.length_append,
    filterMap_name?_cons, filterMap_name?_cons, List.filterMap_nil, List.append_nil,
    List.append_nil]
  exact Nat.add_le_add_left hname _

theorem enclosed?_concat_eq_some_iff {piece inner : List Char} :
    enclosed? (piece ++ ['>']) = some inner ↔ piece = '<' :: inner := by
  rw [enclosed?_eq_some_iff, ← List.cons_append, List.append_left_inj]

theorem length_segments_le_concat (symbol : List Char) :
    (segments symbol).length ≤ (segments (symbol ++ ['>'])).length := by
  obtain ⟨front, last, hp, hq⟩ :=
    piecesFrom_concat (show '>' ≠ ':' by decide) {} [] symbol
  have hnames := length_filterMap_name?_le_concat
  cases front with
  | nil =>
    cases he : enclosed? last with
    | some inner =>
      have he' : enclosed? (last ++ ['>']) = some (inner ++ ['>']) :=
        enclosed?_concat_eq_some_iff.mpr (enclosed?_eq_some_iff.mp he)
      rw [segments_of_enclosed?_eq_some hp he, segments_of_enclosed?_eq_some hq he',
        List.filterMap_nil, List.append_nil, List.append_nil]
      rcases selfType_concat inner with hs | hs
      · rw [hs]
      · rw [hs]
        exact length_segments_le_concat (selfType inner)
    | none =>
      rw [segments_eq_filterMap hp he]
      cases he' : enclosed? (last ++ ['>']) with
      | none =>
        rw [segments_eq_filterMap hq he']
        exact hnames [] last '>'
      | some inner =>
        -- The piece has no name, with the bracket that closes it or without it.
        obtain rfl := enclosed?_concat_eq_some_iff.mp he'
        exact Nat.zero_le _
  | cons first front =>
    cases he : enclosed? first with
    | none =>
      rw [segments_eq_filterMap hp he, segments_eq_filterMap hq he]
      exact hnames (first :: front) last '>'
    | some inner =>
      rw [segments_of_enclosed?_eq_some hp he, segments_of_enclosed?_eq_some hq he,
        List.length_append, List.length_append]
      exact Nat.add_le_add_left (hnames front last '>') _
termination_by symbol.length
decreasing_by exact length_selfType_lt hp he

end Concat

def TypeName.HasCast (name : TypeName) : Prop := castWord <:+: name.printed.text.toList

instance (name : TypeName) : Decidable name.HasCast :=
  inferInstanceAs (Decidable (castWord <:+: name.printed.text.toList))

def untilCast : List TypeName → List TypeName
  | [] => []
  | name :: rest => if name.HasCast then [name] else name :: untilCast rest

theorem untilCast_isPrefix (names : List TypeName) : untilCast names <+: names := by
  induction names with
  | nil => exact List.prefix_refl []
  | cons name rest ih =>
    rw [untilCast]
    split
    · exact List.prefix_append [name] rest
    · exact List.cons_prefix_cons.mpr ⟨rfl, ih⟩

theorem length_untilCast_eq_iff (names : List TypeName) :
    (untilCast names).length = names.length ↔ ∀ name ∈ names.dropLast, ¬name.HasCast := by
  induction names with
  | nil => simp [untilCast]
  | cons name rest ih =>
    cases rest with
    | nil => simp [untilCast]
    | cons next rest =>
      rw [List.dropLast_cons_cons, List.forall_mem_cons, untilCast]
      by_cases h : name.HasCast
      · simp [h]
      · rw [if_neg h, List.length_cons, List.length_cons, Nat.add_right_cancel_iff, ih]
        exact ⟨fun hr ↦ ⟨h, hr⟩, And.right⟩

section BeforeCast

namespace TypeName

variable (name : TypeName)

theorem isPiece : IsPiece name.printed.text.toList := by
  rw [name.toList_text, bracketed]
  cases name.arguments with
  | none =>
    rw [Option.elim_none, List.append_nil]
    exact name.name.isPlain.isPiece
  | some arguments => exact name.name.isPlain.isPiece.append arguments.isPiece (by decide)

theorem name?_before_cast :
    name? (before castWord name.printed.text.toList) = some name.name.text.toList := by
  have hne : name.name.text.toList ≠ [] := mt String.toList_eq_nil_iff.mp name.name.isPlain.1
  have hb : '<' ∉ name.name.text.toList := name.name.isPlain.2 '<' (by decide)
  have hcast : ¬castWord <:+: name.name.text.toList := fun hi ↦
    name.name.space_notMem (hi.subset List.mem_cons_self)
  rw [name.toList_text, bracketed]
  cases name.arguments with
  | none =>
    rw [Option.elim_none, List.append_nil, before_eq_self hcast]
    exact name?_of_notMem hne hb
  | some arguments =>
    rw [Option.elim_some, Arguments.piece, before_append_cons (by decide) hcast,
      before_eq_cons (by simp [castWord])]
    exact name?_append_cons hne hb _

theorem pieces_before_cast : pieces (before castWord name.printed.text.toList) =
    [before castWord name.printed.text.toList] :=
  name.isPiece.pieces_of_isPrefix (before_isPrefix _ _)

end TypeName

theorem enclosed?_of_name?_eq_some {piece name : List Char} (h : name? piece = some name) :
    enclosed? piece = none := by
  cases he : enclosed? piece with
  | none => rfl
  | some inner =>
    rw [enclosed?_eq_some_iff.mp he, name?_bracket] at h
    cases h

theorem exists_pieces_before_cast (first : TypeName) (rest : List TypeName) :
    ∃ more, pieces (before castWord (printNames (first :: rest)).toList) =
        before castWord first.printed.text.toList :: more ∧
      first.name.text.toList :: more.filterMap name? =
        (untilCast (first :: rest)).map (·.name.text.toList) := by
  induction rest generalizing first with
  | nil =>
    refine ⟨[], ?_, ?_⟩
    · rw [toList_printNames_singleton, ← first.toList_text, first.pieces_before_cast]
    · rw [untilCast]
      split <;> rfl
  | cons next rest ih =>
    rw [toList_printNames_cons_cons, ← first.toList_text, untilCast]
    by_cases hcast : first.HasCast
    · refine ⟨[], ?_, ?_⟩
      · rw [before_append_of_isInfix castWord_ne_nil hcast, first.pieces_before_cast]
      · rw [if_pos hcast]
        rfl
    · obtain ⟨more, hp, hn⟩ := ih next
      refine ⟨before castWord next.printed.text.toList :: more, ?_, ?_⟩
      · rw [before_append_cons (by decide) hcast, before_eq_cons (by simp [castWord]),
          before_eq_cons (by simp [castWord]), first.isPiece.pieces_append, hp,
          before_eq_self hcast]
      · rw [List.filterMap_cons_some next.name?_before_cast, hn, if_neg hcast]
        rfl

/-- A path that is cut before its first cast has the names up to the one with the cast. -/
theorem segments_before_cast_printNames (first : TypeName) (rest : List TypeName) :
    segments (before castWord (printNames (first :: rest)).toList) =
      (untilCast (first :: rest)).map (·.name.text.toList) := by
  obtain ⟨more, hp, hn⟩ := exists_pieces_before_cast first rest
  rw [segments_eq_filterMap hp (enclosed?_of_name?_eq_some first.name?_before_cast),
    List.filterMap_cons_some first.name?_before_cast, hn]

theorem length_segments_bracket_le (type : TypePath) :
    (segments ('<' :: before castWord type.text.toList)).length ≤
      (segments (before castWord type.text.toList)).length := by
  have hbefore := before_isPrefix castWord type.text.toList
  have hp : pieces ('<' :: before castWord type.text.toList) =
      ['<' :: before castWord type.text.toList] :=
    type.isEnclosable.isPiece.pieces_of_isPrefix
      (List.cons_prefix_cons.mpr ⟨rfl, hbefore.trans (List.prefix_append _ _)⟩)
  cases he : enclosed? ('<' :: before castWord type.text.toList) with
  | none =>
    rw [segments_of_enclosed?_eq_none hp he]
    exact Nat.zero_le _
  | some inner =>
    have hinner : before castWord type.text.toList = inner ++ ['>'] :=
      (List.cons.inj (enclosed?_eq_some_iff.mp he)).2
    have hself : selfType inner = inner := by
      have hcast : ¬castWord <:+: inner := fun hi ↦
        not_infix_before castWord_ne_nil type.text.toList
          (hinner ▸ hi.trans (List.infix_append' [] inner ['>']))
      rw [selfType_eq, before_eq_self hcast]
      refine (type.isBare.of_isPrefix ?_).unsigned_eq
      exact (List.prefix_append inner ['>']).trans (hinner ▸ hbefore)
    rw [segments_of_enclosed?_eq_some hp he, hself, hinner, List.filterMap_nil, List.append_nil]
    exact length_segments_le_concat inner

end BeforeCast

namespace TypePath

/-- The only casts in a type are among the arguments of its last name. -/
def IsDirect : TypePath → Prop
  | plain first rest => ∀ name ∈ (first :: rest).dropLast, ¬name.HasCast
  | qualified .. => False

theorem segments_before_cast_eq_iff (self : TypePath) :
    segments (before castWord self.text.toList) = segments self.text.toList ↔ self.IsDirect := by
  cases self with
  | plain first rest =>
    have huntil := segments_before_cast_printNames first rest
    have hnames : segments (printNames (first :: rest)).toList =
        (first :: rest).map (·.name.text.toList) := by
      rw [printNames, segments_printPath, List.map_map]
      rfl
    rw [text, IsDirect, huntil, hnames, ← length_untilCast_eq_iff]
    refine ⟨fun h ↦ ?_, fun h ↦ ?_⟩
    · simpa only [List.length_map] using congrArg List.length h
    · rw [(untilCast_isPrefix _).eq_of_length h]
  | qualified self interface first rest =>
    -- The cut leaves the first bracket open, so that the names after it are lost.
    refine ⟨fun h ↦ ?_, False.elim⟩
    have hcut : before castWord (qualified self interface first rest).text.toList =
        '<' :: before castWord self.text.toList := by
      rw [toList_text_qualified, List.cons_append, before_eq_cons (by simp [castWord]),
        List.append_assoc, List.append_assoc, before_append_cast self.not_suffix_text]
    have hwhole : segments (qualified self interface first rest).text.toList =
        segments (before castWord self.text.toList) ++
          (first :: rest).map (·.name.text.toList) := by
      rw [toList_text_qualified, printNames,
        segments_enclosed (self.isEnclosable.cast interface.isEnclosable), selfType_cast,
        List.map_map]
      rfl
    have hle := length_segments_bracket_le self
    rw [← hcut, h, hwhole, List.length_append, List.length_map, List.length_cons] at hle
    omega

end TypePath

/-- The symbol of a method of a type has the path of the type before the name of the method exactly
if no other cast stands before a name of the type. -/
theorem path_cast_iff (self interface : TypePath) (names : List SourceName) :
    path ("<" ++ self.text ++ " as " ++ interface.text ++ ">::" ++ joined names) =
      path self.text ++ names.map (·.text) ↔ self.IsDirect := by
  have hsymbol : ("<" ++ self.text ++ " as " ++ interface.text ++ ">::" ++ joined names).toList =
      '<' :: (self.text.toList ++ castWord ++ interface.text.toList ++ ['>']) ++
        ':' :: ':' :: (joined names).toList := by
    simp [castWord]
  have hnames : names.map (·.text) = (names.map (·.text.toList)).map String.ofList := by simp
  have hinj : Function.Injective (List.map String.ofList) :=
    List.map_injective_iff.mpr (Function.LeftInverse.injective fun _ ↦ String.toList_ofList)
  rw [path, path, hsymbol,
    segments_enclosed_joined names (self.isEnclosable.cast interface.isEnclosable), selfType_cast,
    hnames, ← List.map_append, hinj.eq_iff, List.append_cancel_right_eq,
    self.segments_before_cast_eq_iff]

/-- A cast in the self type of a type, and one among the arguments of a name before its last. -/
theorem path_cast_of_nested_casts :
    let guard := "<<a::B as c::D>::drop::Guard as c::D>::drop"
    let item := "<a::B<<x as y>::z>::C as c::D>::drop"
    (∃ (self interface : TypePath) (names : List SourceName), names ≠ [] ∧
      "<" ++ self.text ++ " as " ++ interface.text ++ ">::" ++ joined names = guard ∧
      path self.text ++ names.map (·.text) = ["a", "B", "drop", "Guard", "drop"] ∧
      path guard = ["drop"]) ∧
    ∃ (self interface : TypePath) (names : List SourceName), names ≠ [] ∧
      "<" ++ self.text ++ " as " ++ interface.text ++ ">::" ++ joined names = item ∧
      path self.text ++ names.map (·.text) = ["a", "B", "C", "drop"] ∧
      path item = ["a", "B", "drop"] := by
  intro guard item
  let a : TypeName := ⟨{ text := "a" }, none⟩
  let b : SourceName := { text := "B" }
  let drop : SourceName := { text := "drop" }
  let interface : TypePath :=
    .plain ⟨{ text := "c" }, none⟩ [⟨{ text := "D" }, none⟩]
  let projection : TypePath :=
    .qualified (.plain ⟨{ text := "x" }, none⟩ [])
      (.plain ⟨{ text := "y" }, none⟩ []) ⟨{ text := "z" }, none⟩ []
  refine ⟨⟨.qualified (.plain a [⟨b, none⟩]) interface ⟨drop, none⟩
      [⟨{ text := "Guard" }, none⟩], interface, [drop], List.cons_ne_nil _ _, ?_⟩,
    .plain a [⟨b, some (.ofTypes false [projection])⟩, ⟨{ text := "C" }, none⟩],
    interface, [drop], List.cons_ne_nil _ _, ?_⟩
  · exact ⟨rfl, by decide +kernel, by decide +kernel⟩
  · exact ⟨rfl, by decide +kernel, by decide +kernel⟩

end ScriptTrace.Native.Symbol
