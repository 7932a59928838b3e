import ScriptTrace.Proofs.TypeText

namespace ScriptTrace.Native.Symbol

section Words

variable {word a b : List Char} {c : Char}

theorem prefix_of_prefix_append_cons (hc : c ∉ word) (h : word <+: a ++ c :: b) : word <+: a := by
  rcases List.prefix_or_prefix_of_prefix h (List.prefix_append a (c :: b)) with ha | ⟨tail, rfl⟩
  · exact ha
  · have ht : tail <+: c :: b := (List.prefix_append_right_inj a).mp h
    cases tail with
    | nil => exact (List.append_nil a).symm ▸ List.prefix_refl a
    | cons d tail =>
      obtain ⟨rfl, -⟩ := List.cons_prefix_cons.mp ht
      exact absurd (List.mem_append_right a List.mem_cons_self) hc

theorem suffix_of_suffix_append_cons (hc : c ∉ word) (h : word <:+ a ++ c :: b) : word <:+ b := by
  rcases List.suffix_or_suffix_of_suffix h (List.suffix_append a (c :: b)) with hw | hw
  · rcases List.suffix_cons_iff.mp hw with rfl | hw
    · exact absurd List.mem_cons_self hc
    · exact hw
  · exact absurd (hw.subset List.mem_cons_self) hc

theorem before_eq_cons (h : ¬word <+: c :: a) :
    before word (c :: a) = c :: before word a := by
  rw [before, if_neg (mt List.isPrefixOf_iff_prefix.mp h)]

theorem before_eq_nil (h : word <+: c :: a) : before word (c :: a) = [] := by
  rw [before, if_pos (List.isPrefixOf_iff_prefix.mpr h)]

theorem before_isPrefix (word text : List Char) : before word text <+: text := by
  induction text with
  | nil => exact List.prefix_refl []
  | cons c rest ih =>
    by_cases h : word <+: c :: rest
    · rw [before_eq_nil h]
      exact List.nil_prefix
    · rw [before_eq_cons h]
      exact List.cons_prefix_cons.mpr ⟨rfl, ih⟩

theorem not_infix_before (hne : word ≠ []) (text : List Char) : ¬word <:+: before word text := by
  induction text with
  | nil => exact mt List.infix_nil.mp hne
  | cons c rest ih =>
    by_cases h : word <+: c :: rest
    · rw [before_eq_nil h]
      exact mt List.infix_nil.mp hne
    · rw [before_eq_cons h, List.infix_cons_iff, not_or]
      have hp : c :: before word rest <+: c :: rest :=
        List.cons_prefix_cons.mpr ⟨rfl, before_isPrefix word rest⟩
      exact ⟨fun hb ↦ h (hb.trans hp), ih⟩

theorem before_append_cons (hc : c ∉ word) (h : ¬word <:+: a) (b : List Char) :
    before word (a ++ c :: b) = a ++ before word (c :: b) := by
  induction a with
  | nil => rfl
  | cons d rest ih =>
    rw [List.infix_cons_iff, not_or] at h
    have hp : ¬word <+: d :: (rest ++ c :: b) :=
      fun hw ↦ h.1 (prefix_of_prefix_append_cons (a := d :: rest) hc hw)
    rw [List.cons_append, before_eq_cons hp, ih h.2, List.cons_append]

theorem before_eq_self (h : ¬word <:+: a) : before word a = a := by
  induction a with
  | nil => rfl
  | cons d rest ih =>
    rw [List.infix_cons_iff, not_or] at h
    rw [before_eq_cons h.1, ih h.2]

theorem before_append_of_isInfix (hne : word ≠ []) (h : word <:+: a) (b : List Char) :
    before word (a ++ b) = before word a := by
  induction a with
  | nil => exact absurd (List.infix_nil.mp h) hne
  | cons d rest ih =>
    rw [List.cons_append]
    by_cases hp : word <+: d :: rest
    · rw [before_eq_nil hp]
      exact before_eq_nil (hp.trans (List.prefix_append (d :: rest) b))
    · have hr : word <:+: rest := (List.infix_cons_iff.mp h).resolve_left hp
      have hpb : ¬word <+: d :: (rest ++ b) := fun hw ↦
        hp (List.prefix_of_prefix_length_le hw (List.prefix_append (d :: rest) b)
          (Nat.le_succ_of_le hr.length_le))
      rw [before_eq_cons hp, before_eq_cons hpb, ih hr]

theorem dropRepeated_eq_self (h : ¬word <+: a) : dropRepeated word a = a := by
  rw [dropRepeated]
  split
  · rfl
  · next rest hr => exact absurd ⟨rest, List.isPrefixOf?_eq_some_iff_append_eq.mp hr⟩ h

theorem dropRepeated_append (hne : word ≠ []) (text : List Char) :
    dropRepeated word (word ++ text) = dropRepeated word text := by
  have hr : word.isPrefixOf? (word ++ text) = some text :=
    List.isPrefixOf?_eq_some_iff_append_eq.mpr rfl
  have hl : text.length < (word ++ text).length := by
    have hpos := List.length_pos_iff.mpr hne
    rw [List.length_append]
    omega
  rw [dropRepeated, hr]
  exact dif_pos hl

theorem dropRepeated_concat (hne : word ≠ []) (hc : word.getLast? ≠ some c) (text : List Char) :
    dropRepeated word (text ++ [c]) = dropRepeated word text ++ [c] := by
  fun_induction dropRepeated word text with
  | case1 text h =>
    refine dropRepeated_eq_self fun hp ↦ ?_
    rcases List.prefix_concat_iff.mp hp with rfl | ⟨rest, rfl⟩
    · exact hc List.getLast?_concat
    · rw [List.isPrefixOf?_eq_some_iff_append_eq.mpr rfl] at h
      cases h
  | case2 text rest h hl ih =>
    obtain rfl := List.isPrefixOf?_eq_some_iff_append_eq.mp h
    rw [List.append_assoc, dropRepeated_append hne, ih]
  | case3 text rest h hl =>
    obtain rfl := List.isPrefixOf?_eq_some_iff_append_eq.mp h
    have hpos := List.length_pos_iff.mpr hne
    rw [List.length_append] at hl
    omega

theorem dropRepeated_suffix (word text : List Char) : dropRepeated word text <:+ text := by
  fun_induction dropRepeated word text with
  | case1 text => exact List.suffix_refl text
  | case2 text rest h _ ih =>
    obtain rfl := List.isPrefixOf?_eq_some_iff_append_eq.mp h
    exact ih.trans (List.suffix_append word rest)
  | case3 text => exact List.suffix_refl text

end Words

theorem before_cast_append {a : List Char} (h : ' ' ∉ a) (b : List Char) :
    before castWord (a ++ b) = a ++ before castWord b := by
  induction a with
  | nil => rfl
  | cons d rest ih =>
    rw [List.mem_cons, not_or] at h
    have hp : ¬castWord <+: d :: (rest ++ b) := fun hw ↦ h.1 (List.cons_prefix_cons.mp hw).1
    rw [List.cons_append, before_eq_cons hp, ih h.2, List.cons_append]

theorem before_cast_of_notMem {a : List Char} (h : ' ' ∉ a) : before castWord a = a := by
  have hb := before_cast_append h []
  rwa [List.append_nil, before, List.append_nil] at hb

/-- A cast ends the text before it, unless the space after an `as` at its end is taken for the one
before the cast. -/
theorem before_append_cast {a : List Char} (h : ¬[' ', 'a', 's'] <:+ a) (b : List Char) :
    before castWord (a ++ castWord ++ b) = before castWord a := by
  induction a with
  | nil => exact before_eq_nil (List.prefix_append castWord b)
  | cons d rest ih =>
    have hrest : ¬[' ', 'a', 's'] <:+ rest := fun hr ↦ h (hr.trans (List.suffix_cons d rest))
    by_cases hp : castWord <+: d :: rest
    · have hlong : castWord <+: d :: rest ++ castWord ++ b :=
        hp.trans ((List.prefix_append _ _).trans (List.prefix_append _ _))
      rw [before_eq_nil hp]
      exact before_eq_nil hlong
    · have hlong : ¬castWord <+: d :: (rest ++ castWord ++ b) := by
        intro hw
        rw [← List.cons_append, ← List.cons_append, List.append_assoc] at hw
        rcases List.prefix_or_prefix_of_prefix hw (List.prefix_append (d :: rest) _) with hs | hs
        · exact hp hs
        · rw [← List.mem_inits] at hs
          simp only [castWord, List.inits, List.map_cons, List.map_nil, List.mem_cons,
            List.cons_ne_nil, List.cons.injEq, List.not_mem_nil, or_false, false_or] at hs
          rcases hs with ⟨rfl, rfl⟩ | ⟨rfl, rfl⟩ | ⟨rfl, rfl⟩ | ⟨rfl, rfl⟩ <;>
            simp_all [castWord]
      rw [before_eq_cons hp, List.cons_append, List.cons_append,
        before_eq_cons hlong, ih hrest]

def unsigned (text : List Char) : List Char :=
  dropRepeated ['d', 'y', 'n', ' '] (dropRepeated ['m', 'u', 't', ' ']
    (text.dropWhile fun c ↦ c = '&' || c = '*'))

theorem unsigned_concat {c : Char} (hc : c ∉ ['&', '*', ' ']) (text : List Char) :
    unsigned (text ++ [c]) = unsigned text ++ [c] := by
  simp only [List.mem_cons, List.not_mem_nil, or_false, not_or] at hc
  have hdrop : ((text ++ [c]).dropWhile fun c ↦ c = '&' || c = '*') =
      (text.dropWhile fun c ↦ c = '&' || c = '*') ++ [c] := by
    rw [List.dropWhile_append]
    split
    · next he =>
      rw [List.isEmpty_iff.mp he, List.dropWhile_cons_of_neg (by simp [hc.1, hc.2.1]),
        List.nil_append]
    · rfl
  have hspace : ∀ x y z : Char, [x, y, z, ' '].getLast? ≠ some c :=
    fun _ _ _ h ↦ hc.2.2 (Option.some.inj h).symm
  rw [unsigned, hdrop, dropRepeated_concat (List.cons_ne_nil _ _) (hspace _ _ _),
    dropRepeated_concat (List.cons_ne_nil _ _) (hspace _ _ _)]
  rfl

theorem unsigned_suffix (text : List Char) : unsigned text <:+ text :=
  ((dropRepeated_suffix _ _).trans (dropRepeated_suffix _ _)).trans (List.dropWhile_suffix _)

theorem selfType_eq (inner : List Char) : selfType inner = unsigned (before castWord inner) := rfl

structure IsBare (text : List Char) : Prop where
  no_sigil : ∀ c ∈ text.head?, c ≠ '&' ∧ c ≠ '*'
  no_mut : ¬['m', 'u', 't', ' '] <+: text
  no_dyn : ¬['d', 'y', 'n', ' '] <+: text

namespace IsBare

variable {a b : List Char}

theorem unsigned_eq (h : IsBare a) : unsigned a = a := by
  have hdrop : (a.dropWhile fun c ↦ c = '&' || c = '*') = a := by
    cases a with
    | nil => rfl
    | cons c rest =>
      obtain ⟨hamp, hstar⟩ := h.no_sigil c rfl
      rw [List.dropWhile_cons_of_neg (by simp [hamp, hstar])]
  rw [unsigned, hdrop, dropRepeated_eq_self h.no_mut, dropRepeated_eq_self h.no_dyn]

theorem of_isPrefix (h : IsBare b) (hp : a <+: b) : IsBare a where
  no_sigil := by
    obtain ⟨rest, rfl⟩ := hp
    exact fun c hc ↦ h.no_sigil c (List.mem_head?_append_of_mem_head? hc)
  no_mut hm := h.no_mut (hm.trans hp)
  no_dyn hd := h.no_dyn (hd.trans hp)

theorem of_bracket (rest : List Char) : IsBare ('<' :: rest) :=
  ⟨by simp, by simp, by simp⟩

end IsBare

theorem exists_toList_printNames (first : TypeName) (rest : List TypeName) :
    ∃ tail, (printNames (first :: rest)).toList = first.name.text.toList ++ tail ∧
      ∀ c ∈ tail.head?, c ∈ ['<', ':'] := by
  have hhead : ∀ more : List Char, (∀ c ∈ more.head?, c = ':') →
      ∀ c ∈ (first.bracketed ++ more).head?, c ∈ ['<', ':'] := by
    intro more hm c hc
    unfold TypeName.bracketed at hc
    cases ha : first.arguments with
    | none => simp [hm c (by simpa [ha] using hc)]
    | some arguments =>
      obtain rfl : '<' = c := by simpa [ha, Arguments.piece] using hc
      decide
  cases rest with
  | nil =>
    refine ⟨_, toList_printNames_singleton first, ?_⟩
    simpa using hhead [] (by simp)
  | cons next rest =>
    refine ⟨_, (toList_printNames_cons_cons first next rest).trans (List.append_assoc _ _ _), ?_⟩
    exact hhead _ (by simp)

theorem SourceName.not_prefix_append (name : SourceName) {word tail : List Char} (hs : ' ' ∈ word)
    (hw : ∀ c ∈ ['<', ':'], c ∉ word) (ht : ∀ c ∈ tail.head?, c ∈ ['<', ':']) :
    ¬word <+: name.text.toList ++ tail := by
  intro hp
  have hname : word <+: name.text.toList := by
    cases tail with
    | nil => rwa [List.append_nil] at hp
    | cons c tail => exact prefix_of_prefix_append_cons (hw c (ht c rfl)) hp
  exact name.space_notMem (hname.subset hs)

theorem isBare_printNames (first : TypeName) (rest : List TypeName) :
    IsBare (printNames (first :: rest)).toList := by
  obtain ⟨tail, hl, ht⟩ := exists_toList_printNames first rest
  rw [hl]
  refine ⟨?_, first.name.not_prefix_append (by decide) (by simp) ht,
    first.name.not_prefix_append (by decide) (by simp) ht⟩
  intro c hc
  obtain ⟨d, more, hn⟩ :=
    List.exists_cons_of_ne_nil (mt String.toList_eq_nil_iff.mp first.name.isPlain.1)
  obtain rfl : d = c := by simpa [hn] using hc
  have hsign := (first.name.no_sign d (hn ▸ List.mem_cons_self)).1
  simp only [List.mem_cons, not_or] at hsign
  exact ⟨hsign.1, hsign.2.1⟩

namespace TypePath

theorem toList_text_qualified (self interface : TypePath) (first : TypeName)
    (rest : List TypeName) :
    (qualified self interface first rest).text.toList =
      '<' :: (self.text.toList ++ castWord ++ interface.text.toList ++ ['>']) ++
        ':' :: ':' :: (printNames (first :: rest)).toList := by
  simp [text, castWord]

theorem isBare (type : TypePath) : IsBare type.text.toList := by
  cases type with
  | plain first rest => exact isBare_printNames first rest
  | qualified self interface first rest =>
    rw [toList_text_qualified, List.cons_append]
    exact IsBare.of_bracket _

end TypePath

theorem not_suffix_printNames (first : TypeName) (rest : List TypeName) :
    ¬[' ', 'a', 's'] <:+ (printNames (first :: rest)).toList := by
  intro hs
  induction rest generalizing first with
  | nil =>
    rw [toList_printNames_singleton, TypeName.bracketed] at hs
    cases ha : first.arguments with
    | none =>
      have hname : [' ', 'a', 's'] <:+ first.name.text.toList := by simpa [ha] using hs
      exact first.name.space_notMem (hname.subset List.mem_cons_self)
    | some arguments =>
      rw [ha, Option.elim_some, Arguments.piece, ← List.cons_append, ← List.append_assoc] at hs
      have hnil := suffix_of_suffix_append_cons (by decide) hs
      exact absurd (List.suffix_nil.mp hnil) (List.cons_ne_nil _ _)
  | cons next rest ih =>
    rw [toList_printNames_cons_cons] at hs
    have hcolon := suffix_of_suffix_append_cons (by decide) hs
    exact ih next (suffix_of_suffix_append_cons (a := []) (by decide) hcolon)

theorem TypePath.not_suffix_text (type : TypePath) : ¬[' ', 'a', 's'] <:+ type.text.toList := by
  cases type with
  | plain first rest => exact not_suffix_printNames first rest
  | qualified self interface first rest =>
    intro hs
    rw [toList_text_qualified] at hs
    have hcolon := suffix_of_suffix_append_cons (by decide) hs
    exact not_suffix_printNames first rest
      (suffix_of_suffix_append_cons (a := []) (by decide) hcolon)

/-- A type that stands before a cast is read up to the first cast in it. -/
theorem selfType_cast (self : TypePath) (interface : List Char) :
    selfType (self.text.toList ++ castWord ++ interface) = before castWord self.text.toList := by
  rw [selfType_eq, before_append_cast self.not_suffix_text]
  exact (self.isBare.of_isPrefix (before_isPrefix _ _)).unsigned_eq

/-- A symbol that starts in brackets has the path of the self type in them, then the names after
them. -/
theorem segments_enclosed {inner : List Char} (h : IsEnclosable inner) (names : List PrintedName) :
    segments ('<' :: (inner ++ ['>']) ++ ':' :: ':' :: (printPath names).toList) =
      segments (selfType inner) ++ names.map (·.name.toList) := by
  rw [segments_of_enclosed?_eq_some (h.isPiece.pieces_append _) (enclosed?_eq_some_iff.mpr rfl),
    filterMap_name?_pieces_printPath]

section Joined

variable (names : List SourceName)

theorem joined_singleton (name : SourceName) : joined [name] = name.text := by
  simp [joined, printNames, printPath, TypeName.printed, PrintedName.text]

theorem space_notMem_joined : ' ' ∉ (joined names).toList := by
  rw [joined, printNames, printPath, String.toList_intercalate]
  refine Text.notMem_intercalate (by decide) fun text ht ↦ ?_
  simp only [List.map_map, List.mem_map] at ht
  obtain ⟨name, -, rfl⟩ := ht
  exact name.space_notMem

theorem before_cast_joined : before castWord (joined names).toList = (joined names).toList :=
  before_cast_of_notMem (space_notMem_joined names)

theorem segments_joined : segments (joined names).toList = names.map (·.text.toList) := by
  rw [joined, printNames, segments_printPath, List.map_map, List.map_map]
  rfl

theorem segments_enclosed_joined {inner : List Char} (h : IsEnclosable inner) :
    segments ('<' :: (inner ++ ['>']) ++ ':' :: ':' :: (joined names).toList) =
      segments (selfType inner) ++ names.map (·.text.toList) := by
  rw [joined, printNames, segments_enclosed h, List.map_map, List.map_map]
  rfl

end Joined

end ScriptTrace.Native.Symbol
