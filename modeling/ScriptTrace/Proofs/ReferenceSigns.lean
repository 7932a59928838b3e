import ScriptTrace.Proofs.NativeVisibility
import ScriptTrace.Proofs.SelfType

namespace ScriptTrace.Native

namespace Symbol

inductive Sign
  | reference
  | mutableReference
  | constantPointer
  | mutablePointer
  deriving DecidableEq

def Sign.text : Sign → String
  | reference => "&"
  | mutableReference => "&mut "
  | constantPointer => "*const "
  | mutablePointer => "*mut "

def signLetters : List Char := ['&', '*', 'm', 'u', 't', 'c', 'o', 'n', 's', ' ']

theorem notMem_signLetters : ∀ c ∈ [':', '<', '>', '{', '}', '-'], c ∉ signLetters := by
  simp [signLetters]

def signsText (signs : List Sign) : List Char := signs.flatMap (·.text.toList)

def residue : List Sign → List Char
  | [] => []
  | .reference :: rest => residue rest
  | .mutableReference :: rest | .mutablePointer :: rest => signsText rest
  | .constantPointer :: rest => ['c', 'o', 'n', 's', 't', ' '] ++ signsText rest

section Signs

variable {text : List Char} (signs : List Sign)

theorem signsText_cons (sign : Sign) (rest : List Sign) :
    signsText (sign :: rest) = sign.text.toList ++ signsText rest := List.flatMap_cons

theorem exists_signsText_cons (sign : Sign) (rest : List Sign) :
    ∃ c tail, c ∈ ['&', '*'] ∧ signsText (sign :: rest) = c :: tail := by
  cases sign <;> exact ⟨_, _, by decide, rfl⟩

theorem signsText_subset : signsText signs ⊆ signLetters := by
  intro c hc
  obtain ⟨sign, -, hs⟩ := List.mem_flatMap.mp hc
  have hsign : sign.text.toList ⊆ signLetters := by cases sign <;> decide
  exact hsign hs

theorem residue_subset : residue signs ⊆ signLetters := by
  induction signs with
  | nil => exact List.nil_subset _
  | cons sign rest ih =>
    cases sign with
    | reference => exact ih
    | mutableReference => exact signsText_subset rest
    | constantPointer => exact List.append_subset.mpr ⟨by decide, signsText_subset rest⟩
    | mutablePointer => exact signsText_subset rest

theorem not_prefix_signsText {c : Char} {word : List Char} (hc : c ∉ ['&', '*'])
    (h : signs = [] → ¬c :: word <+: text) : ¬c :: word <+: signsText signs ++ text := by
  cases signs with
  | nil => exact h rfl
  | cons sign rest =>
    obtain ⟨d, tail, hd, hs⟩ := exists_signsText_cons sign rest
    rw [hs]
    exact fun hp ↦ hc ((List.cons_prefix_cons.mp hp).1 ▸ hd)

theorem unsigned_signsText (h : IsBare text) :
    unsigned (signsText signs ++ text) = residue signs ++ text := by
  have hmut : ∀ rest : List Sign,
      unsigned (['m', 'u', 't', ' '] ++ (signsText rest ++ text)) = signsText rest ++ text := by
    intro rest
    have hm := not_prefix_signsText rest (by decide) fun _ ↦ h.no_mut
    have hd := not_prefix_signsText rest (by decide) fun _ ↦ h.no_dyn
    rw [unsigned, List.cons_append, List.dropWhile_cons_of_neg (by decide), ← List.cons_append,
      dropRepeated_append (List.cons_ne_nil _ _), dropRepeated_eq_self hm, dropRepeated_eq_self hd]
  induction signs with
  | nil => exact h.unsigned_eq
  | cons sign rest ih =>
    rw [signsText_cons, List.append_assoc]
    cases sign with
    | reference => exact ih
    | mutableReference => exact hmut rest
    | constantPointer =>
      have hbare : IsBare (['c', 'o', 'n', 's', 't', ' '] ++ (signsText rest ++ text)) :=
        ⟨by simp, by simp, by simp⟩
      exact hbare.unsigned_eq.trans (List.append_assoc _ _ _).symm
    | mutablePointer => exact hmut rest

theorem Sign.exists_stem {sign : Sign} (h : sign ≠ .reference) :
    ∃ stem, sign.text.toList = stem ++ ['t'] ++ [' '] ∧ ' ' ∉ stem := by
  cases sign with
  | reference => exact absurd rfl h
  | mutableReference => exact ⟨['&', 'm', 'u'], rfl, by decide⟩
  | constantPointer => exact ⟨['*', 'c', 'o', 'n', 's'], rfl, by decide⟩
  | mutablePointer => exact ⟨['*', 'm', 'u'], rfl, by decide⟩

theorem before_sign {sign : Sign} (h : sign = .reference ∨ ¬['a', 's', ' '] <+: text) :
    before castWord (sign.text.toList ++ text) = sign.text.toList ++ before castWord text := by
  by_cases hs : sign = .reference
  · rw [hs]
    exact before_cast_append (by decide) text
  · obtain ⟨stem, ht, hstem⟩ := sign.exists_stem hs
    have hspace : ¬castWord <+: ' ' :: text :=
      fun hp ↦ h.resolve_left hs (List.cons_prefix_cons.mp hp).2
    have hlast : ' ' ∉ stem ++ ['t'] := by simp [hstem]
    rw [ht, List.append_assoc, List.singleton_append, before_cast_append hlast,
      before_eq_cons hspace, List.append_cons]

/-- Signs hide no cast, unless the space after the last is taken for the one before an `as`. -/
theorem before_signsText
    (h : ∀ sign ∈ signs.getLast?, sign = .reference ∨ ¬['a', 's', ' '] <+: text) :
    before castWord (signsText signs ++ text) = signsText signs ++ before castWord text := by
  induction signs with
  | nil => rfl
  | cons sign rest ih =>
    have hnext : sign = .reference ∨ ¬['a', 's', ' '] <+: signsText rest ++ text := by
      cases rest with
      | nil => exact h sign rfl
      | cons next rest =>
        refine .inr (not_prefix_signsText _ (by decide) fun hn ↦ ?_)
        exact absurd hn (List.cons_ne_nil _ _)
    have hrest := ih fun last hl ↦ h last (List.mem_getLast?_cons hl)
    rw [signsText_cons, List.append_assoc, List.append_assoc, before_sign hnext, hrest]

theorem residue_eq_nil_iff : residue signs = [] ↔
    signs.dropWhile (· = .reference) ∈ [[], [.mutableReference], [.mutablePointer]] := by
  have hnil : ∀ rest : List Sign, signsText rest = [] ↔ rest = [] := by
    intro rest
    cases rest with
    | nil => simp [signsText]
    | cons sign rest =>
      obtain ⟨c, tail, -, hs⟩ := exists_signsText_cons sign rest
      simp [hs]
  induction signs with
  | nil => simp [residue]
  | cons sign rest ih => cases sign <;> simp [residue, hnil, ih]

theorem exists_sign_mem_residue (h : residue signs ≠ []) :
    ∃ c ∈ residue signs, c ∈ ['&', '*', ' '] := by
  have hcons : ∀ rest : List Sign, signsText rest ≠ [] →
      ∃ c ∈ signsText rest, c ∈ ['&', '*', ' '] := by
    intro rest hne
    cases rest with
    | nil => exact absurd rfl hne
    | cons sign rest =>
      obtain ⟨c, tail, hc, hs⟩ := exists_signsText_cons sign rest
      exact ⟨c, hs ▸ List.mem_cons_self, List.mem_append_left [' '] hc⟩
  induction signs with
  | nil => exact absurd rfl h
  | cons sign rest ih =>
    cases sign with
    | reference => exact ih h
    | mutableReference => exact hcons rest h
    | constantPointer => exact ⟨' ', List.mem_append_left _ (by decide), by decide⟩
    | mutablePointer => exact hcons rest h

end Signs

section SelfType

variable {signs : List Sign} {first : SourceName} {rest : List SourceName}

theorem not_prefix_joined {names : List SourceName} (h : joined names ≠ "as") (b : List Char) :
    ¬['a', 's', ' '] <+: (joined names).toList ++ castWord ++ b := by
  rintro ⟨tail, ht⟩
  have hsplit : ['a', 's'] ++ ' ' :: tail =
      (joined names).toList ++ ' ' :: (['a', 's', ' '] ++ b) := by
    simpa [castWord] using ht
  have has := (Text.append_cons_inj (by decide) (space_notMem_joined names) hsplit).1
  exact h (String.toList_inj.mp has.symm)

theorem selfType_signs (h : ∀ sign ∈ signs.getLast?, sign = .reference ∨
    joined (first :: rest) ≠ "as") (interface : List Char) :
    selfType (signsText signs ++ (joined (first :: rest)).toList ++ castWord ++ interface) =
      residue signs ++ (joined (first :: rest)).toList := by
  have hsuffix : ¬[' ', 'a', 's'] <:+ (joined (first :: rest)).toList := fun hs ↦
    space_notMem_joined _ (hs.subset List.mem_cons_self)
  have hlast : ∀ sign ∈ signs.getLast?, sign = .reference ∨
      ¬['a', 's', ' '] <+: (joined (first :: rest)).toList ++ castWord ++ interface :=
    fun sign hs ↦ (h sign hs).imp_right fun hne ↦ not_prefix_joined hne interface
  rw [selfType_eq, List.append_assoc, List.append_assoc, ← List.append_assoc _ castWord,
    before_signsText signs hlast, before_append_cast hsuffix, before_cast_joined]
  exact unsigned_signsText signs (isBare_printNames _ _)

/-- The space after the last sign is taken for the one before a type with the name `as`. -/
theorem exists_selfType_eq_concat (front : List Sign) {sign : Sign} (hs : sign ≠ .reference)
    (interface : List Char) :
    ∃ text, selfType (signsText (front ++ [sign]) ++ ['a', 's'] ++ castWord ++ interface) =
      text ++ ['t'] ∧ text ⊆ signLetters := by
  obtain ⟨stem, ht, hstem⟩ := sign.exists_stem hs
  have hsigns : signsText (front ++ [sign]) = signsText front ++ signsText [sign] :=
    List.flatMap_append
  have hsign : signsText [sign] = stem ++ ['t'] ++ [' '] :=
    (List.flatMap_singleton _ _).trans ht
  have hspace : ' ' ∉ stem ++ ['t'] := by simp [hstem]
  have hsuffix : ¬[' ', 'a', 's'] <:+ stem ++ ['t'] := fun h ↦
    hspace (h.subset List.mem_cons_self)
  have hself : selfType (signsText (front ++ [sign]) ++ ['a', 's'] ++ castWord ++ interface) =
      unsigned (signsText front ++ stem) ++ ['t'] := by
    have hwhole : signsText (front ++ [sign]) ++ ['a', 's'] ++ castWord ++ interface =
        signsText front ++ (signsText [sign] ++ (['a', 's'] ++ castWord ++ interface)) := by
      simp [hsigns]
    have hlast : signsText [sign] ++ (['a', 's'] ++ castWord ++ interface) =
        stem ++ ['t'] ++ castWord ++ (['a', 's', ' '] ++ interface) := by
      simp [hsign, castWord]
    have hnot : ¬['a', 's', ' '] <+: stem ++ ['t'] ++ castWord ++ (['a', 's', ' '] ++ interface) :=
      hlast ▸ not_prefix_signsText [sign] (by decide) fun hn ↦ absurd hn (List.cons_ne_nil _ _)
    rw [selfType_eq, hwhole, hlast, before_signsText front fun _ _ ↦ .inr hnot,
      before_append_cast hsuffix, before_cast_of_notMem hspace, ← List.append_assoc,
      unsigned_concat (by decide)]
  refine ⟨_, hself, fun c hc ↦ ?_⟩
  rcases List.mem_append.mp ((unsigned_suffix _).subset hc) with h | h
  · exact signsText_subset _ h
  · exact signsText_subset [sign] (by simp [hsign, h])

theorem segments_append_joined {word : List Char}
    (hw : ∀ c ∈ [':', '<', '>', '{', '}'], c ∉ word) :
    segments (word ++ (joined (first :: rest)).toList) =
      (word ++ first.text.toList) :: rest.map (·.text.toList) := by
  have hplain : IsPlainName (String.ofList (word ++ first.text.toList)) := by
    refine ⟨?_, fun c hc ↦ ?_⟩
    · simp [first.isPlain.1]
    · simp [hw c hc, first.isPlain.2 c hc]
  let printed : PrintedName := ⟨_, .inl hplain, .omitted⟩
  let others := (rest.map fun name ↦ (⟨name, none⟩ : TypeName)).map (·.printed)
  have htext : word ++ (joined (first :: rest)).toList =
      (printPath (printed :: others)).toList := by
    have hprinted : printed.text = String.ofList (word ++ first.text.toList) := rfl
    have hfirst : (⟨first, none⟩ : TypeName).printed.text = first.text := rfl
    cases rest <;> simp [joined, printNames, printPath, others, hprinted, hfirst]
  rw [htext, segments_printPath, List.map_cons, List.map_map, List.map_map, String.toList_ofList]
  rfl

end SelfType

end Symbol

open Native.Symbol

def signedMethodSymbol (signs : List Sign) (self interface : List SourceName)
    (method : SourceName) : String :=
  "<" ++ String.join (signs.map (·.text)) ++ joined self ++ " as " ++ joined interface ++ ">::" ++
    method.text

/-- The signs leave nothing before a type: after references, at most one sign of mutation. -/
def ArePeeled (signs : List Sign) (self : String) : Prop :=
  let late := signs.dropWhile (· = .reference)
  late = [] ∨ (late = [.mutableReference] ∨ late = [.mutablePointer]) ∧ self ≠ "as"

theorem arePeeled_iff {signs : List Sign} {self : String}
    (h : ∀ sign ∈ signs.getLast?, sign = .reference ∨ self ≠ "as") :
    ArePeeled signs self ↔ residue signs = [] := by
  have hself : ∀ sign ≠ Sign.reference, signs.dropWhile (· = .reference) = [sign] →
      self ≠ "as" := by
    intro sign hs hlate
    have hsuffix : [sign] <:+ signs := hlate ▸ List.dropWhile_suffix _
    obtain ⟨front, rfl⟩ := hsuffix
    exact (h sign List.getLast?_concat).resolve_left hs
  have hmut := hself .mutableReference nofun
  have hpointer := hself .mutablePointer nofun
  rw [residue_eq_nil_iff, ArePeeled, List.mem_cons, List.mem_pair]
  exact or_congr_right (and_iff_left_of_imp fun hl ↦ hl.elim hmut hpointer)

theorem path_signedMethodSymbol (signs : List Sign) (self interface : List SourceName)
    (method : SourceName) :
    path (signedMethodSymbol signs self interface method) =
      (segments (selfType (signsText signs ++ (joined self).toList ++ castWord ++
        (joined interface).toList))).map String.ofList ++ [method.text] := by
  have hsigns : IsEnclosable (signsText signs) := IsEnclosable.of_notMem fun c hc hm ↦
    notMem_signLetters c (List.mem_cons_of_mem _ hc) (signsText_subset signs hm)
  have hsymbol : (signedMethodSymbol signs self interface method).toList =
      '<' :: (signsText signs ++ (joined self).toList ++ castWord ++ (joined interface).toList ++
        ['>']) ++ ':' :: ':' :: (joined [method]).toList := by
    simp [signedMethodSymbol, castWord, joined_singleton, signsText, List.flatMap_map]
  rw [path, hsymbol, segments_enclosed_joined [method]
    ((hsigns.append (isEnclosable_joined self)).cast (isEnclosable_joined interface))]
  simp

theorem residue_append_notMem {signs : List Sign} (h : residue signs ≠ []) (first : SourceName) :
    String.ofList (residue signs ++ first.text.toList) ∉
      first.text :: (runtimePackages ++ capturePackages) := by
  obtain ⟨c, hc, hsign⟩ := exists_sign_mem_residue signs h
  have hfirst : c ∉ first.text.toList := by
    intro hf
    obtain ⟨hplain, hspace⟩ := first.no_sign c hf
    simp only [List.mem_cons, List.not_mem_nil, or_false, not_or] at hsign hplain
    rcases hsign with rfl | rfl | rfl
    · exact hplain.1 rfl
    · exact hplain.2.1 rfl
    · exact absurd hspace (by decide)
  have hpackages : ∀ c ∈ ['&', '*', ' '], ∀ name ∈ runtimePackages ++ capturePackages,
      c ∉ name.toList := by simp [runtimePackages, capturePackages]
  have hclean : ∀ name ∈ first.text :: (runtimePackages ++ capturePackages), c ∉ name.toList :=
    List.forall_mem_cons.mpr ⟨hfirst, hpackages c hsign⟩
  intro hm
  exact hclean _ hm (by simp [hc])

section NamedAs

variable {front : List Sign} {sign : Sign} (hs : sign ≠ .reference)

include hs

theorem not_arePeeled_as : ¬ArePeeled (front ++ [sign]) "as" := by
  rintro (hlate | ⟨-, hne⟩)
  · have hreference := List.dropWhile_eq_nil_iff.mp hlate sign List.mem_concat_self
    exact hs (of_decide_eq_true hreference)
  · exact hne rfl

theorem exists_path_of_as {self : List SourceName} (h : joined self = "as")
    (interface : List SourceName) (method : SourceName) :
    ∃ text, path (signedMethodSymbol (front ++ [sign]) self interface method) =
      [String.ofList (text ++ ['t']), method.text] := by
  have hself : (joined self).toList = ['a', 's'] := by rw [h]; rfl
  obtain ⟨text, htype, hsubset⟩ := exists_selfType_eq_concat front hs (joined interface).toList
  have hsegments : segments (text ++ ['t']) = [text ++ ['t']] := by
    refine segments_of_notMem ?_ ?_ (List.concat_ne_nil _ _)
    · simpa using mt (@hsubset ':') (by decide)
    · simpa using mt (@hsubset '<') (by decide)
  rw [path_signedMethodSymbol, hself, htype, hsegments]
  exact ⟨text, rfl⟩

end NamedAs

theorem exists_path_eq_cons (signs : List Sign) (first : SourceName)
    (rest interface : List SourceName) (method : SourceName) :
    let peeled := ArePeeled signs (joined (first :: rest))
    ∃ head, path (signedMethodSymbol signs (first :: rest) interface method) =
        head :: (rest.map (·.text) ++ [method.text]) ∧
      (peeled → head = first.text) ∧
      (¬peeled → head ∉ first.text :: (runtimePackages ++ capturePackages)) := by
  intro peeled
  by_cases hlast : ∀ sign ∈ signs.getLast?, sign = .reference ∨ joined (first :: rest) ≠ "as"
  · have hpeeled : peeled ↔ residue signs = [] := arePeeled_iff hlast
    have hsegments : segments (residue signs ++ (joined (first :: rest)).toList) = _ :=
      segments_append_joined fun c hc hm ↦
        notMem_signLetters c (List.mem_append_left ['-'] hc) (residue_subset signs hm)
    rw [path_signedMethodSymbol, selfType_signs hlast, hsegments]
    refine ⟨String.ofList (residue signs ++ first.text.toList), by simp, fun hp ↦ ?_, fun hp ↦ ?_⟩
    · rw [hpeeled.mp hp, List.nil_append, String.ofList_toList]
    · exact residue_append_notMem (mt hpeeled.mpr hp) first
  · push Not at hlast
    obtain ⟨sign, hl, hs, has⟩ := hlast
    obtain ⟨front, rfl⟩ := List.getLast?_eq_some_iff.mp hl
    have hnames := segments_joined (first :: rest)
    rw [has, segments_of_notMem (by decide) (by decide) (by decide)] at hnames
    obtain rfl := List.map_eq_nil_iff.mp (List.cons.inj hnames).2.symm
    obtain ⟨text, hpath⟩ := exists_path_of_as hs has interface method
    have hpeeled : ¬ArePeeled (front ++ [sign]) (joined [first]) := has ▸ not_arePeeled_as hs
    refine ⟨_, hpath, fun hp ↦ absurd hp hpeeled, fun _ hm ↦ ?_⟩
    have hends : ∀ name ∈ "as" :: (runtimePackages ++ capturePackages),
        name.toList.getLast? ≠ some 't' := by decide
    rw [(joined_singleton first).symm.trans has] at hm
    exact hends _ hm (by simp)

/-- The crate of a method of a type with signs before it is that of the type exactly if the signs
are peeled off. A sign that is left shows the methods of the runtime's types. -/
theorem reference_signs_peeled_iff [CharClasses] (signs : List Sign) (first : SourceName)
    (rest interface : List SourceName) (method : SourceName) (position : Option HostPosition) :
    let self := first :: rest
    let symbol := signedMethodSymbol signs self interface method
    let routine := routineOfSymbol symbol none "<Main>"
    let peeled := ArePeeled signs (joined self)
    (path symbol = self.map (·.text) ++ [method.text] ↔ peeled) ∧
    (routine.declaringType.map (·.module.name) = some first.text ↔ peeled) ∧
    (CharClasses.ExactOnAscii → first.text ∈ ["std", "core", "alloc"] →
      (FrameFilter.visibility {} ⟨some routine, position⟩ = .visible ↔
        isIdentifier method.text = true ∧ ¬peeled)) := by
  intro self symbol routine peeled
  obtain ⟨head, hpath, hpeeled, hleft⟩ := exists_path_eq_cons signs first rest interface method
  have hhead : head = first.text ↔ peeled :=
    ⟨fun he ↦ by_contra fun hp ↦ hleft hp (he ▸ List.mem_cons_self), hpeeled⟩
  obtain ⟨outer, scope, hscope⟩ : ∃ outer scope, head :: rest.map (·.text) = outer ++ [scope] :=
    (List.eq_nil_or_concat' _).resolve_left (List.cons_ne_nil _ _)
  have hpackage : outer.head?.getD scope = head := by
    have h := congrArg List.head? hscope
    cases outer <;> simpa using h.symm
  have hconcat : path symbol = outer ++ [scope, method.text] := by
    rw [hpath, ← List.cons_append, hscope, List.append_assoc]
    rfl
  have hverdict (he : CharClasses.ExactOnAscii) :
      FrameFilter.visibility {} ⟨some routine, position⟩ =
        if !isIdentifier method.text then .synthesizedName
        else if head ∈ runtimePackages then .trustedInternal
        else if head ∈ capturePackages then .hidden else .visible := by
    rw [visibility_routineOfSymbol he, verdictOnPath, hpath, ← List.cons_append,
      List.getLast?_concat]
    simp [runtimePackages, capturePackages]
  refine ⟨?_, ?_, fun he hruntime ↦ ?_⟩
  · rw [hpath, ← hhead]
    simp [self]
  · rw [← hhead, ← hpackage]
    simp [routine, routineOfSymbol_of_concat hconcat, typeOf, moduleOf]
  · rw [hverdict he]
    by_cases hp : peeled
    · have hmem : head ∈ runtimePackages := (hpeeled hp).symm ▸ hruntime
      cases hi : isIdentifier method.text <;> simp [hp, hmem]
    · have hmem := hleft hp
      simp only [List.mem_cons, List.mem_append, not_or] at hmem
      simp [hp, hmem.2.1, hmem.2.2]

open CharClasses.Ascii

theorem reference_signs_peeled_iff_of_cell :
    let symbol := "<&&mut core::cell::Cell as core::fmt::Debug>::fmt"
    let routine := routineOfSymbol symbol none "<Main>"
    path symbol = ["core", "cell", "Cell", "fmt"] ∧
      routine.declaringType.map (·.module.name) = some "core" ∧ CharClasses.ExactOnAscii ∧
      "core" ∈ ["std", "core", "alloc"] ∧
      FrameFilter.visibility {} ⟨some routine, none⟩ ≠ .visible := by
  intro symbol routine
  let signs : List Sign := [.reference, .mutableReference]
  let core : SourceName := { text := "core" }
  let rest : List SourceName := [{ text := "cell" }, { text := "Cell" }]
  let interface : List SourceName :=
    [core, { text := "fmt" }, { text := "Debug" }]
  have hpeeled : ArePeeled signs (joined (core :: rest)) :=
    .inr ⟨.inl (by decide), by decide⟩
  have hruntime : core.text ∈ ["std", "core", "alloc"] := by decide
  obtain ⟨hpath, hpackage, hverdict⟩ := reference_signs_peeled_iff signs core rest interface
    { text := "fmt" } none
  exact ⟨hpath.mpr hpeeled, hpackage.mpr hpeeled, exactOnAscii, hruntime,
    fun hv ↦ ((hverdict exactOnAscii hruntime).mp hv).2 hpeeled⟩

/-- A method of a constant pointer to a type of the runtime is shown, in a package of no name. -/
theorem method_of_constant_pointer_shows :
    let symbol := "<*const core::cell::Cell as core::fmt::Debug>::fmt"
    let routine := routineOfSymbol symbol none "<Main>"
    (∃ (self interface : List SourceName) (method : SourceName), self ≠ [] ∧ interface ≠ [] ∧
      signedMethodSymbol [.constantPointer] self interface method = symbol ∧
      self.map (·.text) ++ [method.text] = ["core", "cell", "Cell", "fmt"]) ∧
    path symbol = ["const core", "cell", "Cell", "fmt"] ∧
    routine.declaringType.map (·.module.name) = some "const core" ∧
    FrameFilter.visibility {} ⟨some routine, none⟩ = .visible := by
  intro symbol routine
  let core : SourceName := { text := "core" }
  let fmt : SourceName := { text := "fmt" }
  let self : List SourceName :=
    [core, { text := "cell" }, { text := "Cell" }]
  have hpath : path symbol = ["const core", "cell"] ++ ["Cell", "fmt"] := by decide +kernel
  refine ⟨⟨self, [core, fmt, { text := "Debug" }], fmt, List.cons_ne_nil _ _,
    List.cons_ne_nil _ _, rfl, rfl⟩, hpath, ?_, ?_⟩
  · rw [show routine = _ from routineOfSymbol_of_concat hpath]
    rfl
  · rw [visibility_routineOfSymbol exactOnAscii, hpath]
    decide +kernel

end ScriptTrace.Native
