import ScriptTrace.Proofs.PrintedPath

namespace ScriptTrace.Native.Symbol

/-- A text that can stand between angle brackets: it closes what it opens, and its end makes no
arrow of the bracket after it. -/
structure IsEnclosable (text : List Char) : Prop where
  angles : IsBalanced angleWeight text
  braces : IsBalanced braceWeight text
  no_arrow : text.getLast? ≠ some '-'

namespace IsEnclosable

variable {a b : List Char}

theorem isPiece (h : IsEnclosable a) : IsPiece ('<' :: (a ++ ['>'])) :=
  isPiece_angles h.angles h.braces h.no_arrow

theorem of_notMem (h : ∀ c ∈ ['<', '>', '{', '}', '-'], c ∉ a) : IsEnclosable a where
  angles := by
    refine isBalanced_of_weight_eq_zero fun previous c hc ↦ ?_
    have hopen : c ≠ '<' := ne_of_mem_of_not_mem hc (h '<' (by decide))
    have hclose : c ≠ '>' := ne_of_mem_of_not_mem hc (h '>' (by decide))
    simp [angleWeight, hopen, hclose]
  braces := by
    refine isBalanced_of_weight_eq_zero fun previous c hc ↦ ?_
    have hopen : c ≠ '{' := ne_of_mem_of_not_mem hc (h '{' (by decide))
    have hclose : c ≠ '}' := ne_of_mem_of_not_mem hc (h '}' (by decide))
    simp [braceWeight, hopen, hclose]
  no_arrow hl := h '-' (by decide) (List.mem_of_getLast? hl)

theorem append (ha : IsEnclosable a) (hb : IsEnclosable b) : IsEnclosable (a ++ b) where
  angles := ha.angles.append hb.angles fun c _ ↦ congrFun (angleWeight_eq ha.no_arrow) c
  braces := ha.braces.append hb.braces fun _ _ ↦ rfl
  no_arrow := by
    rw [List.getLast?_append]
    cases hl : b.getLast? with
    | none => exact ha.no_arrow
    | some c =>
      have hb := hb.no_arrow
      rwa [hl] at hb

theorem enclose (h : IsEnclosable a) : IsEnclosable ('<' :: (a ++ ['>'])) where
  angles := isBalanced_angles h.angles h.no_arrow
  braces := by
    have hopen : IsBalanced braceWeight ['<'] := by decide
    have hclose : IsBalanced braceWeight ['>'] := by decide
    exact hopen.append (h.braces.append hclose fun _ _ ↦ rfl) fun _ _ ↦ rfl
  no_arrow := by
    rw [← List.cons_append, List.getLast?_concat]
    decide

theorem intercalate {separator : List Char} (hs : IsEnclosable separator)
    {texts : List (List Char)} (h : ∀ text ∈ texts, IsEnclosable text) :
    IsEnclosable (separator.intercalate texts) := by
  induction texts with
  | nil => exact of_notMem fun _ _ ↦ List.not_mem_nil
  | cons text rest ih =>
    have htext := h text List.mem_cons_self
    have hrest := ih fun t ht ↦ h t (List.mem_cons_of_mem _ ht)
    cases rest with
    | nil => rwa [List.intercalate_singleton]
    | cons next rest =>
      rw [List.intercalate_cons_cons]
      exact (htext.append hs).append hrest

end IsEnclosable

def IsUnsigned (text : String) : Prop :=
  ∀ c ∈ text.toList, c ∉ ['&', '*', '-'] ∧ c.isWhitespace = false

instance (text : String) : Decidable (IsUnsigned text) :=
  decidable_of_iff
    (text.toList.all (fun c ↦ decide (c ∉ ['&', '*', '-']) && !c.isWhitespace) = true)
    (by simp only [IsUnsigned, List.all_eq_true, Bool.and_eq_true, Bool.not_eq_true',
      decide_eq_true_eq])

structure SourceName where
  text : String
  isPlain : IsPlainName text := by decide
  no_sign : IsUnsigned text := by decide

namespace SourceName

variable (name : SourceName)

theorem isEnclosable : IsEnclosable name.text.toList := by
  refine IsEnclosable.of_notMem fun c hc ht ↦ ?_
  simp only [List.mem_cons, List.not_mem_nil, or_false] at hc
  rcases hc with rfl | rfl | rfl | rfl | rfl
  · exact name.isPlain.2 _ (by decide) ht
  · exact name.isPlain.2 _ (by decide) ht
  · exact name.isPlain.2 _ (by decide) ht
  · exact name.isPlain.2 _ (by decide) ht
  · exact (name.no_sign _ ht).1 (by decide)

theorem space_notMem : ' ' ∉ name.text.toList := fun h ↦
  absurd (name.no_sign ' ' h).2 (by decide)

end SourceName

structure TypeName where
  name : SourceName
  arguments : Option Arguments := none

def TypeName.printed (name : TypeName) : PrintedName where
  name := name.name.text
  isName := .inl name.name.isPlain
  generics := name.arguments.elim .omitted .attached

def TypeName.bracketed (name : TypeName) : List Char := name.arguments.elim [] Arguments.piece

theorem TypeName.toList_text (name : TypeName) :
    name.printed.text.toList = name.name.text.toList ++ name.bracketed := by
  cases ha : name.arguments <;>
    simp [printed, PrintedName.text, bracketed, Arguments.piece, ha]

def printNames (names : List TypeName) : String := printPath (names.map (·.printed))

theorem toList_printNames_singleton (name : TypeName) :
    (printNames [name]).toList = name.name.text.toList ++ name.bracketed :=
  name.toList_text

theorem toList_printNames_cons_cons (name next : TypeName) (rest : List TypeName) :
    (printNames (name :: next :: rest)).toList = name.name.text.toList ++ name.bracketed ++
      ':' :: ':' :: (printNames (next :: rest)).toList := by
  rw [← name.toList_text]
  simp [printNames, printPath, String.toList_intercalate]

def joined (names : List SourceName) : String := printNames (names.map fun name ↦ ⟨name, none⟩)

/-- A type as a symbol shows it: names with generic arguments, after a type that qualifies them and
the interface under which it does. -/
inductive TypePath
  | plain (first : TypeName) (rest : List TypeName)
  | qualified (self interface : TypePath) (first : TypeName) (rest : List TypeName)

def TypePath.text : TypePath → String
  | plain first rest => printNames (first :: rest)
  | qualified self interface first rest =>
    "<" ++ self.text ++ " as " ++ interface.text ++ ">::" ++ printNames (first :: rest)

theorem Arguments.isEnclosable (arguments : Arguments) : IsEnclosable arguments.text.toList :=
  ⟨arguments.angles, arguments.braces, arguments.no_arrow⟩

theorem TypeName.isEnclosable (name : TypeName) : IsEnclosable name.printed.text.toList := by
  rw [name.toList_text, bracketed]
  refine name.name.isEnclosable.append ?_
  cases name.arguments with
  | none => exact IsEnclosable.of_notMem fun _ _ ↦ List.not_mem_nil
  | some arguments => exact arguments.isEnclosable.enclose

theorem isEnclosable_printNames (names : List TypeName) :
    IsEnclosable (printNames names).toList := by
  have hseparator : IsEnclosable [':', ':'] := IsEnclosable.of_notMem (by simp)
  rw [printNames, printPath, String.toList_intercalate, List.map_map, List.map_map]
  refine hseparator.intercalate fun text ht ↦ ?_
  obtain ⟨name, -, rfl⟩ := List.mem_map.mp ht
  exact name.isEnclosable

theorem isEnclosable_joined (names : List SourceName) : IsEnclosable (joined names).toList :=
  isEnclosable_printNames _

def castWord : List Char := [' ', 'a', 's', ' ']

theorem castWord_ne_nil : castWord ≠ [] := List.cons_ne_nil _ _

theorem IsEnclosable.cast {self interface : List Char} (hs : IsEnclosable self)
    (hi : IsEnclosable interface) : IsEnclosable (self ++ castWord ++ interface) :=
  (hs.append (of_notMem (by simp [castWord]))).append hi

theorem TypePath.isEnclosable (type : TypePath) : IsEnclosable type.text.toList := by
  induction type with
  | plain first rest => exact isEnclosable_printNames (first :: rest)
  | qualified self interface first rest hself hinterface =>
    have hcolons : IsEnclosable [':', ':'] := IsEnclosable.of_notMem (by simp)
    have h := ((hself.cast hinterface).enclose.append hcolons).append
      (isEnclosable_printNames (first :: rest))
    simpa [text, castWord] using h

def Arguments.ofTypes (spaced : Bool) (types : List TypePath) : Arguments :=
  have h : IsEnclosable
      (String.intercalate (if spaced then ", " else ",") (types.map (·.text))).toList := by
    have hseparator : IsEnclosable (if spaced then ", " else ",").toList := by
      cases spaced <;> exact IsEnclosable.of_notMem (by simp)
    rw [String.toList_intercalate, List.map_map]
    refine hseparator.intercalate fun text ht ↦ ?_
    obtain ⟨type, -, rfl⟩ := List.mem_map.mp ht
    exact type.isEnclosable
  ⟨_, h.angles, h.braces, h.no_arrow⟩

end ScriptTrace.Native.Symbol
