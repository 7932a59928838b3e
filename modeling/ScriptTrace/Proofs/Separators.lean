import ScriptTrace.Identifier
import ScriptTrace.Text.Decimal
import Mathlib.Data.List.Basic
import Mathlib.Data.List.TakeWhile

namespace ScriptTrace

open CharClasses

def IsIdentifier [CharClasses] (name : String) : Prop :=
  ∃ first rest, name.toList = first :: rest ∧ (first = '_' ∨ isIdentifierStart first = true) ∧
    ∀ c ∈ rest, isIdentifierContinue c = true

theorem isIdentifier_iff [CharClasses] (name : String) :
    isIdentifier name = true ↔ IsIdentifier name := by
  rw [isIdentifier, IsIdentifier]
  cases name.toList with
  | nil => simp
  | cons first rest => simp [and_assoc]

namespace Text

section Splitting

variable {α : Type} {c : α} {a a' b b' : List α}

theorem append_cons_inj (h : c ∉ a) (h' : c ∉ a') (he : a ++ c :: b = a' ++ c :: b') :
    a = a' ∧ b = b' := by
  induction a generalizing a' with
  | nil =>
    cases a' with
    | nil => exact ⟨rfl, (List.cons.inj he).2⟩
    | cons x a' => exact absurd ((List.cons.inj he).1 ▸ List.mem_cons_self) h'
  | cons x a ih =>
    cases a' with
    | nil => exact absurd ((List.cons.inj he).1 ▸ List.mem_cons_self) h
    | cons y a' =>
      obtain ⟨rfl, ht⟩ := List.cons.inj he
      obtain ⟨rfl, hb⟩ := ih (List.not_mem_of_not_mem_cons h) (List.not_mem_of_not_mem_cons h') ht
      exact ⟨rfl, hb⟩

theorem append_cons_inj_right (h : c ∉ b) (h' : c ∉ b') (he : a ++ c :: b = a' ++ c :: b') :
    a = a' ∧ b = b' := by
  have hr : b.reverse ++ c :: a.reverse = b'.reverse ++ c :: a'.reverse := by
    simpa using congrArg List.reverse he
  obtain ⟨hb, ha⟩ := append_cons_inj (by simpa using h) (by simpa using h') hr
  exact ⟨List.reverse_injective ha, List.reverse_injective hb⟩

theorem flatMap_terminated_inj {texts texts' : List (List α)} (h : ∀ t ∈ texts, c ∉ t)
    (h' : ∀ t ∈ texts', c ∉ t) (he : texts.flatMap (· ++ [c]) = texts'.flatMap (· ++ [c])) :
    texts = texts' := by
  induction texts generalizing texts' with
  | nil =>
    cases texts' with
    | nil => rfl
    | cons t rest => simp at he
  | cons t rest ih =>
    cases texts' with
    | nil => simp at he
    | cons t' rest' =>
      simp only [List.flatMap_cons, List.append_assoc, List.singleton_append] at he
      obtain ⟨rfl, hrest⟩ := append_cons_inj (h t List.mem_cons_self) (h' t' List.mem_cons_self) he
      rw [ih (fun s hs ↦ h s (List.mem_cons_of_mem _ hs))
        (fun s hs ↦ h' s (List.mem_cons_of_mem _ hs)) hrest]

/-- Texts that are not empty are known by their join when the separator starts with a character of
its own. -/
theorem intercalate_inj {sep : List α} {texts texts' : List (List α)}
    (h : ∀ t ∈ texts, t ≠ [] ∧ c ∉ t) (h' : ∀ t ∈ texts', t ≠ [] ∧ c ∉ t)
    (he : (c :: sep).intercalate texts = (c :: sep).intercalate texts') : texts = texts' := by
  induction texts generalizing texts' with
  | nil =>
    rcases texts' with _ | ⟨t', _ | ⟨u', rest'⟩⟩
    · rfl
    · exact absurd (by simpa using he.symm) (h' t' List.mem_cons_self).1
    · simp [List.intercalate_cons_cons] at he
  | cons t rest ih =>
    have ht := h t List.mem_cons_self
    rcases rest with _ | ⟨u, rest⟩ <;> rcases texts' with _ | ⟨t', _ | ⟨u', rest'⟩⟩
    · exact absurd (by simpa using he) ht.1
    · simpa using he
    · refine absurd ?_ ht.2
      simp only [List.intercalate_singleton, List.intercalate_cons_cons] at he
      simp [he]
    · simp [List.intercalate_cons_cons] at he
    · refine absurd ?_ (h' t' List.mem_cons_self).2
      simp only [List.intercalate_singleton, List.intercalate_cons_cons] at he
      simp [← he]
    · simp only [List.intercalate_cons_cons, List.append_assoc, List.cons_append] at he
      obtain ⟨rfl, hs⟩ := append_cons_inj ht.2 (h' t' List.mem_cons_self).2 he
      rw [ih (fun s hs ↦ h s (List.mem_cons_of_mem _ hs))
        (fun s hs ↦ h' s (List.mem_cons_of_mem _ hs)) (List.append_cancel_left hs)]

theorem notMem_intercalate {sep : List α} {texts : List (List α)} (hs : c ∉ sep)
    (h : ∀ t ∈ texts, c ∉ t) : c ∉ sep.intercalate texts := by
  induction texts with
  | nil => simp
  | cons t rest ih =>
    have ht := h t List.mem_cons_self
    cases rest with
    | nil => simpa using ht
    | cons u rest =>
      have hrest := ih fun s hs ↦ h s (List.mem_cons_of_mem _ hs)
      simp only [List.intercalate_cons_cons, List.mem_append, not_or]
      exact ⟨⟨ht, hs⟩, hrest⟩

theorem intercalate_append {sep : List α} {texts texts' : List (List α)} (h : texts ≠ [])
    (h' : texts' ≠ []) :
    sep.intercalate (texts ++ texts') = sep.intercalate texts ++ sep ++ sep.intercalate texts' := by
  induction texts with
  | nil => exact absurd rfl h
  | cons t rest ih =>
    cases rest with
    | nil =>
      rw [List.singleton_append, List.intercalate_cons_of_ne_nil h', List.intercalate_singleton]
    | cons u rest =>
      have hrest := ih (List.cons_ne_nil _ _)
      rw [List.cons_append, List.cons_append, List.intercalate_cons_cons, ← List.cons_append, hrest,
        List.intercalate_cons_cons]
      simp only [List.append_assoc]

theorem intercalate_map_intercalate {β : Type} {sep : List α} {parts : β → List (List α)}
    (h : ∀ b, parts b ≠ []) (bs : List β) :
    sep.intercalate (bs.map fun b ↦ sep.intercalate (parts b)) =
      sep.intercalate (bs.flatMap parts) := by
  induction bs with
  | nil => rfl
  | cons b rest ih =>
    cases rest with
    | nil => simp
    | cons b' rest =>
      have hrest : (b' :: rest).flatMap parts ≠ [] := by simp [h b']
      rw [List.flatMap_cons, intercalate_append (h b) hrest, ← ih, List.map_cons,
        List.intercalate_cons_of_ne_nil (by simp)]

theorem notMem_takeWhile_ne [DecidableEq α] (c : α) (a : List α) : c ∉ a.takeWhile (· ≠ c) := by
  intro hm
  have hc := List.mem_takeWhile_imp hm
  simp at hc

theorem takeWhile_ne_append_cons [DecidableEq α] (h : c ∉ a) :
    (a ++ c :: b).takeWhile (· ≠ c) = a := by
  rw [List.takeWhile_append_of_pos fun x hx ↦ decide_eq_true (ne_of_mem_of_not_mem hx h),
    List.takeWhile_cons_of_neg (by simp), List.append_nil]

theorem cons_infix_append_iff (h : c ∉ a) : c :: b <:+: a ++ b' ↔ c :: b <:+: b' := by
  induction a with
  | nil => rfl
  | cons x a ih =>
    rw [List.mem_cons, not_or] at h
    have hx : ¬c :: b <+: x :: (a ++ b') := fun hp ↦ h.1 (List.cons_prefix_cons.mp hp).1
    rw [List.cons_append, List.infix_cons_iff, or_iff_right hx, ih h.2]

theorem enclosed_infix_iff (h : c ∉ a) (h' : c ∉ a') :
    c :: (a ++ [c]) <:+: c :: (a' ++ c :: b) ↔ a = a' ∨ c :: (a ++ [c]) <:+: c :: b := by
  rw [List.infix_cons_iff, cons_infix_append_iff h', List.cons_prefix_cons]
  refine or_congr_left ⟨fun ⟨_, tail, ht⟩ ↦ ?_, fun he ↦ ⟨rfl, b, by simp [he]⟩⟩
  rw [List.append_assoc, List.singleton_append] at ht
  exact (append_cons_inj h h' ht).1

/-- A split gives the parts that the separator encloses when it also stands at both ends. -/
theorem mem_splitOn_iff [DecidableEq α] (text : List α) :
    a ∈ text.splitOn c ↔ c ∉ a ∧ c :: (a ++ [c]) <:+: c :: (text ++ [c]) := by
  by_cases h : c ∈ text
  · obtain ⟨front, rest, rfl, hf⟩ := List.eq_append_cons_of_mem h
    rw [List.splitOn_append_cons_self_of_not_mem hf, List.mem_cons, mem_splitOn_iff rest,
      List.append_assoc, List.cons_append]
    constructor
    · rintro (rfl | ⟨ha, hi⟩)
      · exact ⟨hf, (enclosed_infix_iff hf hf).mpr (.inl rfl)⟩
      · exact ⟨ha, (enclosed_infix_iff ha hf).mpr (.inr hi)⟩
    · rintro ⟨ha, hi⟩
      exact ((enclosed_infix_iff ha hf).mp hi).imp_right fun hr ↦ ⟨ha, hr⟩
  · have hlast : ¬c :: (a ++ [c]) <:+: [c] := fun hi ↦ by simpa using hi.length_le
    rw [List.splitOn_eq_singleton h, List.mem_singleton]
    constructor
    · rintro rfl
      exact ⟨h, List.infix_refl _⟩
    · rintro ⟨ha, hi⟩
      exact ((enclosed_infix_iff ha h).mp hi).resolve_right hlast
termination_by text.length

end Splitting

theorem toList_decimal (n : Nat) : (decimal n).toList = Nat.toDigits 10 n := by simp [decimal]

theorem decimal_injective : Function.Injective decimal := by
  intro m n h
  have hd : Nat.toDigits 10 m = Nat.toDigits 10 n := by
    simpa only [toList_decimal] using congrArg String.toList h
  simpa using congrArg (Nat.ofDigitChars 10 · 0) hd

theorem notMem_decimal {c : Char} (h : c.isDigit = false) (n : Nat) : c ∉ (decimal n).toList := by
  intro hm
  rw [toList_decimal] at hm
  have hd := Nat.isDigit_of_mem_toDigits (by decide) (by decide) hm
  exact absurd hd (by simp [h])

def punctuation : List Char := ['\n', ' ', ':', '(', ')', ',', '$', '-', '>', '\x7b', '\x7d']

/-- No name goes on with a character that a row has besides, and none starts with a character that
it could not go on with. -/
structure SparesPunctuation [CharClasses] : Prop where
  start_continues : ∀ c, isIdentifierStart c = true → isIdentifierContinue c = true
  punctuation_stops : ∀ c ∈ punctuation, isIdentifierContinue c = false

section Identifiers

variable [CharClasses] {name : String} {c : Char}

theorem notMem_of_isIdentifier (h : isIdentifier name = true) (hu : c ≠ '_')
    (hs : isIdentifierStart c = false) (hr : isIdentifierContinue c = false) :
    c ∉ name.toList := by
  obtain ⟨first, rest, hn, hf, hrest⟩ := (isIdentifier_iff name).mp h
  intro hm
  rw [hn] at hm
  rcases List.mem_cons.mp hm with rfl | hm
  · rcases hf with hf | hf
    · exact hu hf
    · exact absurd hf (by simp [hs])
  · exact absurd (hrest c hm) (by simp [hr])

theorem notMem_of_exactOnAscii (he : ExactOnAscii) (h : isIdentifier name = true)
    (ha : c.toNat < 128) (hu : c ≠ '_') (hc : c.isAlphanum = false) : c ∉ name.toList := by
  refine notMem_of_isIdentifier h hu ?_ ?_
  · rw [he.start c ha]
    exact (Bool.or_eq_false_iff.mp hc).1
  · rw [he.further c ha, hc, decide_eq_false hu]
    rfl

theorem SparesPunctuation.notMem (hs : SparesPunctuation) (h : isIdentifier name = true)
    (hc : c ∈ punctuation) : c ∉ name.toList := by
  have hstop := hs.punctuation_stops c hc
  refine notMem_of_isIdentifier h ?_ ?_ hstop
  · rintro rfl
    exact absurd hc (by decide)
  · rw [Bool.eq_false_iff]
    intro hstart
    exact absurd (hs.start_continues c hstart) (by simp [hstop])

end Identifiers

open CharClasses.Ascii in
theorem SparesPunctuation.ascii : SparesPunctuation where
  start_continues c h := Bool.or_eq_true_iff.mpr (.inl (Bool.or_eq_true_iff.mpr (.inl h)))
  punctuation_stops c hc := by
    have hall : punctuation.all (!isIdentifierContinue ·) = true := by decide
    simpa using List.all_eq_true.mp hall c hc

end Text

end ScriptTrace
