import ScriptTrace.Native.Symbol
import Mathlib.Data.List.Infix

namespace ScriptTrace.Native.Symbol

attribute [ext] Depth

def angleWeight (previous : Option Char) (c : Char) : Int :=
  if c = '<' then 1 else if c = '>' ∧ previous ≠ some '-' then -1 else 0

theorem angleWeight_eq {previous : Option Char} (h : previous ≠ some '-') :
    angleWeight previous = angleWeight none := by
  funext c
  simp [angleWeight, h]

def braceWeight (_ : Option Char) (c : Char) : Int :=
  if c = '{' then 1 else if c = '}' then -1 else 0

theorem braceWeight_eq (previous : Option Char) : braceWeight previous = braceWeight none := rfl

section Excess

variable (weight : Option Char → Char → Int)

/-- By how much a text opens more than it closes; `previous` is the character before it. -/
def excess (previous : Option Char) : List Char → Int
  | [] => 0
  | c :: rest => weight previous c + excess (some c) rest

/-- A text that closes what it opens, and nothing before it is opened. -/
structure IsBalanced (text : List Char) : Prop where
  closed : excess weight none text = 0
  opened : ∀ start, start <+: text → 0 ≤ excess weight none start

instance (text : List Char) : Decidable (IsBalanced weight text) :=
  decidable_of_iff (excess weight none text = 0 ∧
      ∀ start ∈ text.inits, 0 ≤ excess weight none start)
    ⟨fun ⟨hc, ho⟩ ↦ ⟨hc, fun start hs ↦ ho start ((List.mem_inits _ _).mpr hs)⟩,
      fun h ↦ ⟨h.closed, fun start hs ↦ h.opened start ((List.mem_inits _ _).mp hs)⟩⟩

variable {weight}

theorem excess_eq_of_head? {previous : Option Char} {text : List Char}
    (h : ∀ c ∈ text.head?, weight previous c = weight none c) :
    excess weight previous text = excess weight none text := by
  cases text with
  | nil => rfl
  | cons c rest => rw [excess, excess, h c rfl]

theorem excess_eq_of_weight_eq {previous : Option Char} (h : weight previous = weight none)
    (text : List Char) : excess weight previous text = excess weight none text :=
  excess_eq_of_head? fun c _ ↦ congrFun h c

theorem excess_eq_zero {text : List Char} (h : ∀ previous, ∀ c ∈ text, weight previous c = 0)
    (previous : Option Char) : excess weight previous text = 0 := by
  induction text generalizing previous with
  | nil => rfl
  | cons c rest ih =>
    rw [excess, h previous c List.mem_cons_self, Int.zero_add]
    exact ih (fun p d hd ↦ h p d (List.mem_cons_of_mem _ hd)) (some c)

theorem isBalanced_of_weight_eq_zero {text : List Char}
    (h : ∀ previous, ∀ c ∈ text, weight previous c = 0) : IsBalanced weight text where
  closed := excess_eq_zero h none
  opened := by
    intro start hs
    have hstart : ∀ previous, ∀ c ∈ start, weight previous c = 0 :=
      fun previous c hc ↦ h previous c (hs.subset hc)
    exact Int.le_of_eq (excess_eq_zero hstart none).symm

theorem excess_append (previous : Option Char) (a b : List Char) :
    excess weight previous (a ++ b) =
      excess weight previous a + excess weight (a.getLast?.or previous) b := by
  induction a generalizing previous with
  | nil => exact (Int.zero_add _).symm
  | cons c rest ih =>
    rw [List.cons_append, excess, excess, ih, List.getLast?_cons, Option.or_some, Int.add_assoc]
    cases rest.getLast? <;> rfl

/-- Balanced texts may follow one another, unless the end of the first makes an arrow of the
bracket that the second starts with. -/
theorem IsBalanced.append {a b : List Char} (ha : IsBalanced weight a) (hb : IsBalanced weight b)
    (h : ∀ c ∈ b.head?, weight a.getLast? c = weight none c) : IsBalanced weight (a ++ b) where
  closed := by
    rw [excess_append, Option.or_none, excess_eq_of_head? h, ha.closed, hb.closed]
    rfl
  opened := by
    intro start hs
    rcases List.prefix_or_prefix_of_prefix hs (List.prefix_append a b) with ht | ⟨tail, rfl⟩
    · exact ha.opened start ht
    · have ht : tail <+: b := (List.prefix_append_right_inj a).mp hs
      have hhead : ∀ c ∈ tail.head?, weight a.getLast? c = weight none c := by
        obtain ⟨more, rfl⟩ := ht
        exact fun c hc ↦ h c (List.mem_head?_append_of_mem_head? hc)
      rw [excess_append, Option.or_none, excess_eq_of_head? hhead, ha.closed, Int.zero_add]
      exact hb.opened tail ht

end Excess

theorem isBalanced_angles {inner : List Char} (h : IsBalanced angleWeight inner)
    (hlast : inner.getLast? ≠ some '-') : IsBalanced angleWeight ('<' :: (inner ++ ['>'])) := by
  have hopen : angleWeight none '<' = 1 := by decide
  have hstart : angleWeight (some '<') = angleWeight none := angleWeight_eq (by decide)
  have hend : angleWeight (inner.getLast?.or (some '<')) '>' = -1 := by
    cases hi : inner.getLast? with
    | none => decide
    | some c => simpa [angleWeight, hi] using hlast
  have hclosed : excess angleWeight none ('<' :: (inner ++ ['>'])) = 0 := by
    rw [excess, excess_append, excess_eq_of_weight_eq hstart, h.closed, excess, excess, hend, hopen]
    rfl
  refine ⟨hclosed, fun start hs ↦ ?_⟩
  cases start with
  | nil => exact Int.le_refl 0
  | cons c start =>
    obtain ⟨rfl, ht⟩ := List.cons_prefix_cons.mp hs
    rcases List.prefix_concat_iff.mp ht with rfl | ht
    · exact Int.le_of_eq hclosed.symm
    · have hopened := h.opened start ht
      rw [excess, excess_eq_of_weight_eq hstart, hopen]
      omega

namespace Depth

def through (depth : Depth) (previous : Option Char) : List Char → Depth
  | [] => depth
  | c :: rest => (depth.after previous c).through (some c) rest

variable {depth : Depth} {previous : Option Char} {text : List Char}

theorem through_append (a b : List Char) :
    depth.through previous (a ++ b) =
      (depth.through previous a).through (a.getLast?.or previous) b := by
  induction a generalizing depth previous with
  | nil => rfl
  | cons c rest ih =>
    rw [List.cons_append, through, through, ih, List.getLast?_cons, Option.or_some]
    cases rest.getLast? <;> rfl

theorem after_of_notMem {c : Char} (h : c ∉ ['<', '>', '{', '}']) :
    depth.after previous c = depth := by
  simp only [List.mem_cons, List.not_mem_nil, or_false, not_or] at h
  obtain ⟨hopen, hclose, hbrace, hend⟩ := h
  simp [after, hopen, hclose, hbrace, hend]

theorem after_closing (h : previous ≠ some '-') :
    depth.after previous '>' = { depth with angle := depth.angle - 1 } := by
  simp [after, h]

theorem through_of_notMem (h : ∀ c ∈ text, c ∉ ['<', '>', '{', '}']) :
    depth.through previous text = depth := by
  induction text generalizing previous with
  | nil => rfl
  | cons c rest ih =>
    rw [through, after_of_notMem (h c List.mem_cons_self)]
    exact ih fun d hd ↦ h d (List.mem_cons_of_mem _ hd)

theorem through_cons_of_ne {c : Char} (h : c ≠ '>') (rest : List Char) :
    depth.through previous (c :: rest) = depth.through none (c :: rest) := by
  simp [through, after, h]

section Counting

variable {count : Depth → Nat} {weight : Option Char → Char → Int}

/-- A counter that follows the weights as long as it stays above zero. -/
def Follows (count : Depth → Nat) (weight : Option Char → Char → Int) : Prop :=
  ∀ depth previous c, 0 ≤ count depth + weight previous c →
    (count (after depth previous c) : Int) = count depth + weight previous c

theorem follows_angle : Follows angle angleWeight := by
  intro depth previous c h
  unfold angleWeight at h ⊢
  unfold after
  split_ifs at h ⊢ <;> simp_all
  omega

theorem follows_brace : Follows brace braceWeight := by
  intro depth previous c h
  unfold braceWeight at h ⊢
  unfold after
  split_ifs at h ⊢ <;> simp_all
  omega

theorem Follows.count_through (hf : Follows count weight)
    (h : ∀ start, start <+: text → 0 ≤ count depth + excess weight previous start) :
    (count (depth.through previous text) : Int) = count depth + excess weight previous text := by
  induction text generalizing depth previous with
  | nil => simp [through, excess]
  | cons c rest ih =>
    have hc : (count (depth.after previous c) : Int) = count depth + weight previous c := by
      apply hf
      simpa [excess] using h [c] (by simp)
    have hrest : ∀ start, start <+: rest →
        0 ≤ count (depth.after previous c) + excess weight (some c) start := by
      intro start hs
      have ht := h (c :: start) (List.cons_prefix_cons.mpr ⟨rfl, hs⟩)
      rw [excess] at ht
      omega
    rw [through, ih hrest, hc, excess]
    omega

theorem Follows.count_through_balanced (hf : Follows count weight) (hb : IsBalanced weight text)
    (hp : weight previous = weight none) (depth : Depth) {start : List Char}
    (hs : start <+: text) :
    (count (depth.through previous start) : Int) = count depth + excess weight none start := by
  rw [hf.count_through, excess_eq_of_weight_eq hp]
  intro start' hs'
  have ho := hb.opened start' (hs'.trans hs)
  rw [excess_eq_of_weight_eq hp]
  omega

end Counting

section Balanced

variable (ha : IsBalanced angleWeight text) (hb : IsBalanced braceWeight text)
  (hp : previous ≠ some '-')

include ha hb hp

theorem through_of_balanced : depth.through previous text = depth := by
  have hangle := follows_angle.count_through_balanced ha (angleWeight_eq hp) depth
    (List.prefix_refl text)
  have hbrace := follows_brace.count_through_balanced hb (braceWeight_eq previous) depth
    (List.prefix_refl text)
  rw [ha.closed] at hangle
  rw [hb.closed] at hbrace
  ext <;> omega

theorem through_ne_of_balanced (hd : depth ≠ {}) {start : List Char} (hs : start <+: text) :
    depth.through previous start ≠ {} := by
  have hangle := follows_angle.count_through_balanced ha (angleWeight_eq hp) depth hs
  have hbrace := follows_brace.count_through_balanced hb (braceWeight_eq previous) depth hs
  have hangles := ha.opened start hs
  have hbraces := hb.opened start hs
  intro he
  rw [he] at hangle hbrace
  refine hd (Depth.ext ?_ ?_) <;> simp only at hangle hbrace ⊢ <;> omega

end Balanced

end Depth

end ScriptTrace.Native.Symbol
