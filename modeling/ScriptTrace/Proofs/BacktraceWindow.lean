import ScriptTrace.Proofs.Records

namespace ScriptTrace

namespace Line

/-- The lines with an order from `first` up to, but not at, `last`. -/
def window (first last : Int) (lines : List Line) : List Line :=
  lines.filter fun line ↦ first ≤ line.order ∧ line.order < last

variable {first last : Int}

theorem window_cons (line : Line) {rest : List Line}
    (h : window first last rest =
      (rest.take (last - (line.order + 1)).toNat).drop (first - (line.order + 1)).toNat) :
    window first last (line :: rest) =
      ((line :: rest).take (last - line.order).toNat).drop (first - line.order).toNat := by
  have hw : window first last (line :: rest) =
      if first ≤ line.order ∧ line.order < last then line :: window first last rest
      else window first last rest := by
    simp only [window, List.filter_cons, decide_eq_true_eq]
  rw [hw, h]
  by_cases hl : line.order < last
  · have hlast : (last - line.order).toNat = (last - (line.order + 1)).toNat + 1 := by omega
    rw [hlast, List.take_succ_cons]
    by_cases hf : first ≤ line.order
    · have hfirst : (first - line.order).toNat = 0 := by omega
      have hnext : (first - (line.order + 1)).toNat = 0 := by omega
      rw [if_pos ⟨hf, hl⟩, hfirst, hnext, List.drop_zero, List.drop_zero]
    · have hfirst : (first - line.order).toNat = (first - (line.order + 1)).toNat + 1 := by omega
      rw [if_neg fun hc ↦ hf hc.1, hfirst, List.drop_succ_cons]
  · have hlast : (last - line.order).toNat = 0 := by omega
    have hnext : (last - (line.order + 1)).toNat = 0 := by omega
    rw [if_neg fun hc ↦ hl hc.2, hlast, hnext, List.take_zero, List.take_zero, List.drop_nil,
      List.drop_nil]

theorem window_sequenceFrom (order : Int) (called : Option Frame) (frames : List Frame) :
    window first last (sequenceFrom order called frames) =
      ((sequenceFrom order called frames).take (last - order).toNat).drop
        (first - order).toNat := by
  induction frames generalizing order called with
  | nil =>
    refine window_cons ⟨order, none, called⟩ ?_
    rw [List.take_nil, List.drop_nil]
    rfl
  | cons frame rest ih =>
    exact window_cons ⟨order, some frame, called⟩ (ih (order + 1) (some frame))

theorem le_order_of_mem_sequenceFrom {order : Int} {called : Option Frame} {frames : List Frame}
    {line : Line} (h : line ∈ sequenceFrom order called frames) : order ≤ line.order := by
  induction frames generalizing order called with
  | nil =>
    obtain rfl := List.mem_singleton.mp h
    exact Int.le_refl _
  | cons frame rest ih =>
    rcases List.mem_cons.mp h with rfl | h
    · exact Int.le_refl _
    · have hl := ih h
      omega

theorem ascending_sequenceFrom (order : Int) (called : Option Frame) (frames : List Frame) :
    (sequenceFrom order called frames).Pairwise fun a b ↦ a.order < b.order := by
  induction frames generalizing order called with
  | nil => exact List.pairwise_singleton _ _
  | cons frame rest ih =>
    refine List.pairwise_cons.mpr ⟨fun line hl ↦ ?_, ih (order + 1) (some frame)⟩
    have hle := le_order_of_mem_sequenceFrom hl
    show order < line.order
    omega

end Line

namespace Listing

variable {skip : Int}

theorem length_upTo (limit : Option Nat) (lines : List Line) :
    (upTo limit lines).length = limit.elim lines.length (min · lines.length) := by
  cases limit with
  | none => rfl
  | some limit => exact List.length_take

theorem drop_dropLast_sequence (h : 0 ≤ skip) (frames : List Frame) :
    ((Line.sequence frames).drop 1).dropLast.drop skip.toNat =
      Line.window skip (frames.length - 1) (Line.sequence frames) := by
  have hlast : ((frames.length : Int) - 1 - -1).toNat = frames.length := by omega
  have hfirst : (skip - -1).toNat = 1 + skip.toNat := by omega
  have hl : ((Line.sequence frames).drop 1).length - 1 = frames.length - 1 := by
    rw [List.length_drop, Line.length_sequence]
    rfl
  rw [Line.sequence, Line.window_sequenceFrom, hlast, hfirst, ← List.drop_drop, List.drop_take,
    List.dropLast_eq_take, ← Line.sequence, hl]

theorem length_window_sequence (h : 0 ≤ skip) (frames : List Frame) :
    (Line.window skip (frames.length - 1) (Line.sequence frames)).length =
      ((frames.length : Int) - 1 - skip).toNat := by
  rw [← drop_dropLast_sequence h, List.length_drop, List.length_dropLast, List.length_drop,
    Line.length_sequence]
  omega

theorem records_append (lines : List Line) (skip : Int) (a b : Nat) :
    (do return (← records lines skip (some a)) ++ (← records lines (skip + a) (some b))) =
      records lines skip (some (a + b)) := by
  by_cases h : skip < 0
  · rw [records_of_neg h, records_of_neg h]
    rfl
  · have h0 : 0 ≤ skip := Int.not_lt.mp h
    have ha : 0 ≤ skip + a := Int.add_nonneg h0 (Int.natCast_nonneg a)
    have hnext : (skip + a).toNat = skip.toNat + a := by omega
    rw [records_of_nonneg h0, records_of_nonneg h0, records_of_nonneg ha, hnext, ← List.drop_drop,
      upTo, upTo, upTo, List.take_add, List.map_append]
    rfl

end Listing

namespace Trace

open Listing

/-- A backtrace lists the lines of a window of orders, never the one where the stack was captured
nor the last; a page and the page after it are one longer page. -/
theorem backtrace_lists_window (trace : Trace) (skip : Int) (limit : Option Nat) :
    (skip < 0 → trace.backtrace skip limit = .error (.invalidArgument "skip" skip)) ∧
    (0 ≤ skip → ∃ listed : List Line,
      trace.backtrace skip limit = .ok (listed.map Record.ofLine) ∧
      listed = upTo limit (trace.lines.filter fun line ↦
        skip ≤ line.order ∧ line.order < trace.frames.length - 1) ∧
      (listed.Pairwise fun a b ↦ a.order < b.order) ∧
      (∀ line ∈ listed, line.order ≠ -1 ∧ line.order ≠ trace.frames.length - 1) ∧
      listed.length = limit.elim ((trace.frames.length : Int) - 1 - skip).toNat
        (min · ((trace.frames.length : Int) - 1 - skip).toNat)) ∧
    ∀ a b : Nat,
      (do return (← trace.backtrace skip (some a)) ++ (← trace.backtrace (skip + a) (some b))) =
        trace.backtrace skip (some (a + b)) := by
  refine ⟨fun h ↦ records_of_neg h _ _, fun h ↦ ?_, records_append _ skip⟩
  have hsub := upTo_sublist limit (Line.window skip (trace.frames.length - 1) trace.lines)
  refine ⟨_, ?_, rfl, ?_, fun line hl ↦ ?_, ?_⟩
  · rw [backtrace, records_of_nonneg h, lines, drop_dropLast_sequence h]
    rfl
  · have hwindow := hsub.trans List.filter_sublist
    exact (Line.ascending_sequenceFrom _ _ _).sublist hwindow
  · have hw := of_decide_eq_true (List.mem_filter.mp (hsub.subset hl)).2
    omega
  · exact (length_upTo limit _).trans (by rw [← length_window_sequence h]; rfl)

theorem backtrace_lists_window_of_four_calls :
    let call (name : String) : Frame := ⟨some ⟨"a.php", 3, none⟩, .routine name none true []⟩
    let trace : Trace := ⟨[call "f", call "g", call "h", ⟨none, .globalCode⟩]⟩
    trace.backtrace (-1) (some 0) = .error (.invalidArgument "skip" (-1)) ∧
      (∃ listed : List Line, trace.backtrace 1 (some 5) = .ok (listed.map Record.ofLine) ∧
        listed.map (·.order) = [1, 2] ∧ listed.length = 2) ∧
      (do return (← trace.backtrace 0 (some 1)) ++ (← trace.backtrace 1 (some 2))) =
        trace.backtrace 0 (some 3) := by
  intro call trace
  obtain ⟨hneg, -, -⟩ := backtrace_lists_window trace (-1) (some 0)
  obtain ⟨-, hnonneg, -⟩ := backtrace_lists_window trace 1 (some 5)
  obtain ⟨-, -, hpages⟩ := backtrace_lists_window trace 0 none
  obtain ⟨listed, hb, hlisted, -, -, hlength⟩ := hnonneg (by decide)
  refine ⟨hneg (by decide), ⟨listed, hb, ?_, hlength⟩, hpages 1 2⟩
  rw [hlisted]
  decide +kernel

end Trace

end ScriptTrace
