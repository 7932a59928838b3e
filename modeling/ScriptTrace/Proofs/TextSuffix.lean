import ScriptTrace.Proofs.Pairing
import Mathlib.Data.List.Basic

namespace ScriptTrace.Listing

def textAfter (start : Nat) (lines : List Line) : String :=
  String.join ((lines.zipIdx.filter (start < ·.2)).map (·.1.numberedText ++ "\n"))

theorem map_filter_zipIdx (lines : List Line) (start first : Nat) :
    ((lines.zipIdx first).filter (start < ·.2)).map (·.1) = lines.drop (start + 1 - first) := by
  induction lines generalizing first with
  | nil => rw [List.zipIdx_nil, List.filter_nil, List.map_nil, List.drop_nil]
  | cons line rest ih =>
    by_cases h : start < first
    · have hzero : start + 1 - first = 0 := by omega
      have hnext : start + 1 - (first + 1) = 0 := by omega
      rw [List.zipIdx_cons, List.filter_cons_of_pos (by simpa using h), List.map_cons, ih, hzero,
        hnext, List.drop_zero, List.drop_zero]
    · have hsucc : start + 1 - first = start + 1 - (first + 1) + 1 := by omega
      rw [List.zipIdx_cons, List.filter_cons_of_neg (by simpa using h), ih, hsucc,
        List.drop_succ_cons]

theorem textAfter_eq (start : Nat) (lines : List Line) :
    textAfter start lines = numberedLines (lines.drop (start + 1)) := by
  have h := map_filter_zipIdx lines start 0
  rw [numberedLines, ← Nat.sub_zero (start + 1), ← h, List.map_map]
  rfl

theorem numberedLines_append (a b : List Line) :
    numberedLines (a ++ b) = numberedLines a ++ numberedLines b := by
  rw [numberedLines, List.map_append, String.join_append]
  rfl

theorem sum?_one_eq_some {start : UInt64} (h : start.toNat + 1 < UInt64.size) :
    ∃ count, sum? 1 start = some count ∧ count.toNat = start.toNat + 1 := by
  have hsum : (1 : UInt64).toNat + start.toNat = start.toNat + 1 := Nat.add_comm _ _
  refine ⟨1 + start, if_pos (by rwa [hsum]), ?_⟩
  rw [UInt64.toNat_add, hsum]
  exact Nat.mod_eq_of_lt h

theorem traceTextFrom?_eq_textAfter {start : UInt64} (h : start.toNat + 1 < UInt64.size)
    (lines : List Line) : traceTextFrom? lines start = some (textAfter start.toNat lines) := by
  obtain ⟨count, hcount, hnat⟩ := sum?_one_eq_some h
  rw [traceTextFrom?, hcount, Option.map_some, hnat, textAfter_eq]

theorem traceTextFrom?_greatest (lines : List Line) :
    traceTextFrom? lines 0xFFFFFFFFFFFFFFFF = none := by
  have hnone : sum? 1 0xFFFFFFFFFFFFFFFF = none := by decide
  rw [traceTextFrom?, hnone, Option.map_none]

theorem eq_greatest {start : UInt64} (h : ¬start.toNat + 1 < UInt64.size) :
    start = 0xFFFFFFFFFFFFFFFF := by
  have hlt := start.toNat_lt_size
  apply UInt64.toNat_inj.mp
  change start.toNat = UInt64.size - 1
  omega

theorem traceText_eq_append (lines : List Line) (start : Nat) :
    traceText lines =
      numberedLines ((lines.drop 1).take (min start (lines.length - 1))) ++
        textAfter start lines := by
  have htake : (lines.drop 1).take (min start (lines.length - 1)) =
      (lines.drop 1).take start := by
    rw [← List.length_drop, ← List.take_eq_take_min]
  rw [textAfter_eq, htake, Nat.add_comm, ← List.drop_drop, ← numberedLines_append,
    List.take_append_drop, traceText_eq, List.drop_one]

/-- From any start but the greatest word there is a text, that of the lines after the start. It is a
suffix of the whole text, and empty when no listed line is left. The greatest word stops the
program. -/
theorem traceTextFrom?_suffix_iff (lines : List Line) (start : UInt64) :
    (traceTextFrom? lines start = some (textAfter start.toNat lines) ↔
      start.toNat + 1 < UInt64.size) ∧
    (start.toNat + 1 < UInt64.size → ∃ text, traceTextFrom? lines start = some text ∧
      traceText lines =
        numberedLines ((lines.drop 1).take (min start.toNat (lines.length - 1))) ++ text ∧
      (lines.length - 1 ≤ start.toNat → text = "")) ∧
    traceTextFrom? lines 0xFFFFFFFFFFFFFFFF = none := by
  refine ⟨⟨fun hsome ↦ ?_, fun h ↦ traceTextFrom?_eq_textAfter h lines⟩, fun h ↦
    ⟨_, traceTextFrom?_eq_textAfter h lines, traceText_eq_append lines _, fun hlast ↦ ?_⟩,
    traceTextFrom?_greatest lines⟩
  · by_contra h
    rw [eq_greatest h, traceTextFrom?_greatest] at hsome
    cases hsome
  · rw [textAfter_eq, List.drop_eq_nil_of_le (by omega)]
    rfl

theorem traceTextFrom?_suffix_iff_of_two_calls :
    let lines := Line.sequence
      [⟨none, .routine "f" none true ["x"]⟩, ⟨some ⟨"a.php", 8, none⟩, .globalCode⟩]
    (1 : UInt64).toNat + 1 < UInt64.size ∧
      traceTextFrom? lines 1 = some "#1 \x7bmain\x7d\n" ∧
      traceText lines = "#0 a.php(8,?): f($x)\n" ++ "#1 \x7bmain\x7d\n" ∧
      traceTextFrom? lines 2 = some "" := by
  intro lines
  have hone : (1 : UInt64).toNat + 1 < UInt64.size := by decide
  obtain ⟨hiff, hsuffix, -⟩ := traceTextFrom?_suffix_iff lines 1
  have hrows : traceTextFrom? lines 1 = some "#1 \x7bmain\x7d\n" :=
    (hiff.mpr hone).trans (by decide +kernel)
  obtain ⟨text, htext, happend, -⟩ := hsuffix hone
  obtain rfl := Option.some.inj (htext.symm.trans hrows)
  obtain ⟨last, hlast, -, hempty⟩ := (traceTextFrom?_suffix_iff lines 2).2.1 (by decide)
  refine ⟨hone, hrows, ?_, ?_⟩
  · rw [happend]
    decide +kernel
  · rw [hlast, hempty (by decide)]

/-- The greatest word stops the program, while no line comes after it. -/
theorem greatest_start_stops :
    let lines := Line.sequence [⟨some ⟨"a.php", 8, none⟩, .routine "f" none true []⟩]
    traceTextFrom? lines 0xFFFFFFFFFFFFFFFF = none ∧
      textAfter (0xFFFFFFFFFFFFFFFF : UInt64).toNat lines = "" := by
  decide +kernel

end ScriptTrace.Listing
