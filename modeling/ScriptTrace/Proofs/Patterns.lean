import ScriptTrace.Pattern
import Mathlib.Data.List.Basic

namespace ScriptTrace

theorem CharSet.mem_runs_iff {set : CharSet} {least : Nat} {most : Option Nat}
    {read rest : List Char} {run : List Char × List Char} :
    run ∈ set.runs least most read rest ↔ ∃ taken, rest = taken ++ run.2 ∧
      run.1 = taken.reverse ++ read ∧ (∀ c ∈ taken, set.contains c = true) ∧
      least ≤ taken.length ∧ ∀ bound ∈ most, taken.length ≤ bound := by
  induction rest generalizing least most read with
  | nil =>
    rw [runs, List.mem_ite_nil_right, List.mem_singleton]
    constructor
    · rintro ⟨rfl, rfl⟩
      exact ⟨[], rfl, rfl, by simp, Nat.le_refl _, fun _ _ ↦ Nat.zero_le _⟩
    · rintro ⟨taken, hrest, hread, -, hleast, -⟩
      obtain ⟨rfl, hrun⟩ := List.append_eq_nil_iff.mp hrest.symm
      exact ⟨Nat.le_zero.mp hleast, Prod.ext hread hrun⟩
  | cons c rest ih =>
    rw [runs, List.mem_append, List.mem_ite_nil_right, List.mem_ite_nil_right, List.mem_singleton,
      Bool.and_eq_true, decide_eq_true_eq, ih]
    constructor
    · rintro (⟨⟨hc, hpos⟩, taken, hrest, hread, hset, hleast, hmost⟩ | ⟨rfl, rfl⟩)
      · refine ⟨c :: taken, by rw [hrest, List.cons_append], by simp [hread],
          List.forall_mem_cons.mpr ⟨hc, hset⟩, Nat.sub_le_iff_le_add.mp hleast, ?_⟩
        rintro bound rfl
        have hle := hmost (bound - 1) rfl
        have hne : bound ≠ 0 := fun h ↦ hpos (congrArg some h)
        rw [List.length_cons]
        omega
      · exact ⟨[], rfl, rfl, by simp, Nat.le_refl _, fun _ _ ↦ Nat.zero_le _⟩
    · rintro ⟨taken, hrest, hread, hset, hleast, hmost⟩
      cases taken with
      | nil => exact .inr ⟨Nat.le_zero.mp hleast, Prod.ext hread hrest.symm⟩
      | cons d taken =>
        obtain ⟨rfl, htail⟩ := List.cons.inj hrest
        obtain ⟨hc, hset⟩ := List.forall_mem_cons.mp hset
        refine .inl ⟨⟨hc, ?_⟩, taken, htail, by simpa using hread, hset,
          Nat.sub_le_iff_le_add.mpr hleast, fun bound hb ↦ ?_⟩
        · rintro rfl
          exact absurd (hmost 0 rfl) (by simp)
        · obtain ⟨bound, hm, rfl⟩ := Option.map_eq_some_iff.mp hb
          exact Nat.le_sub_one_of_lt (hmost bound hm)

namespace Pattern

variable {reading next : Reading}

theorem mem_readings_start :
    next ∈ start.readings reading ↔ reading.read = [] ∧ next = reading := by
  rw [readings]
  split <;> simp_all

theorem mem_readings_stop :
    next ∈ stop.readings reading ↔ reading.rest = [] ∧ next = reading := by
  rw [readings]
  split <;> simp_all

theorem mem_readings_literal {text : String} :
    next ∈ (literal text).readings reading ↔
      ∃ rest, reading.rest = text.toList ++ rest ∧ next = reading.past text.toList rest := by
  have hprefix (rest : List Char) : text.toList.isPrefixOf? reading.rest = some rest ↔
      reading.rest = text.toList ++ rest := by
    rw [List.isPrefixOf?_eq_some_iff_append_eq, eq_comm]
  simp only [← hprefix, readings]
  cases text.toList.isPrefixOf? reading.rest <;> simp

theorem mem_readings_repeated {set : CharSet} {least : Nat} {most : Option Nat} :
    next ∈ (repeated set least most).readings reading ↔ ∃ taken rest,
      reading.rest = taken ++ rest ∧ (∀ c ∈ taken, set.contains c = true) ∧
      least ≤ taken.length ∧ (∀ bound ∈ most, taken.length ≤ bound) ∧
      next = reading.past taken rest := by
  rw [readings, List.mem_map]
  constructor
  · rintro ⟨⟨read, rest⟩, hrun, rfl⟩
    obtain ⟨taken, hrest, rfl, hset, hleast, hmost⟩ := CharSet.mem_runs_iff.mp hrun
    exact ⟨taken, rest, hrest, hset, hleast, hmost, rfl⟩
  · rintro ⟨taken, rest, hrest, hset, hleast, hmost, rfl⟩
    exact ⟨(taken.reverse ++ reading.read, rest),
      CharSet.mem_runs_iff.mpr ⟨taken, hrest, rfl, hset, hleast, hmost⟩, rfl⟩

theorem mem_readings_group {pattern : Pattern} :
    next ∈ (group pattern).readings reading ↔
      ∃ stage ∈ pattern.readings reading, next = stage.grouped reading := by
  simp only [readings, List.mem_map, eq_comm]

theorem mem_readings_append {first second : Pattern} :
    next ∈ (first ++ second).readings reading ↔
      ∃ stage ∈ first.readings reading, next ∈ second.readings stage := List.mem_flatMap

theorem mem_readings_either {first second : Pattern} :
    next ∈ (either first second).readings reading ↔
      next ∈ first.readings reading ∨ next ∈ second.readings reading := List.mem_append

section GoOn

variable {first second : Pattern} {stage : Reading} {rest : List Char}

theorem readings_append_ne_nil (hstage : stage ∈ first.readings reading)
    (h : second.readings stage ≠ []) : (first ++ second).readings reading ≠ [] := by
  obtain ⟨next, hnext⟩ := List.exists_mem_of_ne_nil _ h
  exact List.ne_nil_of_mem (mem_readings_append.mpr ⟨stage, hstage, hnext⟩)

theorem readings_literal_append_ne_nil {text : String}
    (hrest : reading.rest = text.toList ++ rest)
    (h : second.readings (reading.past text.toList rest) ≠ []) :
    (literal text ++ second).readings reading ≠ [] :=
  readings_append_ne_nil (mem_readings_literal.mpr ⟨rest, hrest, rfl⟩) h

theorem readings_repeated_append_ne_nil {set : CharSet} {least : Nat} {most : Option Nat}
    {taken : List Char} (hrest : reading.rest = taken ++ rest)
    (hset : ∀ c ∈ taken, set.contains c = true) (hleast : least ≤ taken.length)
    (hmost : ∀ bound ∈ most, taken.length ≤ bound)
    (h : second.readings (reading.past taken rest) ≠ []) :
    (repeated set least most ++ second).readings reading ≠ [] :=
  readings_append_ne_nil
    (mem_readings_repeated.mpr ⟨taken, rest, hrest, hset, hleast, hmost, rfl⟩) h

theorem readings_group_append_ne_nil (hstage : stage ∈ first.readings reading)
    (h : second.readings (stage.grouped reading) ≠ []) :
    (group first ++ second).readings reading ≠ [] :=
  readings_append_ne_nil (mem_readings_group.mpr ⟨stage, hstage, rfl⟩) h

end GoOn

theorem mem_of_capturesAt? {pattern : Pattern} {place : Reading} {captures : Captures}
    (h : pattern.capturesAt? place = some captures) :
    ∃ reading ∈ pattern.readings place, captures = capturesOf place reading := by
  obtain ⟨reading, hhead, rfl⟩ := Option.map_eq_some_iff.mp h
  exact ⟨reading, List.mem_of_head? hhead, rfl⟩

theorem isSome_capturesAt?_iff {pattern : Pattern} {place : Reading} :
    (pattern.capturesAt? place).isSome = true ↔ pattern.readings place ≠ [] := by
  rw [capturesAt?, Option.isSome_map, List.isSome_head?]

theorem attempt_capturesOf (pattern : Pattern) (place : Reading) :
    pattern.attempt place (some ∘ capturesOf place) = pattern.capturesAt? place := by
  rw [attempt_eq, capturesAt?]
  cases pattern.readings place <;> rfl

end Pattern

namespace PatternSearch

variable {pattern : Pattern}

theorem from?_eq_some {read text : List Char} {captures : Captures}
    (h : from? pattern read text = some captures) :
    ∃ before rest, text = before ++ rest ∧
      pattern.capturesAt? ⟨before.reverse ++ read, rest, none⟩ = some captures ∧
      ∀ before' rest', text = before' ++ rest' →
        (pattern.capturesAt? ⟨before'.reverse ++ read, rest', none⟩).isSome = true →
          before.length ≤ before'.length := by
  induction text generalizing read with
  | nil =>
    rw [from?, Pattern.attempt_capturesOf] at h
    exact ⟨[], [], rfl, h, fun _ _ _ _ ↦ Nat.zero_le _⟩
  | cons c text ih =>
    rw [from?, Pattern.attempt_capturesOf, Option.or_eq_some_iff] at h
    rcases h with h | ⟨hnone, h⟩
    · exact ⟨[], c :: text, rfl, h, fun _ _ _ _ ↦ Nat.zero_le _⟩
    · obtain ⟨before, rest, rfl, hcaptures, hfirst⟩ := ih h
      refine ⟨c :: before, rest, rfl, by simpa using hcaptures, fun before' rest' ht hs ↦ ?_⟩
      cases before' with
      | nil =>
        rw [List.nil_append] at ht
        simp [← ht, hnone] at hs
      | cons d before' =>
        obtain ⟨rfl, htail⟩ := List.cons.inj ht
        exact Nat.succ_le_succ (hfirst before' rest' htail (by simpa using hs))

theorem isSome_from? {read before rest : List Char}
    (h : (pattern.capturesAt? ⟨before.reverse ++ read, rest, none⟩).isSome = true) :
    (from? pattern read (before ++ rest)).isSome = true := by
  induction before generalizing read with
  | nil =>
    cases rest with
    | nil => rwa [List.nil_append, from?, Pattern.attempt_capturesOf]
    | cons c rest =>
      rw [List.nil_append, from?, Pattern.attempt_capturesOf, Option.isSome_or, Bool.or_eq_true]
      exact .inl h
  | cons c before ih =>
    rw [List.cons_append, from?, Option.isSome_or, Bool.or_eq_true]
    exact .inr (ih (by simpa using h))

namespace Backtracking

theorem isLeftmostFirst (pattern : Pattern) : IsLeftmostFirst pattern where
  finds text before rest ht h := by
    rw [← List.append_nil before.reverse] at h
    have hfrom := isSome_from? h
    rwa [← ht] at hfrom
  leftmost_first text captures h := by
    simpa using from?_eq_some h

end Backtracking

end PatternSearch

end ScriptTrace
