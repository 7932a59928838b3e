import ScriptTrace.Proofs.Separators
import ScriptTrace.Proofs.Visible
import Mathlib.Order.WellFounded

namespace ScriptTrace

inductive Rule
  | resolved
  | named
  | outsideContainer
  | notInternal
  | unmarked
  deriving DecidableEq

namespace Rule

def rank : Rule → Nat
  | resolved => 1
  | named => 2
  | outsideContainer => 3
  | notInternal => 4
  | unmarked => 5

def reason : Rule → Visibility
  | resolved => .noRoutine
  | named => .synthesizedName
  | outsideContainer => .scriptContainer
  | notInternal => .trustedInternal
  | unmarked => .hidden

theorem reason_injective : Function.Injective reason := by
  intro rule other h
  cases rule <;> cases other <;> simp_all [reason]

theorem reason_ne_visible (rule : Rule) : rule.reason ≠ .visible := by
  cases rule <;> exact Visibility.noConfusion

section Classes

variable [CharClasses] (filter : FrameFilter) (host : HostFrame)

/-- What a rule asks of a host frame. All but the first ask it of the routine, if there is one. -/
def Holds : Rule → Prop
  | resolved => ∃ routine, host.routine = some routine
  | named => ∀ routine ∈ host.routine,
      routine.name = filter.globalCodeName ∨ IsIdentifier routine.name
  | outsideContainer => ∀ routine ∈ host.routine, ∀ type ∈ routine.declaringType,
      type.name ≠ filter.scriptContainerName
  | notInternal => filter.showHidden = true ∨
      ∀ routine ∈ host.routine, ∀ type ∈ routine.declaringType,
        (∀ key ∈ type.module.signatureKey, key ∉ filter.trustedSignatureKeys) ∨
        (routine.isPublic = true ∧ routine.isStatic = true ∧ type.isPublic = true ∧
          type.isAbstract = true)
  | unmarked => filter.showHidden = true ∨
      ∀ routine ∈ host.routine,
        (routine.markers.debuggerHidden = false ∧ routine.markers.stackTraceHidden = false) ∧
        ∀ type ∈ routine.declaringType,
          type.markers.debuggerHidden = false ∧ type.markers.stackTraceHidden = false

def IsFirstBroken (rule : Rule) : Prop :=
  ¬rule.Holds filter host ∧ ∀ earlier : Rule, earlier.rank < rule.rank →
    earlier.Holds filter host

variable {filter host}

theorem exists_isFirstBroken (h : ¬∀ rule : Rule, rule.Holds filter host) :
    ∃ rule : Rule, rule.IsFirstBroken filter host := by
  obtain ⟨rule, hb, hmin⟩ := (measure rank).wf.has_min {rule | ¬rule.Holds filter host}
    (not_forall.mp h)
  exact ⟨rule, hb, fun earlier hlt ↦ not_not.mp fun he ↦ hmin earlier he hlt⟩

section Resolved

variable {routine : Routine} (hr : host.routine = some routine)
include hr

theorem holds_named_iff : named.Holds filter host ↔ filter.admitsName routine.name = true := by
  simp [Holds, hr, FrameFilter.admitsName, isIdentifier_iff]

theorem holds_outsideContainer_iff :
    outsideContainer.Holds filter host ↔ filter.inScriptContainer routine = false := by
  simp [Holds, hr, FrameFilter.inScriptContainer, Option.any_eq_false]

theorem holds_notInternal_iff :
    notInternal.Holds filter host ↔
      filter.showHidden = true ∨ filter.isTrustedInternal routine = false := by
  refine or_congr_right ?_
  simp only [hr, Option.mem_def, Option.some.injEq, forall_eq', FrameFilter.isTrustedInternal,
    FrameFilter.isTrusted, Routine.isLibraryRoutine, Option.any_eq_false, Bool.and_eq_false_iff,
    Bool.not_eq_false', Bool.and_eq_true, List.contains_eq_mem, decide_eq_false_iff_not, and_assoc]

theorem holds_unmarked_iff :
    unmarked.Holds filter host ↔ filter.showHidden = true ∨ routine.isMarkedHidden = false := by
  simp [Holds, hr, Routine.isMarkedHidden, HideMarkers.any, Option.any_eq_false]

end Resolved

theorem not_holds_resolved_iff : ¬resolved.Holds filter host ↔ host.routine = none := by
  simp [Holds, Option.eq_none_iff_forall_ne_some]

theorem holds_iff_visible :
    (∀ rule : Rule, rule.Holds filter host) ↔ filter.visibility host = .visible := by
  rw [FrameFilter.visibility_eq_visible_iff]
  constructor
  · intro h
    obtain ⟨routine, hr⟩ := h resolved
    refine ⟨routine, hr, (holds_named_iff hr).mp (h named),
      (holds_outsideContainer_iff hr).mp (h outsideContainer), ?_⟩
    rw [or_and_left]
    exact ⟨(holds_notInternal_iff hr).mp (h notInternal),
      (holds_unmarked_iff hr).mp (h unmarked)⟩
  · rintro ⟨routine, hr, hn, hc, h⟩ rule
    rw [or_and_left] at h
    cases rule with
    | resolved => exact ⟨routine, hr⟩
    | named => exact (holds_named_iff hr).mpr hn
    | outsideContainer => exact (holds_outsideContainer_iff hr).mpr hc
    | notInternal => exact (holds_notInternal_iff hr).mpr h.1
    | unmarked => exact (holds_unmarked_iff hr).mpr h.2

theorem IsFirstBroken.visibility_eq {rule : Rule} (h : rule.IsFirstBroken filter host) :
    filter.visibility host = rule.reason := by
  obtain ⟨hbroken, hearlier⟩ := h
  cases hr : host.routine with
  | none =>
    have hresolved : ¬resolved.Holds filter host := not_holds_resolved_iff.mpr hr
    cases rule with
    | resolved => simp [FrameFilter.visibility, hr, reason]
    | _ => exact absurd (hearlier resolved (by decide)) hresolved
  | some routine =>
    have hnamed : named.Holds filter host ↔ _ := holds_named_iff hr
    have houtside : outsideContainer.Holds filter host ↔ _ := holds_outsideContainer_iff hr
    have hinternal : notInternal.Holds filter host ↔ _ := holds_notInternal_iff hr
    have hunmarked : unmarked.Holds filter host ↔ _ := holds_unmarked_iff hr
    -- Each rule is read as the test of the check, the earlier ones as passed.
    cases rule with
    | resolved => exact absurd ⟨routine, hr⟩ hbroken
    | named =>
      rw [hnamed] at hbroken
      simp [FrameFilter.visibility, hr, reason, hbroken]
    | outsideContainer =>
      have hn := hnamed.mp (hearlier named (by decide))
      rw [houtside] at hbroken
      simp [FrameFilter.visibility, hr, reason, hn, hbroken]
    | notInternal =>
      have hn := hnamed.mp (hearlier named (by decide))
      have ho := houtside.mp (hearlier outsideContainer (by decide))
      rw [hinternal, not_or] at hbroken
      simp [FrameFilter.visibility, hr, reason, hn, ho, hbroken]
    | unmarked =>
      have hn := hnamed.mp (hearlier named (by decide))
      have ho := houtside.mp (hearlier outsideContainer (by decide))
      rw [hunmarked, not_or] at hbroken
      have hi := (hinternal.mp (hearlier notInternal (by decide))).resolve_left hbroken.1
      simp [FrameFilter.visibility, hr, reason, hn, ho, hi, hbroken]

end Classes

end Rule

/-- A frame is shown if it keeps all rules; otherwise the verdict is the reason of the first rule
that it breaks. -/
theorem FrameFilter.visibility_names_first_broken_rule [CharClasses] (filter : FrameFilter)
    (host : HostFrame) :
    (filter.shows host = true ↔ ∀ rule : Rule, rule.Holds filter host) ∧
    ∀ rule : Rule, filter.visibility host = rule.reason ↔ rule.IsFirstBroken filter host := by
  constructor
  · rw [Rule.holds_iff_visible, shows, Visibility.isVisible, decide_eq_true_eq]
  · refine fun rule ↦ ⟨fun hv ↦ ?_, Rule.IsFirstBroken.visibility_eq⟩
    have hbroken : ¬∀ rule : Rule, rule.Holds filter host := by
      rw [Rule.holds_iff_visible, hv]
      exact rule.reason_ne_visible
    obtain ⟨first, hfirst⟩ := Rule.exists_isFirstBroken hbroken
    have he : first = rule := Rule.reason_injective (hfirst.visibility_eq.symm.trans hv)
    exact he ▸ hfirst

section Ascii

open CharClasses.Ascii

/-- A private helper of the runtime that asks to be hidden breaks the last two rules; in the script
container it would break three. -/
example :
    let type (name : String) : DeclaringType :=
      { name, isAbstract := true, module := { signatureKey := some runtimeSignatureKey } }
    let helper (name : String) : Routine :=
      { name := "f", isPublic := false, markers := ⟨true, false⟩,
        declaringType := some (type name) }
    FrameFilter.visibility {} (.ofRoutine (helper "T")) = .trustedInternal ∧
      FrameFilter.visibility {} (.ofRoutine (helper "<Script>")) = .scriptContainer ∧
      FrameFilter.visibility { showHidden := true } (.ofRoutine (helper "T")) = .visible := by
  decide +kernel

end Ascii

end ScriptTrace
