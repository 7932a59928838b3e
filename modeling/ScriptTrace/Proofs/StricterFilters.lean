import ScriptTrace.Proofs.Visible
import Mathlib.Data.List.Basic

namespace ScriptTrace

def Visibility.lifted : Visibility → Visibility
  | trustedInternal => visible
  | hidden => visible
  | verdict => verdict

namespace FrameFilter

/-- Filters that agree on the names of top-level code and of the script container, and of which the
second trusts no further key and shows hidden frames if the first does. -/
structure Stricter (strict lax : FrameFilter) : Prop where
  globalCodeName : strict.globalCodeName = lax.globalCodeName
  scriptContainerName : strict.scriptContainerName = lax.scriptContainerName
  trustedSignatureKeys : lax.trustedSignatureKeys ⊆ strict.trustedSignatureKeys
  showHidden : strict.showHidden = true → lax.showHidden = true

section Stricter

variable {strict lax : FrameFilter} (h : strict.Stricter lax)

include h

theorem Stricter.admitsName_eq [CharClasses] (name : String) :
    strict.admitsName name = lax.admitsName name := by
  rw [admitsName, admitsName, h.globalCodeName]

theorem Stricter.isGlobalCode_eq (routine : Routine) :
    strict.isGlobalCode routine = lax.isGlobalCode routine := by
  rw [isGlobalCode, isGlobalCode, h.globalCodeName]

theorem Stricter.inScriptContainer_eq (routine : Routine) :
    strict.inScriptContainer routine = lax.inScriptContainer routine := by
  rw [inScriptContainer, inScriptContainer, h.scriptContainerName]

theorem Stricter.isTrusted {type : DeclaringType} (ht : lax.isTrusted type = true) :
    strict.isTrusted type = true := by
  simp only [FrameFilter.isTrusted, Option.any_eq_true, List.contains_iff_mem] at ht ⊢
  obtain ⟨key, hk, hm⟩ := ht
  exact ⟨key, hk, h.trustedSignatureKeys hm⟩

theorem Stricter.isTrustedInternal {routine : Routine}
    (ht : lax.isTrustedInternal routine = true) : strict.isTrustedInternal routine = true := by
  simp only [FrameFilter.isTrustedInternal, Option.any_eq_true, Bool.and_eq_true] at ht ⊢
  obtain ⟨type, hd, htrusted, hl⟩ := ht
  exact ⟨type, hd, h.isTrusted htrusted, hl⟩

theorem Stricter.visible [CharClasses] {host : HostFrame} (hv : strict.visibility host = .visible) :
    lax.visibility host = .visible := by
  obtain ⟨routine, hr, hname, hcontainer, hshown⟩ := visibility_eq_visible_iff.mp hv
  rw [h.admitsName_eq] at hname
  rw [h.inScriptContainer_eq] at hcontainer
  refine visibility_eq_visible_iff.mpr ⟨routine, hr, hname, hcontainer, ?_⟩
  rcases hshown with hs | ⟨htrusted, hmarked⟩
  · exact .inl (h.showHidden hs)
  · have hlax : lax.isTrustedInternal routine = false := by
      rw [Bool.eq_false_iff]
      intro ht
      exact Bool.false_ne_true (htrusted.symm.trans (h.isTrustedInternal ht))
    exact .inr ⟨hlax, hmarked⟩

theorem Stricter.visiblePart_sublist [CharClasses] (stack : List HostFrame) :
    (strict.visiblePart stack).Sublist (lax.visiblePart stack) := by
  apply List.monotone_filter_right
  intro host hv
  exact decide_eq_true (h.visible (of_decide_eq_true hv))

theorem Stricter.frame?_eq : strict.frame? = lax.frame? := by
  funext host
  simp only [frame?, calleeOf, h.isGlobalCode_eq]

end Stricter

theorem visibility_showHidden [CharClasses] (filter : FrameFilter) (host : HostFrame) :
    FrameFilter.visibility { filter with showHidden := true } host =
      (filter.visibility host).lifted := by
  unfold visibility
  cases host.routine with
  | none => rfl
  | some routine =>
    have hname : FrameFilter.admitsName { filter with showHidden := true } routine.name =
      filter.admitsName routine.name := rfl
    have hcontainer : FrameFilter.inScriptContainer { filter with showHidden := true } routine =
      filter.inScriptContainer routine := rfl
    simp only [hname, hcontainer, if_true]
    split_ifs <;> rfl

end FrameFilter

namespace Trace

/-- A stricter filter shows some of the frames that the other shows, in the same order, and they
read the same. To show hidden frames lifts the verdicts that hide a frame, and no others. -/
theorem frames_sublist_of_stricter [CharClasses] :
    (∀ strict lax : FrameFilter, strict.Stricter lax →
      (∀ host, strict.visibility host = .visible → lax.visibility host = .visible) ∧
      ∀ stack, (ofStack strict stack).frames.Sublist (ofStack lax stack).frames) ∧
    ∀ (filter : FrameFilter) (host : HostFrame),
      FrameFilter.visibility { filter with showHidden := true } host =
        (filter.visibility host).lifted := by
  refine ⟨fun strict lax h ↦ ⟨fun _ ↦ h.visible, fun stack ↦ ?_⟩,
    FrameFilter.visibility_showHidden⟩
  rw [frames_ofStack_eq, frames_ofStack_eq, h.frame?_eq]
  exact (h.visiblePart_sublist stack).filterMap lax.frame?

open CharClasses.Ascii

theorem frames_sublist_of_stricter_of_plugin :
    let strict : FrameFilter := { trustedSignatureKeys := [runtimeSignatureKey, "plugin"] }
    let lax : FrameFilter := { showHidden := true }
    let plugin : DeclaringType := { name := "Plugin", module := { signatureKey := some "plugin" } }
    let signed : HostFrame := .ofRoutine { name := "call", declaringType := some plugin }
    let marked : HostFrame := .ofRoutine { name := "f", markers := { debuggerHidden := true } }
    let lambda : HostFrame := .ofRoutine { name := "<f>b__0" }
    let main : HostFrame := .atPosition (.ofRoutine { name := "<Main>" }) "index.php" 8 0
    let stack : List HostFrame := [signed, lambda, marked, main]
    strict.Stricter lax ∧ strict.visibility main = .visible ∧ lax.visibility main = .visible ∧
      (ofStack strict stack).frames.Sublist (ofStack lax stack).frames ∧
      (ofStack strict stack).frames.length = 1 ∧ (ofStack lax stack).frames.length = 3 ∧
      FrameFilter.visibility { strict with showHidden := true } signed =
        (strict.visibility signed).lifted := by
  intro strict lax plugin signed marked lambda main stack
  have h : strict.Stricter lax := ⟨rfl, rfl, by decide, by decide⟩
  have hv : strict.visibility main = .visible := by decide +kernel
  obtain ⟨hfilters, hlifted⟩ := frames_sublist_of_stricter
  obtain ⟨hvisible, hsublist⟩ := hfilters strict lax h
  exact ⟨h, hv, hvisible main hv, hsublist stack, by decide +kernel, by decide +kernel,
    hlifted strict signed⟩

end Trace

end ScriptTrace
