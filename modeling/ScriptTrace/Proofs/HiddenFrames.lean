import ScriptTrace.Proofs.Visible
import Mathlib.Data.List.Basic

namespace ScriptTrace

namespace Trace

open FrameFilter

section Classes

variable [CharClasses] (filter : FrameFilter)

theorem frames_ofStack_append (a b : List HostFrame) :
    (ofStack filter (a ++ b)).frames = (ofStack filter a).frames ++ (ofStack filter b).frames :=
  List.filterMap_append

variable {filter}

theorem ofStack_of_visiblePart_eq {a b : List HostFrame}
    (h : filter.visiblePart a = filter.visiblePart b) : ofStack filter a = ofStack filter b := by
  have hframes : (ofStack filter a).frames = (ofStack filter b).frames := by
    rw [frames_ofStack_eq, frames_ofStack_eq, h]
  exact congrArg Trace.mk hframes

theorem ofStack_singleton {host : HostFrame} (h : filter.visibility host = .visible) :
    ∃ frame, filter.frame? host = some frame ∧ (ofStack filter [host]).frames = [frame] := by
  obtain ⟨frame, hf, hs⟩ := exists_visibleFrame? h
  refine ⟨frame, hf, ?_⟩
  rw [ofStack, List.filterMap_cons_some hs, List.filterMap_nil]

variable (filter)

/-- Two stacks that differ in hidden frames only cannot be told apart by anything that is read off
their traces, and each visible frame of a stack gives one frame in its own place. -/
theorem hidden_frames_do_not_show :
    (∀ a b : List HostFrame, filter.visiblePart a = filter.visiblePart b →
      ofStack filter a = ofStack filter b ∧
      (ofStack filter a).lines = (ofStack filter b).lines ∧
      (ofStack filter a).text = (ofStack filter b).text ∧
      (∀ identifier message, (ofStack filter a).banner identifier message =
        (ofStack filter b).banner identifier message) ∧
      (ofStack filter a).file = (ofStack filter b).file ∧
      (ofStack filter a).line = (ofStack filter b).line ∧
      (ofStack filter a).column = (ofStack filter b).column ∧
      ∀ skip limit, (ofStack filter a).backtrace skip limit =
        (ofStack filter b).backtrace skip limit) ∧
    (∀ a b : List HostFrame, (ofStack filter (a ++ b)).frames =
      (ofStack filter a).frames ++ (ofStack filter b).frames) ∧
    ∀ host, filter.visibility host = .visible → ∃ frame, filter.frame? host = some frame ∧
      ∀ before after, (ofStack filter (before ++ host :: after)).frames =
        (ofStack filter before).frames ++ frame :: (ofStack filter after).frames := by
  refine ⟨fun a b h ↦ ?_, frames_ofStack_append filter, fun host hv ↦ ?_⟩
  · rw [ofStack_of_visiblePart_eq h]
    exact ⟨rfl, rfl, rfl, fun _ _ ↦ rfl, rfl, rfl, rfl, fun _ _ ↦ rfl⟩
  · obtain ⟨frame, hf, hs⟩ := ofStack_singleton hv
    refine ⟨frame, hf, fun before after ↦ ?_⟩
    rw [frames_ofStack_append, ← List.singleton_append, frames_ofStack_append, hs,
      List.singleton_append]

end Classes

open CharClasses.Ascii

theorem hidden_frames_do_not_show_of_lambda :
    let f : HostFrame := .atPosition (.ofRoutine { name := "f" }) "a.php" 3 1
    let main : HostFrame := .atPosition (.ofRoutine { name := "<Main>" }) "index.php" 8 0
    let lambda : HostFrame := .atPosition (.ofRoutine { name := "<f>b__0" }) "b.php" 5 5
    let a : List HostFrame := [lambda, f, main]
    let b : List HostFrame := [f, .unresolved, lambda, main]
    FrameFilter.visiblePart {} a = FrameFilter.visiblePart {} b ∧
      FrameFilter.visibility {} f = .visible ∧ a ≠ b ∧
      ofStack {} a = ofStack {} b ∧
      (ofStack {} a).banner "Error" "no" = (ofStack {} b).banner "Error" "no" ∧
      ∃ frame, FrameFilter.frame? {} f = some frame ∧ (ofStack {} a).frames =
        (ofStack {} [lambda]).frames ++ frame :: (ofStack {} [main]).frames := by
  intro f main lambda a b
  have hv : FrameFilter.visiblePart {} a = FrameFilter.visiblePart {} b := by decide +kernel
  have hf : FrameFilter.visibility {} f = .visible := by decide +kernel
  obtain ⟨hstacks, -, hshown⟩ := hidden_frames_do_not_show {}
  obtain ⟨htrace, -, -, hbanner, -⟩ := hstacks a b hv
  obtain ⟨frame, hframe, hparts⟩ := hshown f hf
  exact ⟨hv, hf, by decide, htrace, hbanner "Error" "no", frame, hframe, hparts [lambda] [main]⟩

end Trace

end ScriptTrace
