import ScriptTrace.Trace
import Mathlib.Tactic.SplitIfs

namespace ScriptTrace

namespace FrameFilter

variable {filter : FrameFilter} {host : HostFrame} {frame : Frame}

theorem calleeOf_of_isGlobalCode {routine : Routine}
    (h : routine.isStatic = true ∧ routine.name = filter.globalCodeName) :
    filter.calleeOf routine = .globalCode := by
  simp [calleeOf, isGlobalCode, h]

theorem calleeOf_of_not_isGlobalCode {routine : Routine}
    (h : ¬(routine.isStatic = true ∧ routine.name = filter.globalCodeName)) :
    filter.calleeOf routine =
      .routine routine.name routine.owner routine.isStatic routine.sourceParameters := by
  have hn : filter.isGlobalCode routine = false := by simpa [isGlobalCode] using h
  rw [calleeOf, hn, if_neg Bool.false_ne_true]

theorem frame?_eq_some_iff :
    filter.frame? host = some frame ↔ ∃ routine, host.routine = some routine ∧
      frame = ⟨host.position.bind Place.ofHost?, filter.calleeOf routine⟩ := by
  rw [frame?, Option.map_eq_some_iff]
  refine exists_congr fun routine ↦ and_congr_right fun _ ↦ eq_comm

section Visible

variable [CharClasses]

theorem visibility_eq_visible_iff :
    filter.visibility host = .visible ↔ ∃ routine, host.routine = some routine ∧
      filter.admitsName routine.name = true ∧ filter.inScriptContainer routine = false ∧
      (filter.showHidden = true ∨
        filter.isTrustedInternal routine = false ∧ routine.isMarkedHidden = false) := by
  unfold visibility
  cases host.routine with
  | none => simp
  | some routine =>
    simp only [Option.some.injEq, exists_eq_left', Bool.not_eq_true']
    split_ifs <;> simp_all

theorem exists_routine (h : filter.visibility host = .visible) :
    ∃ routine, host.routine = some routine := by
  obtain ⟨routine, hr, -⟩ := visibility_eq_visible_iff.mp h
  exact ⟨routine, hr⟩

theorem visibleFrame?_eq_some_iff :
    filter.visibleFrame? host = some frame ↔
      filter.visibility host = .visible ∧ filter.frame? host = some frame := by
  simp only [visibleFrame?, shows, Visibility.isVisible, decide_eq_true_eq,
    Option.ite_none_right_eq_some]

theorem visibleFrame?_eq_none (h : filter.visibility host ≠ .visible) :
    filter.visibleFrame? host = none := by
  rw [Option.eq_none_iff_forall_ne_some]
  intro frame hf
  exact h (visibleFrame?_eq_some_iff.mp hf).1

theorem exists_visibleFrame? (h : filter.visibility host = .visible) :
    ∃ frame, filter.frame? host = some frame ∧ filter.visibleFrame? host = some frame := by
  obtain ⟨routine, hr⟩ := exists_routine h
  have hf : filter.frame? host = some _ := frame?_eq_some_iff.mpr ⟨routine, hr, rfl⟩
  exact ⟨_, hf, visibleFrame?_eq_some_iff.mpr ⟨h, hf⟩⟩

variable (filter) in
def visiblePart (stack : List HostFrame) : List HostFrame :=
  stack.filter fun host ↦ filter.visibility host = .visible

theorem visible_of_mem_visiblePart {stack : List HostFrame}
    (h : host ∈ filter.visiblePart stack) : filter.visibility host = .visible := by
  simpa using (List.mem_filter.mp h).2

end Visible

end FrameFilter

namespace Trace

open FrameFilter

variable [CharClasses] (filter : FrameFilter)

/-- Each visible host frame gives one frame of the trace, in the same order. -/
theorem map_frame?_visiblePart (stack : List HostFrame) :
    (filter.visiblePart stack).map filter.frame? = (ofStack filter stack).frames.map some := by
  induction stack with
  | nil => rfl
  | cons host rest ih =>
    simp only [visiblePart, ofStack] at ih ⊢
    by_cases hv : filter.visibility host = .visible
    · obtain ⟨frame, hf, hs⟩ := exists_visibleFrame? hv
      simp only [List.filter_cons, hv, List.filterMap_cons, hs, List.map_cons, hf, decide_true,
        if_true, ih]
    · have hs := visibleFrame?_eq_none hv
      simp only [List.filter_cons, hv, List.filterMap_cons, hs, decide_false, Bool.false_eq_true,
        if_false, ih]

theorem frames_ofStack_eq (stack : List HostFrame) :
    (ofStack filter stack).frames = (filter.visiblePart stack).filterMap filter.frame? := by
  have h := congrArg (List.filterMap id) (map_frame?_visiblePart filter stack)
  simpa only [List.filterMap_map, Function.id_comp, List.filterMap_some] using h.symm

theorem length_frames_ofStack (stack : List HostFrame) :
    (ofStack filter stack).frames.length = (filter.visiblePart stack).length := by
  have h := congrArg List.length (map_frame?_visiblePart filter stack)
  simpa only [List.length_map] using h.symm

theorem getElem?_frames (stack : List HostFrame) (k : Nat) :
    (ofStack filter stack).frames[k]? = (filter.visiblePart stack)[k]?.bind filter.frame? := by
  have h := congrArg (fun frames ↦ frames[k]?.bind id) (map_frame?_visiblePart filter stack)
  simpa only [List.getElem?_map, Option.bind_map, Function.id_comp, Option.bind_fun_some] using
    h.symm

end Trace

end ScriptTrace
