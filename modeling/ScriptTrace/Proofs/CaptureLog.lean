import ScriptTrace.Capture
import ScriptTrace.Proofs.Pairing
import ScriptTrace.Proofs.Visible
import Mathlib.Data.List.Basic

namespace ScriptTrace

open FrameFilter

def LogEvent.shown [CharClasses] (event : LogEvent) : LogLevel × String × List (String × String) :=
  (event.level, event.message, event.fields)

section Classes

variable [CharClasses] (filter : FrameFilter)

namespace FrameFilter

def hiddenPart (stack : List HostFrame) : List HostFrame :=
  stack.filter fun host ↦ filter.visibility host ≠ .visible

variable {filter}

theorem not_visible_of_mem_hiddenPart {stack : List HostFrame} {host : HostFrame}
    (h : host ∈ filter.hiddenPart stack) : filter.visibility host ≠ .visible := by
  simpa using (List.mem_filter.mp h).2

variable (filter)

theorem length_eq_visiblePart_add_hiddenPart (stack : List HostFrame) :
    stack.length = (filter.visiblePart stack).length + (filter.hiddenPart stack).length := by
  have h := List.length_eq_length_filter_add (l := stack)
    fun host ↦ decide (filter.visibility host = .visible)
  simpa only [visiblePart, hiddenPart, decide_not] using h

def dropEvent (host : HostFrame) : LogEvent :=
  .droppedFrame (host.routine.map (·.name)) (filter.visibility host)

theorem countP_trace_dropEvent (hosts : List HostFrame) :
    (hosts.map filter.dropEvent).countP (·.level = .trace) = hosts.length := by
  rw [List.countP_map]
  exact List.countP_eq_length.mpr fun _ _ ↦ rfl

end FrameFilter

namespace Sifting

variable (sifting : Sifting)

theorem take_of_visible {host : HostFrame} {frame : Frame} (h : filter.visibility host = .visible)
    (hf : filter.frame? host = some frame) :
    sifting.take filter host =
      ⟨sifting.taken + 1, sifting.frames ++ [frame], sifting.events⟩ := by
  simp only [take, h, hf]

theorem take_of_not_visible {host : HostFrame} (h : filter.visibility host ≠ .visible) :
    sifting.take filter host =
      ⟨sifting.taken + 1, sifting.frames, sifting.events ++ [filter.dropEvent host]⟩ := by
  rw [take, dropEvent]
  cases hv : filter.visibility host with
  | visible => exact absurd hv h
  | _ => rfl

/-- Every frame that is taken is counted, and is then either kept or written to the log. -/
theorem foldl_take (stack : List HostFrame) :
    stack.foldl (take filter) sifting =
      ⟨sifting.taken + stack.length, sifting.frames ++ (Trace.ofStack filter stack).frames,
        sifting.events ++ (filter.hiddenPart stack).map filter.dropEvent⟩ := by
  induction stack generalizing sifting with
  | nil => simp [Trace.ofStack, hiddenPart]
  | cons host rest ih =>
    rw [List.foldl_cons, ih, List.length_cons, Nat.add_comm rest.length, ← Nat.add_assoc]
    by_cases hv : filter.visibility host = .visible
    · obtain ⟨frame, hf, hs⟩ := exists_visibleFrame? hv
      rw [take_of_visible filter sifting hv hf]
      simp [Trace.ofStack, hiddenPart, hs, hv]
    · have hs := visibleFrame?_eq_none hv
      rw [take_of_not_visible filter sifting hv]
      simp [Trace.ofStack, hiddenPart, hs, hv]

theorem ofStack_eq (stack : List HostFrame) :
    ofStack filter stack = ⟨stack.length, (Trace.ofStack filter stack).frames,
      (filter.hiddenPart stack).map filter.dropEvent⟩ := by
  rw [ofStack, foldl_take, Nat.zero_add, List.nil_append, List.nil_append]

end Sifting

namespace Trace

theorem capture_ok (stack : List HostFrame) :
    capture filter (.ok stack) = (.ok (ofStack filter stack),
      (filter.hiddenPart stack).map filter.dropEvent ++
        [.builtTrace stack.length (ofStack filter stack).frames.length]) := by
  rw [capture, build, Sifting.ofStack_eq]

/-- A capture leaves one event for each frame that it drops, in the order of the stack and with the
reason, and then one that counts. Hence the frames of the stack are those of the trace and those in
the log. A host that fails leaves its error only. -/
theorem no_frame_dropped_silently :
    (∀ stack : List HostFrame,
      let trace := ofStack filter stack
      let events := (capture filter (.ok stack)).2
      (capture filter (.ok stack)).1 = .ok trace ∧
        events = (filter.hiddenPart stack).map filter.dropEvent ++
          [.builtTrace stack.length trace.frames.length] ∧
        events.map LogEvent.shown =
          ((filter.hiddenPart stack).map fun host ↦ (.trace, "dropping frame",
            [("routine", LogEvent.optionalText (host.routine.map (·.name))),
              ("reason", (filter.visibility host).label)])) ++
          [(.debug, "built trace", [("raw_count", toString stack.length),
            ("visible", toString trace.frames.length)])] ∧
        (∀ routine, .droppedFrame routine .visible ∉ events) ∧
        stack.length = trace.frames.length + events.countP (·.level = .trace)) ∧
    ∀ error : Error, capture filter (.error error) = (.error error, [.captureFailed error]) ∧
      (capture filter (.error error)).2.map LogEvent.shown =
        [(.warn, "stack capture failed", [("error", error.message)])] := by
  refine ⟨fun stack ↦ ?_, fun error ↦ ⟨rfl, rfl⟩⟩
  rw [capture_ok]
  refine ⟨rfl, rfl, ?_, fun routine hm ↦ ?_, ?_⟩
  · rw [List.map_append, List.map_map, List.map_singleton, ← Text.decimal_eq, ← Text.decimal_eq]
    rfl
  · rcases List.mem_append.mp hm with hm | hm
    · obtain ⟨host, hh, he⟩ := List.mem_map.mp hm
      exact not_visible_of_mem_hiddenPart hh (LogEvent.droppedFrame.inj he).2
    · simp at hm
  · have hlast : [LogEvent.builtTrace stack.length (ofStack filter stack).frames.length].countP
        (·.level = .trace) = 0 := rfl
    rw [List.countP_append, hlast, Nat.add_zero, countP_trace_dropEvent, length_frames_ofStack]
    exact length_eq_visiblePart_add_hiddenPart filter stack

end Trace

end Classes

section Ascii

open CharClasses.Ascii

example : (Trace.capture {} (.ok [.unresolved, .ofRoutine { name := "f" }])).2.map LogEvent.shown =
    [(.trace, "dropping frame", [("routine", "None"), ("reason", "NoRoutine")]),
      (.debug, "built trace", [("raw_count", "2"), ("visible", "1")])] := by
  decide +kernel

end Ascii

end ScriptTrace
