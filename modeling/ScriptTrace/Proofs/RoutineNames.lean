import ScriptTrace.Proofs.Records
import ScriptTrace.Proofs.Visible

namespace ScriptTrace

namespace Callee

def IsTopLevel (callee : Callee) : Prop :=
  callee.isGlobalCode = true ∧ callee.name = "\x7bmain\x7d" ∧ callee.owner = none ∧
    callee.isStatic = true ∧ callee.parameters = []

theorem isTopLevel_globalCode : IsTopLevel .globalCode := ⟨rfl, rfl, rfl, rfl, rfl⟩

end Callee

namespace FrameFilter

variable {filter : FrameFilter} {host : HostFrame} {frame : Frame}

section Classes

variable [CharClasses]

/-- A routine whose name the script can spell, or an instance routine that happens to have the name
of top-level code. -/
def Names (filter : FrameFilter) (callee : Callee) : Prop :=
  callee.isGlobalCode = false ∧ (isIdentifier callee.name = true ∨
    callee.isStatic = false ∧ callee.name = filter.globalCodeName)

theorem calleeOf_topLevel_or_named {routine : Routine}
    (h : filter.admitsName routine.name = true) :
    (filter.calleeOf routine).IsTopLevel ∨ filter.Names (filter.calleeOf routine) := by
  by_cases hg : routine.isStatic = true ∧ routine.name = filter.globalCodeName
  · rw [calleeOf_of_isGlobalCode hg]
    exact .inl Callee.isTopLevel_globalCode
  · rw [calleeOf_of_not_isGlobalCode hg]
    refine .inr ⟨rfl, ?_⟩
    have hname : routine.name = filter.globalCodeName ∨ isIdentifier routine.name = true := by
      simpa [admitsName] using h
    rcases hname with hname | hname
    · have hs : routine.isStatic = false := by
        cases hs : routine.isStatic with
        | false => rfl
        | true => exact absurd ⟨hs, hname⟩ hg
      exact .inr ⟨hs, hname⟩
    · exact .inl hname

theorem topLevel_or_named_of_visibleFrame? (h : filter.visibleFrame? host = some frame) :
    frame.callee.IsTopLevel ∨ filter.Names frame.callee := by
  obtain ⟨hv, hf⟩ := visibleFrame?_eq_some_iff.mp h
  obtain ⟨routine, hr, hname, -⟩ := visibility_eq_visible_iff.mp hv
  obtain ⟨routine', hr', rfl⟩ := frame?_eq_some_iff.mp hf
  obtain rfl : routine = routine' := Option.some.inj (hr.symm.trans hr')
  exact calleeOf_topLevel_or_named hname

end Classes

end FrameFilter

namespace Listing

theorem exists_called_of_mem_records {frames : List Frame} {skip : Int} {limit : Option Nat}
    {listed : List Record} (h : records (Line.sequence frames) skip limit = .ok listed)
    {record : Record} (hm : record ∈ listed) :
    ∃ line : Line, ∃ frame ∈ frames, line.called = some frame ∧ record = Record.ofLine line := by
  obtain ⟨line, hl, rfl⟩ := exists_line_of_mem_records h hm
  rw [dropLast_sequence] at hl
  obtain ⟨k, hk, rfl⟩ := List.mem_mapIdx.mp hl
  exact ⟨_, _, List.dropLast_subset _ (List.getElem_mem hk), rfl, rfl⟩

end Listing

namespace Trace

/-- Every frame of a trace is top-level code or a routine with a legal name, but for an instance
routine with the name of top-level code, which keeps that name. -/
theorem routine_names_legal [CharClasses] (filter : FrameFilter) (stack : List HostFrame) :
    (∀ frame ∈ (ofStack filter stack).frames,
      frame.callee.IsTopLevel ∨ filter.Names frame.callee) ∧
    (∀ skip limit records, (ofStack filter stack).backtrace skip limit = .ok records →
      ∀ record ∈ records, ∃ frame ∈ (ofStack filter stack).frames,
        record.get? "function" = some (.text frame.callee.name) ∧
        (frame.callee.name = "\x7bmain\x7d" ∨ isIdentifier frame.callee.name = true ∨
          frame.callee.isStatic = false ∧ frame.callee.name = filter.globalCodeName)) ∧
    (∀ host ∈ stack, ∀ routine frame, filter.visibleFrame? host = some frame →
      host.routine = some routine → routine.isStatic = true →
      routine.name = filter.globalCodeName →
        frame.callee.owner = none ∧ frame.callee.parameters = []) := by
  have hframes : ∀ frame ∈ (ofStack filter stack).frames,
      frame.callee.IsTopLevel ∨ filter.Names frame.callee := by
    intro frame hf
    obtain ⟨host, -, hh⟩ := List.mem_filterMap.mp hf
    exact FrameFilter.topLevel_or_named_of_visibleFrame? hh
  refine ⟨hframes, ?_, ?_⟩
  · intro skip limit records hr record hm
    obtain ⟨line, frame, hf, hc, rfl⟩ := Listing.exists_called_of_mem_records hr hm
    refine ⟨frame, hf, Record.get?_function hc, ?_⟩
    rcases hframes frame hf with ⟨-, hname, -⟩ | ⟨-, hname⟩
    · exact .inl hname
    · exact .inr hname
  · intro host _ routine frame hf hr hs hname
    obtain ⟨routine', hr', rfl⟩ :=
      FrameFilter.frame?_eq_some_iff.mp (FrameFilter.visibleFrame?_eq_some_iff.mp hf).2
    obtain rfl : routine = routine' := Option.some.inj (hr.symm.trans hr')
    rw [FrameFilter.calleeOf_of_isGlobalCode ⟨hs, hname⟩]
    exact ⟨rfl, rfl⟩

open CharClasses.Ascii

theorem routine_names_legal_of_main :
    let main : Routine :=
      { name := "<Main>", parameters := [⟨"locals", false⟩],
        declaringType := some { name := "index_php" } }
    let stack : List HostFrame := [.ofRoutine { name := "f" }, .ofRoutine main]
    ∃ records record shown, (ofStack {} stack).backtrace 0 none = .ok records ∧ record ∈ records ∧
      (∃ frame ∈ (ofStack {} stack).frames,
        record.get? "function" = some (.text frame.callee.name) ∧
        (frame.callee.name = "\x7bmain\x7d" ∨ isIdentifier frame.callee.name = true ∨
          frame.callee.isStatic = false ∧ frame.callee.name = "<Main>")) ∧
      shown ∈ (ofStack {} stack).frames ∧
      (shown.callee.IsTopLevel ∨ FrameFilter.Names {} shown.callee) ∧
      shown.callee.owner = none ∧ shown.callee.parameters = [] := by
  intro main stack
  let shown : Frame := ⟨none, .globalCode⟩
  let record := Record.ofLine ⟨0, some shown, some ⟨none, .routine "f" none true []⟩⟩
  have hr : (ofStack {} stack).backtrace 0 none = .ok [record] := by rfl
  have hmain : FrameFilter.visibleFrame? {} (.ofRoutine main) = some shown := by decide +kernel
  have hm : shown ∈ (ofStack {} stack).frames :=
    List.mem_filterMap.mpr ⟨_, List.mem_cons_of_mem _ List.mem_cons_self, hmain⟩
  obtain ⟨hframes, hrecords, hcode⟩ := routine_names_legal {} stack
  exact ⟨[record], record, shown, hr, List.mem_cons_self,
    hrecords 0 none [record] hr record List.mem_cons_self, hm, hframes shown hm,
    hcode _ (List.mem_cons_of_mem _ List.mem_cons_self) main shown hmain rfl rfl rfl⟩

/-- An instance routine with the name of top-level code is shown under that name, in frames and
records, and with its type and parameters. -/
theorem instance_keeps_globalCodeName :
    let method : Routine :=
      { name := "<Main>", isStatic := false, parameters := [⟨"x", false⟩],
        declaringType := some { name := "C" } }
    let stack : List HostFrame := [.ofRoutine method, .ofRoutine { name := "f" }]
    (¬∀ frame ∈ (ofStack {} stack).frames, frame.callee.IsTopLevel ∨
      frame.callee.isGlobalCode = false ∧ isIdentifier frame.callee.name = true) ∧
    (¬∀ skip limit records, (ofStack {} stack).backtrace skip limit = .ok records →
      ∀ record ∈ records, ∃ name, record.get? "function" = some (.text name) ∧
        (name = "\x7bmain\x7d" ∨ isIdentifier name = true)) ∧
    ¬∀ host ∈ stack, ∀ routine frame, FrameFilter.visibleFrame? {} host = some frame →
      host.routine = some routine → routine.name = "<Main>" →
        frame.callee.owner = none ∧ frame.callee.parameters = [] := by
  intro method stack
  let shown : Frame := ⟨none, .routine "<Main>" (some "C") false ["x"]⟩
  have hfirst : FrameFilter.visibleFrame? {} (.ofRoutine method) = some shown := by decide +kernel
  refine ⟨fun h ↦ ?_, fun h ↦ ?_, fun h ↦ ?_⟩
  · have hm : shown ∈ (ofStack {} stack).frames :=
      List.mem_filterMap.mpr ⟨_, List.mem_cons_self, hfirst⟩
    rcases h shown hm with ⟨hg, -⟩ | ⟨-, hi⟩
    · exact absurd hg (by decide)
    · exact absurd hi (by decide)
  · let record := Record.ofLine ⟨0, none, some shown⟩
    have hr : (ofStack {} stack).backtrace 0 (some 1) = .ok [record] := by rfl
    obtain ⟨name, hn, hl⟩ := h 0 (some 1) _ hr record List.mem_cons_self
    obtain rfl : name = "<Main>" := by
      have hg : record.get? "function" = some (.text "<Main>") := rfl
      simpa using hn.symm.trans hg
    exact absurd hl (by decide)
  · have ht := (h _ List.mem_cons_self method shown hfirst rfl rfl).1
    exact absurd ht (by decide)

end Trace

end ScriptTrace
