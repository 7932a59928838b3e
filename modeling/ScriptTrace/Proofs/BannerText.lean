import ScriptTrace.Proofs.Pairing
import ScriptTrace.Proofs.Visible

namespace ScriptTrace

theorem Place.file_ne_empty_of_ofHost? {position : HostPosition} {place : Place}
    (h : Place.ofHost? position = some place) : place.file ≠ "" := by
  unfold Place.ofHost? at h
  split at h
  · cases h
  · next file _ =>
    split at h
    · cases h
    · next hne =>
      cases h
      simpa using hne

def Frame.IsRead (frame : Frame) : Prop :=
  ∃ (filter : FrameFilter) (host : HostFrame), filter.frame? host = some frame

theorem Frame.IsRead.file_ne_empty {frame : Frame} (h : frame.IsRead) {place : Place}
    (hp : frame.place = some place) : place.file ≠ "" := by
  obtain ⟨filter, host, hf⟩ := h
  obtain ⟨routine, -, rfl⟩ := FrameFilter.frame?_eq_some_iff.mp hf
  obtain ⟨position, -, hposition⟩ := Option.bind_eq_some_iff.mp hp
  exact Place.file_ne_empty_of_ofHost? hposition

namespace Trace

theorem isRead_of_mem_unfiltered {filter : FrameFilter} {stack : List HostFrame} {frame : Frame}
    (h : frame ∈ (unfiltered filter stack).frames) : frame.IsRead := by
  obtain ⟨host, -, hf⟩ := List.mem_filterMap.mp h
  exact ⟨filter, host, hf⟩

theorem isRead_of_mem_ofStack [CharClasses] {filter : FrameFilter} {stack : List HostFrame}
    {frame : Frame} (h : frame ∈ (ofStack filter stack).frames) : frame.IsRead := by
  obtain ⟨host, -, hf⟩ := List.mem_filterMap.mp h
  exact ⟨filter, host, (FrameFilter.visibleFrame?_eq_some_iff.mp hf).2⟩

def HasFiles (trace : Trace) : Prop :=
  ∀ frame ∈ trace.frames, ∀ place, frame.place = some place → place.file ≠ ""

theorem hasFiles_ofStack [CharClasses] (filter : FrameFilter) (stack : List HostFrame) :
    (ofStack filter stack).HasFiles :=
  fun _ hf _ hp ↦ (isRead_of_mem_ofStack hf).file_ne_empty hp

variable {trace : Trace}

theorem lines_eq (trace : Trace) :
    trace.lines = ⟨-1, trace.frames[0]?, none⟩ :: trace.lines.tail := by
  rw [lines, Line.sequence_eq, List.tail_cons]

theorem place_first (trace : Trace) :
    Line.place ⟨-1, trace.frames[0]?, none⟩ = trace.capturePoint := by
  rw [Line.place, capturePoint, List.head?_eq_getElem?]

theorem file_eq_empty_iff (h : trace.HasFiles) : trace.file = "" ↔ trace.capturePoint = none := by
  rw [file]
  cases hp : trace.capturePoint with
  | none => simp
  | some place =>
    obtain ⟨frame, hf, hplace⟩ := Option.bind_eq_some_iff.mp hp
    have hne := h frame (List.mem_of_head? hf) place hplace
    simpa using hne

def captureText (trace : Trace) : String :=
  trace.file ++ "(" ++ toString trace.line.toNat ++ "," ++
    trace.column.elim "?" (fun column ↦ toString column.toNat) ++ ")"

theorem captureText_eq_text {place : Place} (h : trace.capturePoint = some place) :
    trace.captureText = place.text := by
  obtain ⟨file, line, column⟩ := place
  simp only [captureText, Trace.file, Trace.line, Trace.column, h, Place.text, Option.map_some,
    Option.getD_some, Option.bind_some, Text.decimal_eq]
  cases column with
  | none => rfl
  | some column => rw [Place.columnText, Text.decimal_eq]; rfl

theorem text_eq (trace : Trace) : trace.text = Listing.numberedLines trace.lines.tail :=
  Listing.traceText_eq trace.lines

theorem isEmpty_tail_lines (trace : Trace) :
    trace.lines.tail.isEmpty = trace.frames.isEmpty := by
  rw [Bool.eq_iff_iff, List.isEmpty_iff, List.isEmpty_iff, lines, Line.sequence_eq, List.tail_cons,
    List.mapIdx_eq_nil_iff]

theorem banner_eq (h : trace.HasFiles) (identifier message : String) :
    trace.banner identifier message =
      identifier ++ (if message = "" then "" else ": " ++ message) ++
        (if trace.file = "" then "" else " in " ++ trace.captureText) ++
        (if trace.frames = [] then "" else "\nStack trace:\n" ++ trace.text) := by
  have htitle : (if message.isEmpty then identifier else identifier ++ ": " ++ message) =
      identifier ++ if message = "" then "" else ": " ++ message := by
    by_cases hm : message = "" <;> simp [hm, String.append_assoc]
  have hplace : (if Line.hasPlace ⟨-1, trace.frames[0]?, none⟩ then
        " in " ++ Line.plainText ⟨-1, trace.frames[0]?, none⟩ else "") =
      if trace.file = "" then "" else " in " ++ trace.captureText := by
    simp only [Line.hasPlace, Line.plainText, Line.placeText, Line.callText, place_first,
      file_eq_empty_iff h]
    cases hp : trace.capturePoint with
    | none => rfl
    | some place => simp [captureText_eq_text hp]
  have hrows : (if trace.lines.tail.isEmpty then "" else
        "\nStack trace:\n" ++ Listing.numberedLines trace.lines.tail) =
      if trace.frames = [] then "" else "\nStack trace:\n" ++ trace.text := by
    rw [isEmpty_tail_lines, text_eq]
    simp only [List.isEmpty_iff]
  rw [banner, lines_eq, Listing.banner]
  simp only [htitle, hplace, hrows]

/-- The banner of a trace repeats what the accessors and the text of the trace tell. Its place
clause is left out exactly when the first line has no place; the accessors then give an empty
file, line zero and no column. -/
theorem banner_ofStack [CharClasses] (filter : FrameFilter) (stack : List HostFrame) :
    let trace := ofStack filter stack
    (∀ identifier message, trace.banner identifier message =
      identifier ++ (if message = "" then "" else ": " ++ message) ++
        (if trace.file = "" then "" else " in " ++ trace.captureText) ++
        (if trace.frames = [] then "" else "\nStack trace:\n" ++ trace.text)) ∧
    ∃ first rest, trace.lines = first :: rest ∧
      (trace.file = "" ↔ first.hasPlace = false) ∧
      (first.hasPlace = false → trace.line = 0 ∧ trace.column = none) := by
  intro trace
  have h := hasFiles_ofStack filter stack
  refine ⟨banner_eq h, _, _, lines_eq trace, ?_, ?_⟩
  · rw [Line.hasPlace, place_first, Option.isSome_eq_false_iff, Option.isNone_iff_eq_none]
    exact file_eq_empty_iff h
  · rw [Line.hasPlace, place_first, Option.isSome_eq_false_iff, Option.isNone_iff_eq_none]
    intro hn
    rw [Trace.line, Trace.column, hn]
    exact ⟨rfl, rfl⟩

open CharClasses.Ascii

theorem banner_ofStack_of_empty_file :
    let f : HostFrame := .atPosition (.ofRoutine { name := "f" }) "" 7 2
    let main : HostFrame := .atPosition (.ofRoutine { name := "<Main>" }) "index.php" 8 0
    let trace := ofStack {} [f, main]
    trace.banner "Error" "no" =
        "Error: no\nStack trace:\n#0 index.php(7,?): f()\n#1 \x7bmain\x7d\n" ∧
      ∃ first rest, trace.lines = first :: rest ∧ first.hasPlace = false ∧
        trace.line = 0 ∧ trace.column = none := by
  intro f main trace
  obtain ⟨hbanner, first, rest, hlines, hfile, hnone⟩ := banner_ofStack {} [f, main]
  have hplace : first.hasPlace = false := hfile.mp (by decide +kernel)
  exact ⟨(hbanner "Error" "no").trans (by decide +kernel), first, rest, hlines, hplace,
    hnone hplace⟩

end Trace

end ScriptTrace
