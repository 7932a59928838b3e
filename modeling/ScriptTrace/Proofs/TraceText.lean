import ScriptTrace.Proofs.Pairing
import ScriptTrace.Proofs.Visible

namespace ScriptTrace

/-- A host position as the opening of the row of the call made there: zero-based, and nothing if
there is no file. -/
def HostPosition.rowOpening (position : HostPosition) : String :=
  match position.file with
  | none => ""
  | some file =>
    if file = "" then ""
    else file ++ "(" ++ toString (position.line.toNat - 1) ++ "," ++
      (if position.column = 0 then "?" else toString (position.column.toNat - 1)) ++ "): "

namespace Routine

variable (routine : Routine)

def rowOwner : String :=
  match routine.declaringType with
  | none => ""
  | some type =>
    if type.isScriptMarked ∨ (type.isPublic ∧ type.isAbstract ∧ type.module.isLibraryExtension)
    then "" else type.name ++ (if routine.isStatic then "::" else "->")

def rowParameters : List Parameter :=
  if routine.parameters.head?.any (·.isImplicit) then routine.parameters.tail
  else routine.parameters

def rowCall (globalCodeName : String) : String :=
  if routine.isStatic ∧ routine.name = globalCodeName then "\x7bmain\x7d"
  else routine.rowOwner ++ routine.name ++ "(" ++
    String.intercalate ", " (routine.rowParameters.map fun parameter ↦ "$" ++ parameter.name) ++ ")"

theorem map_name_rowParameters :
    routine.rowParameters.map (·.name) = routine.sourceParameters := by
  unfold rowParameters sourceParameters
  cases routine.parameters with
  | nil => rfl
  | cons first rest => cases h : first.isImplicit <;> simp [h]

theorem rowOwner_append_name :
    routine.rowOwner ++ routine.name = Callee.qualifiedName
      (.routine routine.name routine.owner routine.isStatic routine.sourceParameters) := by
  simp only [rowOwner, Callee.qualifiedName, Callee.owner, Callee.name, Callee.operator,
    Callee.isStatic, owner]
  cases routine.declaringType with
  | none => simp
  | some type =>
    have hiff : type.holdsFreeFunctions = true ↔ type.isScriptMarked = true ∨
        (type.isPublic = true ∧ type.isAbstract = true ∧
          type.module.isLibraryExtension = true) := by
      simp [DeclaringType.holdsFreeFunctions, and_assoc]
    cases hf : type.holdsFreeFunctions with
    | true => simp only [if_pos (hiff.mp hf), Option.filter_some, hf, Bool.not_true,
        Bool.false_eq_true, if_false, Option.map_none, String.empty_append]
    | false =>
      have hn := mt hiff.mpr (by simp [hf])
      simp only [if_neg hn, Option.filter_some, hf, Bool.not_false, if_true, Option.map_some]
      rfl

theorem callText_calleeOf (filter : FrameFilter) :
    (filter.calleeOf routine).callText = routine.rowCall filter.globalCodeName := by
  have hparams : (routine.rowParameters.map fun parameter ↦ "$" ++ parameter.name) =
      routine.sourceParameters.map ("$" ++ ·) := by
    rw [← map_name_rowParameters, List.map_map]
    rfl
  by_cases hg : routine.isStatic = true ∧ routine.name = filter.globalCodeName
  · rw [FrameFilter.calleeOf_of_isGlobalCode hg, rowCall, if_pos hg]
    rfl
  · rw [FrameFilter.calleeOf_of_not_isGlobalCode hg, rowCall, if_neg hg, rowOwner_append_name,
      hparams]
    rfl

end Routine

namespace Place

theorem toNat_sub_one {n : UInt32} (h : n ≠ 0) : (n - 1).toNat = n.toNat - 1 := by
  have hpos : n.toNat ≠ 0 := fun hn ↦ h (UInt32.toNat_inj.mp hn)
  have hle : 1 ≤ n := UInt32.le_iff_toNat_le.mpr (Nat.one_le_iff_ne_zero.mpr hpos)
  exact UInt32.toNat_sub_of_le n 1 hle

theorem toNat_zeroBasedLine (line : UInt32) : (zeroBasedLine line).toNat = line.toNat - 1 := by
  by_cases h : line = 0
  · simp [zeroBasedLine, h]
  · rw [zeroBasedLine, if_neg h, toNat_sub_one h]

theorem columnText_zeroBasedColumn? (column : UInt32) :
    columnText (zeroBasedColumn? column) =
      if column = 0 then "?" else toString (column.toNat - 1) := by
  by_cases h : column = 0
  · simp [zeroBasedColumn?, columnText, h]
  · rw [zeroBasedColumn?, if_neg h, if_neg h, columnText, toNat_sub_one h, Text.decimal_eq]

end Place

theorem Line.opening_ofHost? (position : HostPosition) :
    opening (Place.ofHost? position) = position.rowOpening := by
  unfold Place.ofHost? HostPosition.rowOpening
  cases position.file with
  | none => rfl
  | some file =>
    by_cases hf : file = ""
    · simp [hf, opening]
    · have he : file.isEmpty = false := by simpa using hf
      simp only [he, hf, Bool.false_eq_true, if_false, opening, Place.text,
        Place.toNat_zeroBasedLine, Place.columnText_zeroBasedColumn?, Text.decimal_eq,
        String.append_assoc]
      rfl

namespace Trace

variable (filter : FrameFilter)

/-- Row `k` of a trace: the call of a frame, made at the position of its caller. -/
def row (k : Nat) (host : HostFrame) (caller : Option HostFrame) : String :=
  "#" ++ toString k ++ " " ++ (caller.bind (·.position)).elim "" HostPosition.rowOpening ++
    host.routine.elim "" (·.rowCall filter.globalCodeName) ++ "\n"

section Classes

variable [CharClasses]

theorem opening_of_caller {caller : Option HostFrame}
    (h : ∀ host, caller = some host → filter.visibility host = .visible) :
    Line.opening ((caller.bind filter.frame?).bind (·.place)) =
      (caller.bind (·.position)).elim "" HostPosition.rowOpening := by
  cases caller with
  | none => rfl
  | some host =>
    obtain ⟨routine, hr⟩ := FrameFilter.exists_routine (h host rfl)
    simp only [Option.bind_some, FrameFilter.frame?, hr, Option.map_some]
    cases host.position with
    | none => rfl
    | some position => exact Line.opening_ofHost? position

theorem row_eq_numberedText (k : Nat) {host : HostFrame} {frame : Frame}
    {caller : Option HostFrame} (hf : filter.frame? host = some frame)
    (h : ∀ host, caller = some host → filter.visibility host = .visible) :
    row filter k host caller =
      Line.numberedText ⟨k, caller.bind filter.frame?, some frame⟩ ++ "\n" := by
  obtain ⟨routine, hr, rfl⟩ := FrameFilter.frame?_eq_some_iff.mp hf
  rw [Line.numberedText_called, opening_of_caller filter h, Routine.callText_calleeOf, row, hr,
    Text.decimal_eq]
  rfl

/-- The text of a trace, read off the visible host frames: one row for each, opened by the position
of the next of them. -/
theorem text_ofStack (stack : List HostFrame) :
    let v := filter.visiblePart stack
    (∀ host ∈ v, ∃ routine, host.routine = some routine) ∧
      (ofStack filter stack).text =
        String.join (v.mapIdx fun k host ↦ row filter k host v[k + 1]?) := by
  intro v
  refine ⟨fun host hv ↦ FrameFilter.exists_routine (FrameFilter.visible_of_mem_visiblePart hv), ?_⟩
  rw [text, lines, Listing.traceText_sequence]
  congr 1
  apply List.ext_getElem?
  intro k
  rw [List.getElem?_mapIdx, List.getElem?_mapIdx, getElem?_frames, getElem?_frames]
  cases hk : (filter.visiblePart stack)[k]? with
  | none => simp only [v, Option.bind_none, Option.map_none]
  | some host =>
    have hv := FrameFilter.visible_of_mem_visiblePart (List.mem_of_getElem? hk)
    obtain ⟨frame, hf, -⟩ := FrameFilter.exists_visibleFrame? hv
    have hcaller : ∀ caller, (filter.visiblePart stack)[k + 1]? = some caller →
        filter.visibility caller = .visible := by
      intro caller hc
      exact FrameFilter.visible_of_mem_visiblePart (List.mem_of_getElem? hc)
    simp only [v, Option.bind_some, hf, Option.map_some, row_eq_numberedText filter k hf hcaller]

end Classes

open CharClasses.Ascii

theorem text_ofStack_past_hidden :
    let f : Routine := { name := "f", parameters := [⟨"this", true⟩, ⟨"x", false⟩] }
    let g : Routine := { name := "g", isStatic := false, declaringType := some { name := "C" } }
    let stack : List HostFrame := [.atPosition (.ofRoutine f) "a.php" 1 1,
      .atPosition (.ofRoutine { name := "<f>b__0" }) "a.php" 2 2,
      .atPosition (.ofRoutine g) "b.php" 4 0, .ofRoutine { name := "<Main>" }]
    (∀ host ∈ FrameFilter.visiblePart {} stack, ∃ routine, host.routine = some routine) ∧
      (ofStack {} stack).text = "#0 b.php(3,?): f($x)\n#1 C->g()\n#2 \x7bmain\x7d\n" :=
  ⟨(text_ofStack {} _).1, (text_ofStack {} _).2.trans (by decide +kernel)⟩

end Trace

end ScriptTrace
