import ScriptTrace.Proofs.Pairing
import Mathlib.Data.List.Basic

namespace ScriptTrace

theorem Callee.callText_eq (callee : Callee) :
    callee.callText = callee.qualifiedName ++
      (if callee.isGlobalCode then "" else "(" ++ callee.parametersText ++ ")") := by
  cases callee with
  | globalCode => rfl
  | routine name owner isStatic parameters =>
    simp [callText, isGlobalCode, String.append_assoc]

namespace Record

def placeEntries (place : Place) : List (String × RecordValue) :=
  [("file", .text place.file), ("line", .number place.line.toNat)] ++
    place.column.toList.map fun column ↦ ("column", .number column.toNat)

def calleeEntries (callee : Callee) : List (String × RecordValue) :=
  ("function", .text callee.name) ::
    callee.owner.elim [] fun owner ↦ [("class", .text owner), ("type", .text callee.operator)]

theorem put_of_notMem {key : String} {entries : List (String × RecordValue)}
    (h : key ∉ entries.map (·.1)) (value : RecordValue) :
    put key value entries = entries ++ [(key, value)] := by
  induction entries with
  | nil => rfl
  | cons entry rest ih =>
    simp only [List.map_cons, List.mem_cons, not_or] at h
    rw [put, if_neg (Ne.symm h.1), ih h.2, List.cons_append]

theorem entries_insertPlace (place : Place) :
    (empty.insertPlace place).entries = placeEntries place := by
  obtain ⟨file, line, column⟩ := place
  cases column <;> rfl

theorem entries_insertCallee {record : Record} (hf : "function" ∉ record.keys)
    (hc : "class" ∉ record.keys) (ht : "type" ∉ record.keys) (callee : Callee) :
    (record.insertCallee callee).entries = record.entries ++ calleeEntries callee := by
  unfold keys at hf hc ht
  unfold insertCallee calleeEntries insert
  cases callee.owner with
  | none => exact put_of_notMem hf _
  | some owner =>
    have hfunction := put_of_notMem hf (.text callee.name)
    have hclass : put "class" (.text owner) (record.entries ++ [("function", .text callee.name)]) =
        _ := put_of_notMem (by simpa using hc) _
    simp only [hfunction, hclass]
    rw [put_of_notMem (by simpa using ht)]
    simp

theorem entries_ofLine (line : Line) :
    (ofLine line).entries =
      line.place.elim [] placeEntries ++ line.called.elim [] (calleeEntries ·.callee) := by
  -- No key of the place is one of the callee, whose entries are thus all put at the end.
  have hkeys : ∀ place key, key ∈ (empty.insertPlace place).keys →
      key = "file" ∨ key = "line" ∨ key = "column" := by
    intro place key hk
    rw [keys, entries_insertPlace] at hk
    cases hc : place.column <;> simp [placeEntries, hc] at hk <;> tauto
  unfold ofLine
  cases line.place with
  | none =>
    cases line.called with
    | none => rfl
    | some frame => exact entries_insertCallee (by decide) (by decide) (by decide) frame.callee
  | some place =>
    cases line.called with
    | none => simpa using entries_insertPlace place
    | some frame =>
      rw [Option.elim_some, Option.elim_some, ← entries_insertPlace place]
      refine entries_insertCallee ?_ ?_ ?_ frame.callee <;> intro hk <;>
        have h := hkeys place _ hk <;> revert h <;> decide

def shown (record : Record) (key : String) : String :=
  (record.get? key).elim "" RecordValue.display

def openingText (record : Record) : String :=
  if record.contains "file" then
    record.shown "file" ++ "(" ++ record.shown "line" ++ "," ++
      (if record.contains "column" then record.shown "column" else "?") ++ "): "
  else ""

def calleeText (record : Record) : String :=
  record.shown "class" ++ record.shown "type" ++ record.shown "function"

variable {line : Line} {frame : Frame}

theorem get?_function (h : line.called = some frame) :
    (ofLine line).get? "function" = some (.text frame.callee.name) := by
  rw [get?, entries_ofLine, h]
  rcases line.place with _ | ⟨file, line, _ | column⟩ <;> rfl

theorem get?_class (h : line.called = some frame) :
    (ofLine line).get? "class" = frame.callee.owner.map .text := by
  rw [get?, entries_ofLine, h]
  cases ho : frame.callee.owner <;> rcases line.place with _ | ⟨file, line, _ | column⟩ <;>
    simp [placeEntries, calleeEntries, ho, List.lookup_cons]

theorem get?_type (h : line.called = some frame) :
    (ofLine line).get? "type" = frame.callee.owner.map fun _ ↦ .text frame.callee.operator := by
  rw [get?, entries_ofLine, h]
  cases ho : frame.callee.owner <;> rcases line.place with _ | ⟨file, line, _ | column⟩ <;>
    simp [placeEntries, calleeEntries, ho, List.lookup_cons]

theorem calleeText_ofLine (h : line.called = some frame) :
    (ofLine line).calleeText = frame.callee.qualifiedName := by
  simp only [calleeText, shown, get?_class h, get?_type h, get?_function h, Callee.qualifiedName]
  cases frame.callee.owner <;> simp [RecordValue.display]

theorem openingText_ofLine (h : line.called = some frame) :
    (ofLine line).openingText = Line.opening line.place := by
  simp only [openingText, contains, shown, get?, entries_ofLine, h]
  rcases line.place with _ | ⟨file, number, _ | column⟩ <;>
    cases ho : frame.callee.owner <;>
    simp [placeEntries, calleeEntries, ho, List.lookup_cons, Line.opening, Place.text,
      Place.columnText, RecordValue.display, Text.signedDecimal, String.append_assoc]

theorem numberedText_eq (h : line.called = some frame) :
    line.numberedText = "#" ++ Text.signedDecimal line.order ++ " " ++
      (ofLine line).openingText ++ (ofLine line).calleeText ++
      (if frame.callee.isGlobalCode then "" else "(" ++ frame.callee.parametersText ++ ")") := by
  rw [Line.numberedText, Line.plainText_of_called h, openingText_ofLine h, calleeText_ofLine h,
    Callee.callText_eq]
  simp only [String.append_assoc]

end Record

namespace Listing

section Window

variable {skip : Int}

def upTo (limit : Option Nat) (lines : List Line) : List Line :=
  match limit with
  | none => lines
  | some limit => lines.take limit

theorem upTo_sublist (limit : Option Nat) (lines : List Line) :
    (upTo limit lines).Sublist lines := by
  cases limit with
  | none => exact List.Sublist.refl _
  | some limit => exact List.take_sublist limit lines

theorem records_of_neg (h : skip < 0) (lines : List Line) (limit : Option Nat) :
    records lines skip limit = .error (.invalidArgument "skip" skip) := if_pos h

theorem records_of_nonneg (h : 0 ≤ skip) (lines : List Line) (limit : Option Nat) :
    records lines skip limit =
      .ok ((upTo limit ((lines.drop 1).dropLast.drop skip.toNat)).map Record.ofLine) := by
  rw [records, if_neg (Int.not_lt.mpr h)]
  cases limit <;> rfl

/-- Neither the first line nor the last has a record. -/
theorem exists_line_of_mem_records {lines : List Line} {limit : Option Nat} {listed : List Record}
    (h : records lines skip limit = .ok listed) {record : Record} (hm : record ∈ listed) :
    ∃ line ∈ (lines.drop 1).dropLast, record = Record.ofLine line := by
  by_cases hneg : skip < 0
  · rw [records_of_neg hneg] at h
    cases h
  · obtain rfl := Except.ok.inj ((records_of_nonneg (Int.not_lt.mp hneg) lines limit).symm.trans h)
    obtain ⟨line, hl, rfl⟩ := List.mem_map.mp hm
    exact ⟨line, List.mem_of_mem_drop ((upTo_sublist limit _).subset hl), rfl⟩

end Window

theorem dropLast_sequence (frames : List Frame) :
    ((Line.sequence frames).drop 1).dropLast = frames.dropLast.mapIdx fun k frame ↦
      ⟨k, frames[k + 1]?, some frame⟩ := by
  rw [Line.sequence_eq, List.drop_one, List.tail_cons]
  apply List.ext_getElem?
  intro k
  simp only [List.getElem?_dropLast, List.getElem?_mapIdx, List.length_mapIdx]
  split <;> rfl

theorem records_sequence (frames : List Frame) :
    records (Line.sequence frames) 0 none = .ok (frames.dropLast.mapIdx fun k frame ↦
      Record.ofLine ⟨k, frames[k + 1]?, some frame⟩) := by
  have h : records (Line.sequence frames) 0 none =
      .ok (((Line.sequence frames).drop 1).dropLast.map Record.ofLine) := rfl
  rw [h, dropLast_sequence, List.mapIdx_eq_zipIdx_map, List.mapIdx_eq_zipIdx_map, List.map_map]
  rfl

theorem drop_sequence_concat (frames : List Frame) (frame : Frame) :
    ∃ last : Line, last.place = none ∧ (Line.sequence (frames ++ [frame])).drop 1 =
      ((Line.sequence (frames ++ [frame])).drop 1).dropLast ++ [last] := by
  refine ⟨⟨frames.length, none, some frame⟩, rfl, ?_⟩
  rw [dropLast_sequence, Line.sequence_eq, List.drop_one, List.tail_cons, List.mapIdx_concat,
    List.dropLast_concat, List.getElem?_eq_none (by simp)]

/-- The records and the rows of a trace are two renderings of the same calls. There is one row more,
for the last line. -/
theorem records_match_rows (frames : List Frame) :
    ∃ records, Listing.records (Line.sequence frames) 0 none = .ok records ∧
      records.length = frames.length - 1 ∧
      (∀ k < frames.length - 1, ∃ record line frame, records[k]? = some record ∧
        (Line.sequence frames)[k + 1]? = some line ∧ frames[k]? = some frame ∧
        record.contains "class" = record.contains "type" ∧ record.contains "function" = true ∧
        line.numberedText = "#" ++ toString k ++ " " ++ record.openingText ++ record.calleeText ++
          (if frame.callee.isGlobalCode then ""
            else "(" ++ String.intercalate ", " (frame.callee.parameters.map ("$" ++ ·)) ++ ")")) ∧
      (0 < frames.length → ∃ listed last, (Line.sequence frames).drop 1 = listed ++ [last] ∧
        listed.length = records.length ∧ last.place = none ∧
        traceText (Line.sequence frames) =
          String.join (listed.map (·.numberedText ++ "\n")) ++ (last.numberedText ++ "\n")) := by
  refine ⟨_, records_sequence frames, by simp, ?_, ?_⟩
  · intro k hk
    have hk' : k < frames.length := by omega
    have hlast : frames.dropLast[k]? = some frames[k] := by
      rw [List.getElem?_dropLast, if_pos hk, List.getElem?_eq_getElem hk']
    have hf : frames[k]? = some frames[k] := List.getElem?_eq_getElem hk'
    let line : Line := ⟨k, frames[k + 1]?, some frames[k]⟩
    have hc : line.called = some frames[k] := rfl
    refine ⟨Record.ofLine line, line, frames[k], ?_, ?_, hf, ?_, ?_, ?_⟩
    · rw [List.getElem?_mapIdx, hlast, Option.map_some]
    · rw [Line.sequence_eq, List.getElem?_cons_succ, List.getElem?_mapIdx, hf, Option.map_some]
    · rw [Record.contains, Record.contains, Record.get?_class hc, Record.get?_type hc,
        Option.isSome_map, Option.isSome_map]
    · rw [Record.contains, Record.get?_function hc, Option.isSome_some]
    · rw [Record.numberedText_eq hc]
      have hn : Text.signedDecimal line.order = toString k := Text.decimal_eq k
      rw [hn]
      rfl
  · intro hpos
    obtain ⟨init, frame, rfl⟩ :=
      (List.eq_nil_or_concat' frames).resolve_left (List.ne_nil_of_length_pos hpos)
    obtain ⟨last, hp, hd⟩ := drop_sequence_concat init frame
    refine ⟨_, last, hd, ?_, hp, ?_⟩
    · rw [dropLast_sequence, List.length_mapIdx, List.length_mapIdx]
    · rw [traceText_eq, ← List.drop_one, hd, numberedLines, List.map_append, String.join_append]
      simp

theorem records_match_rows_of_three_calls :
    let f : Frame := ⟨none, .routine "f" none true ["x"]⟩
    let g : Frame := ⟨some ⟨"a.php", 3, none⟩, .routine "g" (some "C") false ["y"]⟩
    let frames : List Frame := [f, g, ⟨some ⟨"b.php", 4, some 2⟩, .globalCode⟩]
    1 < frames.length - 1 ∧ 0 < frames.length ∧
      ∃ records record listed last, Listing.records (Line.sequence frames) 0 none = .ok records ∧
        records.length = 2 ∧ records[1]? = some record ∧
        "#1 b.php(4,2): C->g($y)" =
          "#" ++ toString 1 ++ " " ++ record.openingText ++ record.calleeText ++
            ("(" ++ String.intercalate ", " ["$" ++ "y"] ++ ")") ∧
        (Line.sequence frames).drop 1 = listed ++ [last] ∧ listed.length = 2 ∧
        last.place = none := by
  intro f g frames
  obtain ⟨records, hr, hlength, hrows, hlast⟩ := records_match_rows frames
  obtain ⟨record, line, frame, hrecord, hline, hframe, -, -, htext⟩ := hrows 1 (by decide)
  obtain ⟨listed, last, hdrop, hlisted, hplace, -⟩ := hlast (by decide)
  have hrow : line.numberedText = "#1 b.php(4,2): C->g($y)" := by
    cases hline
    decide +kernel
  refine ⟨by decide, by decide, records, record, listed, last, hr, hlength, hrecord, ?_, hdrop,
    hlisted.trans hlength, hplace⟩
  cases hframe
  exact hrow.symm.trans htext

end Listing

end ScriptTrace
