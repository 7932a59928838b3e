import ScriptTrace.Proofs.BannerText
import ScriptTrace.Proofs.PairedLines
import Mathlib.Data.List.Nodup
import Mathlib.Data.List.Perm.Subperm

namespace ScriptTrace

namespace Record

section Entries

variable {entries : List (String × RecordValue)}

theorem lookup_eq_some_iff_mem (h : (entries.map (·.1)).Nodup) {key : String}
    {value : RecordValue} : entries.lookup key = some value ↔ (key, value) ∈ entries := by
  induction entries with
  | nil => simp
  | cons entry rest ih =>
    obtain ⟨present, old⟩ := entry
    rw [List.map_cons, List.nodup_cons] at h
    by_cases hk : key = present
    · subst hk
      have hrest : (key, value) ∉ rest := fun hm ↦ h.1 (List.mem_map.mpr ⟨_, hm, rfl⟩)
      simp [hrest, eq_comm]
    · simp [List.lookup_cons, beq_eq_false_iff_ne.mpr hk, hk, ih h.2]

theorem lookup_eq_none_of_notMem {key : String} (h : key ∉ entries.map (·.1)) :
    entries.lookup key = none := by
  refine List.lookup_eq_none_iff.mpr fun entry he ↦ bne_iff_ne.mpr fun hk ↦ h ?_
  exact hk ▸ List.mem_map_of_mem he

theorem eq_filterMap_lookup {order : List String} (h : (entries.map (·.1)).Sublist order)
    (hn : order.Nodup) :
    entries = order.filterMap fun key ↦ (entries.lookup key).map (key, ·) := by
  induction order generalizing entries with
  | nil =>
    rw [List.sublist_nil, List.map_eq_nil_iff] at h
    rw [h, List.filterMap_nil]
  | cons key order ih =>
    rw [List.nodup_cons] at hn
    rcases List.sublist_cons_iff.mp h with h | ⟨keys, hkeys, h⟩
    · have hkey := lookup_eq_none_of_notMem fun hm ↦ hn.1 (h.subset hm)
      rw [List.filterMap_cons, hkey]
      exact ih h hn.2
    · obtain ⟨⟨present, value⟩, rest, rfl, rfl, rfl⟩ := List.map_eq_cons_iff.mp hkeys
      have hrest :
          (order.filterMap fun key ↦ (((present, value) :: rest).lookup key).map (key, ·)) =
          order.filterMap fun key ↦ (rest.lookup key).map (key, ·) := by
        refine List.filterMap_congr fun key hk ↦ ?_
        have hne : key ≠ present := fun he ↦ hn.1 (he ▸ hk)
        rw [List.lookup_cons, beq_eq_false_iff_ne.mpr hne]
      rw [List.filterMap_cons, hrest, ← ih h hn.2]
      simp

end Entries

section Equality

variable {record other : Record}

theorem contains_iff_mem_keys (record : Record) (key : String) :
    record.contains key = true ↔ key ∈ record.keys := by
  rw [contains, get?, List.lookup_isSome_iff, keys, List.mem_map]
  exact exists_congr fun entry ↦ and_congr_right fun _ ↦ beq_iff_eq.trans eq_comm

theorem agrees_iff_perm (h : record.keys.Nodup) (h' : other.keys.Nodup) :
    record.agrees other = true ↔ record.entries.Perm other.entries := by
  have hmem : (∀ entry ∈ record.entries, other.get? entry.1 = some entry.2) ↔
      record.entries ⊆ other.entries :=
    forall₂_congr fun entry _ ↦ lookup_eq_some_iff_mem h'
  rw [agrees, Bool.and_eq_true, decide_eq_true_eq, List.all_eq_true]
  simp only [decide_eq_true_eq]
  rw [hmem]
  constructor
  · rintro ⟨hsize, hsub⟩
    exact ((List.Nodup.of_map _ h).subperm hsub).perm_of_length_le (Nat.le_of_eq hsize.symm)
  · exact fun hp ↦ ⟨hp.length_eq, hp.subset⟩

theorem get?_eq_of_perm (h : record.keys.Nodup) (hp : record.entries.Perm other.entries)
    (key : String) : record.get? key = other.get? key := by
  have h' : other.keys.Nodup := (hp.map Prod.fst).nodup h
  refine Option.ext fun value ↦ ?_
  exact (lookup_eq_some_iff_mem h).trans (hp.mem_iff.trans (lookup_eq_some_iff_mem h').symm)

end Equality

def placeKeys : List String := ["file", "line", "column"]

def calleeKeys : List String := ["function", "class", "type"]

section OfLine

variable (line : Line)

theorem keys_placeEntries_sublist :
    ((line.place.elim [] placeEntries).map (·.1)).Sublist placeKeys := by
  rcases line.place with _ | ⟨file, number, _ | column⟩ <;> simp [placeEntries, placeKeys]

theorem keys_calleeEntries_sublist :
    ((line.called.elim [] (calleeEntries ·.callee)).map (·.1)).Sublist calleeKeys := by
  cases line.called with
  | none => simp
  | some frame => cases h : frame.callee.owner <;> simp [calleeEntries, calleeKeys, h]

theorem keys_ofLine_sublist : (ofLine line).keys.Sublist (placeKeys ++ calleeKeys) := by
  rw [keys, entries_ofLine, List.map_append]
  exact (keys_placeEntries_sublist line).append (keys_calleeEntries_sublist line)

variable {key : String}

theorem get?_of_notMem_calleeKeys (h : key ∉ calleeKeys) :
    (ofLine line).get? key = (line.place.elim [] placeEntries).lookup key := by
  have hcallee := lookup_eq_none_of_notMem fun hm ↦ h ((keys_calleeEntries_sublist line).subset hm)
  rw [get?, entries_ofLine, List.lookup_append, hcallee, Option.or_none]

theorem get?_of_notMem_placeKeys (h : key ∉ placeKeys) :
    (ofLine line).get? key = (line.called.elim [] (calleeEntries ·.callee)).lookup key := by
  have hplace := lookup_eq_none_of_notMem fun hm ↦ h ((keys_placeEntries_sublist line).subset hm)
  rw [get?, entries_ofLine, List.lookup_append, hplace, Option.none_or]

theorem get?_file : (ofLine line).get? "file" = line.place.map (.text ·.file) := by
  rw [get?_of_notMem_calleeKeys line (by decide)]
  cases line.place <;> rfl

theorem get?_line : (ofLine line).get? "line" = line.place.map (.number ·.line.toNat) := by
  rw [get?_of_notMem_calleeKeys line (by decide)]
  cases line.place <;> rfl

theorem get?_column :
    (ofLine line).get? "column" = line.place.bind (·.column.map (.number ·.toNat)) := by
  rw [get?_of_notMem_calleeKeys line (by decide)]
  rcases line.place with _ | ⟨file, number, _ | column⟩ <;> rfl

theorem get?_function_eq :
    (ofLine line).get? "function" = line.called.map (.text ·.callee.name) := by
  cases h : line.called with
  | none => rw [get?_of_notMem_placeKeys line (by decide), h]; rfl
  | some frame => exact get?_function h

theorem get?_class_eq :
    (ofLine line).get? "class" = line.called.bind (·.callee.owner.map .text) := by
  cases h : line.called with
  | none => rw [get?_of_notMem_placeKeys line (by decide), h]; rfl
  | some frame => exact get?_class h

theorem get?_type_eq :
    (ofLine line).get? "type" = line.called.bind fun frame ↦
      frame.callee.owner.map fun _ ↦ .text frame.callee.operator := by
  cases h : line.called with
  | none => rw [get?_of_notMem_placeKeys line (by decide), h]; rfl
  | some frame => exact get?_type h

end OfLine

def IsWord (value : RecordValue) : Prop :=
  ∃ number : Int, value = .number number ∧ 0 ≤ number ∧ number < UInt32.size

/-- The shape of a listed record: its keys are distinct and stand in one order, a key that depends
on another comes with it, and its values are in range. -/
structure IsCanonical (record : Record) : Prop where
  keys_sublist : record.keys.Sublist ["file", "line", "column", "function", "class", "type"]
  nodup : record.keys.Nodup
  line_iff_file : record.contains "line" = true ↔ record.contains "file" = true
  file_of_column : record.contains "column" = true → record.contains "file" = true
  type_iff_class : record.contains "type" = true ↔ record.contains "class" = true
  function_of_class : record.contains "class" = true → record.contains "function" = true
  file_ne_empty : ∀ value ∈ record.get? "file", ∃ file, value = .text file ∧ file ≠ ""
  line_isWord : ∀ value ∈ record.get? "line", IsWord value
  column_isWord : ∀ value ∈ record.get? "column", IsWord value
  type_is_operator : ∀ value ∈ record.get? "type", value = .text "::" ∨ value = .text "->"

theorem isWord_toNat (n : UInt32) : IsWord (.number n.toNat) :=
  ⟨n.toNat, rfl, Int.natCast_nonneg _, Int.ofNat_lt.mpr n.toNat_lt_size⟩

theorem isCanonical_ofLine {line : Line}
    (h : ∀ place, line.place = some place → place.file ≠ "") : (ofLine line).IsCanonical where
  keys_sublist := keys_ofLine_sublist line
  nodup := (keys_ofLine_sublist line).nodup (by decide)
  line_iff_file := by
    rw [contains, contains, get?_line, get?_file, Option.isSome_map, Option.isSome_map]
  file_of_column := by
    rw [contains, contains, get?_column, get?_file, Option.isSome_map]
    exact Option.isSome_of_isSome_bind
  type_iff_class := by
    rw [contains, contains, get?_type_eq, get?_class_eq]
    cases line.called <;> simp
  function_of_class := by
    rw [contains, contains, get?_class_eq, get?_function_eq, Option.isSome_map]
    exact Option.isSome_of_isSome_bind
  file_ne_empty := by
    intro value hv
    rw [get?_file] at hv
    obtain ⟨place, hp, rfl⟩ := Option.map_eq_some_iff.mp hv
    exact ⟨place.file, rfl, h place hp⟩
  line_isWord := by
    intro value hv
    rw [get?_line] at hv
    obtain ⟨place, -, rfl⟩ := Option.map_eq_some_iff.mp hv
    exact isWord_toNat place.line
  column_isWord := by
    intro value hv
    rw [get?_column] at hv
    obtain ⟨place, -, hv⟩ := Option.bind_eq_some_iff.mp hv
    obtain ⟨column, -, rfl⟩ := Option.map_eq_some_iff.mp hv
    exact isWord_toNat column
  type_is_operator := by
    intro value hv
    rw [get?_type_eq] at hv
    obtain ⟨frame, -, hv⟩ := Option.bind_eq_some_iff.mp hv
    obtain ⟨owner, -, rfl⟩ := Option.map_eq_some_iff.mp hv
    rw [Callee.operator]
    split
    · exact .inl rfl
    · exact .inr rfl

namespace IsCanonical

variable {record other : Record} (h : record.IsCanonical) (h' : other.IsCanonical)
include h h'

theorem entries_eq_iff :
    record.entries = other.entries ↔ ∀ key, record.get? key = other.get? key := by
  refine ⟨fun he key ↦ by rw [get?, he, get?], fun hget ↦ ?_⟩
  rw [eq_filterMap_lookup h.keys_sublist (by decide),
    eq_filterMap_lookup h'.keys_sublist (by decide)]
  exact List.filterMap_congr fun key _ ↦ congrArg (Option.map (key, ·)) (hget key)

theorem beq_iff_get?_eq :
    (record == other) = true ↔ ∀ key, record.get? key = other.get? key := by
  have hperm : (record == other) = true ↔ record.entries.Perm other.entries :=
    agrees_iff_perm h.nodup h'.nodup
  rw [hperm]
  refine ⟨get?_eq_of_perm h.nodup, fun hget ↦ ?_⟩
  rw [(entries_eq_iff h h').mpr hget]

end IsCanonical

def IsListed (record : Record) : Prop :=
  ∃ (frames : List Frame) (part : List Line) (skip : Int) (limit : Option Nat)
    (records : List Record), (∀ frame ∈ frames, frame.IsRead) ∧ part <:+: Line.sequence frames ∧
      Listing.records part skip limit = .ok records ∧ record ∈ records

theorem IsListed.isCanonical {record : Record} (h : record.IsListed) : record.IsCanonical := by
  obtain ⟨frames, part, skip, limit, records, hread, hpart, hrecords, hmem⟩ := h
  obtain ⟨line, hl, rfl⟩ := Listing.exists_line_of_mem_records hrecords hmem
  have hline : line ∈ Line.sequence frames :=
    hpart.subset (List.mem_of_mem_drop (List.dropLast_subset _ hl))
  refine isCanonical_ofLine fun place hp ↦ ?_
  obtain ⟨frame, hcaller, hplace⟩ := Option.bind_eq_some_iff.mp hp
  rw [Line.caller_of_mem hline] at hcaller
  exact (hread frame (List.mem_of_getElem? hcaller)).file_ne_empty hplace

/-- Listed records have one shape, so equality of two of them, which does not look at the order of
the keys, tells what their entries in order tell, and what their lookups tell. -/
theorem listed_records_canonical {record : Record} (h : record.IsListed) :
    record.IsCanonical ∧
    (∀ other : Record, other.IsListed →
      ((record == other) = true ↔ record.entries = other.entries) ∧
      ((record == other) = true ↔ ∀ key, record.get? key = other.get? key)) ∧
    (∀ key, (record.contains key = true ↔ ∃ value, record.get? key = some value) ∧
      (record.contains key = true ↔ key ∈ record.keys)) ∧
    record.size = record.keys.length := by
  refine ⟨h.isCanonical, fun other h' ↦ ?_, fun key ↦ ⟨?_, contains_iff_mem_keys record key⟩, ?_⟩
  · have hget := h.isCanonical.beq_iff_get?_eq h'.isCanonical
    exact ⟨hget.trans (h.isCanonical.entries_eq_iff h'.isCanonical).symm, hget⟩
  · rw [contains, Option.isSome_iff_exists]
  · rw [size, keys, List.length_map]

theorem listed_records_canonical_of_lambda :
    let method : Routine := { name := "f", declaringType := some { name := "C" } }
    let frames := (Trace.unfiltered {} [.atPosition (.ofRoutine method) "a.php" 4 1,
      .atPosition (.ofRoutine { name := "<lambda>" }) "a.php" 9 2,
      .atPosition (.ofRoutine { name := "<Main>" }) "b.php" 0 0]).frames
    let record := ofLine ⟨0, frames[1]?, frames[0]?⟩
    let other := ofLine ⟨1, frames[2]?, frames[1]?⟩
    record.IsListed ∧ other.IsListed ∧
      record.keys = ["file", "line", "column", "function", "class", "type"] ∧
      other.keys.Sublist ["file", "line", "column", "function", "class", "type"] ∧
      (record == other) = false ∧ record.entries ≠ other.entries := by
  intro method frames record other
  have hread : ∀ frame ∈ frames, frame.IsRead := fun _ ↦ Trace.isRead_of_mem_unfiltered
  have hrecord : record.IsListed := by
    refine ⟨frames, Line.sequence frames, 0, none, _, hread, List.infix_rfl,
      Listing.records_of_nonneg (by decide) _ _, ?_⟩
    exact List.mem_map.mpr ⟨_, by decide, rfl⟩
  have hother : other.IsListed := by
    refine ⟨frames, (Line.sequence frames).drop 1, 0, some 1, _, hread,
      (List.drop_suffix _ _).isInfix, Listing.records_of_nonneg (by decide) _ _, ?_⟩
    exact List.mem_map.mpr ⟨_, by decide, rfl⟩
  obtain ⟨-, hequal, -, -⟩ := listed_records_canonical hrecord
  obtain ⟨hcanonical, -, -, -⟩ := listed_records_canonical hother
  have hne : (record == other) = false := by decide +kernel
  refine ⟨hrecord, hother, by decide +kernel, hcanonical.keys_sublist, hne, fun he ↦ ?_⟩
  rw [← (hequal other hother).1, hne] at he
  exact Bool.false_ne_true he

end Record

end ScriptTrace
