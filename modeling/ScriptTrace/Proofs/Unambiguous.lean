import ScriptTrace.Proofs.Pairing
import ScriptTrace.Proofs.Records
import ScriptTrace.Proofs.Separators

namespace ScriptTrace

open Text

namespace Place

theorem columnText_injective : Function.Injective columnText := by
  have hmark : ∀ n, decimal n ≠ "?" := by
    intro n h
    exact notMem_decimal (c := '?') (by decide) n (by simp [h])
  rintro (_ | m) (_ | n) h
  · rfl
  · exact absurd h.symm (hmark _)
  · exact absurd h (hmark _)
  · rw [UInt32.toNat_inj.mp (decimal_injective h)]

theorem notMem_columnText {c : Char} (h : c.isDigit = false) (hm : c ≠ '?')
    (column : Option UInt32) : c ∉ (columnText column).toList := by
  cases column with
  | none => simpa [columnText] using hm
  | some column => exact notMem_decimal h _

theorem toList_text (place : Place) :
    place.text.toList = place.file.toList ++ '(' :: ((decimal place.line.toNat).toList ++
      ',' :: ((columnText place.column).toList ++ [')'])) := by
  simp [text]

/-- A place can be read back from its text, whatever its file is called. -/
theorem text_injective : Function.Injective text := by
  intro p q h
  have hnumbers : ∀ place : Place, '(' ∉ (decimal place.line.toNat).toList ++
      ',' :: ((columnText place.column).toList ++ [')']) := by
    intro place
    have hl := notMem_decimal (c := '(') (by decide) place.line.toNat
    have hc := notMem_columnText (c := '(') (by decide) (by decide) place.column
    simp [hl, hc]
  -- A file may hold parentheses and commas, so its end is the last parenthesis, not the first.
  have ht := congrArg String.toList h
  rw [toList_text, toList_text] at ht
  obtain ⟨hfile, hrest⟩ := append_cons_inj_right (hnumbers p) (hnumbers q) ht
  obtain ⟨hline, hcolumn⟩ := append_cons_inj (notMem_decimal (by decide) _)
    (notMem_decimal (by decide) _) hrest
  obtain ⟨file, line, column⟩ := p
  obtain ⟨file', line', column'⟩ := q
  obtain rfl : file = file' := String.toList_injective hfile
  obtain rfl : line = line' :=
    UInt32.toNat_inj.mp (decimal_injective (String.toList_injective hline))
  obtain rfl : column = column' :=
    columnText_injective (String.toList_injective (List.append_cancel_right hcolumn))
  rfl

end Place

namespace Callee

/-- Top-level code, or a routine all of whose names the script can spell. -/
structure IsSpelled [CharClasses] (callee : Callee) : Prop where
  owner : ∀ owner ∈ callee.owner, isIdentifier owner = true
  name : callee.isGlobalCode = true ∨ isIdentifier callee.name = true
  parameters : ∀ parameter ∈ callee.parameters, isIdentifier parameter = true

instance [CharClasses] (callee : Callee) : Decidable callee.IsSpelled :=
  decidable_of_iff ((∀ owner ∈ callee.owner, isIdentifier owner = true) ∧
      (callee.isGlobalCode = true ∨ isIdentifier callee.name = true) ∧
      ∀ parameter ∈ callee.parameters, isIdentifier parameter = true)
    ⟨fun ⟨howner, hname, hparameters⟩ ↦ ⟨howner, hname, hparameters⟩,
      fun h ↦ ⟨h.owner, h.name, h.parameters⟩⟩

/-- Callees that are the same but for the staticness of free functions. -/
def Agrees (callee other : Callee) : Prop :=
  callee.isGlobalCode = other.isGlobalCode ∧ callee.owner = other.owner ∧
    callee.name = other.name ∧ callee.parameters = other.parameters ∧
    (callee.owner.isSome = true → callee.isStatic = other.isStatic)

variable {callee other : Callee}

theorem toList_operator :
    callee.operator.toList = if callee.isStatic then [':', ':'] else ['-', '>'] := by
  cases h : callee.isStatic <;> simp [operator, h]

theorem exists_toList_operator (callee : Callee) :
    ∃ first ∈ punctuation, ∃ second, callee.operator.toList = [first, second] := by
  rw [toList_operator]
  cases callee.isStatic with
  | true => exact ⟨':', by decide, ':', rfl⟩
  | false => exact ⟨'-', by decide, '>', rfl⟩

theorem toList_qualifiedName :
    callee.qualifiedName.toList = match callee.owner with
      | none => callee.name.toList
      | some owner => owner.toList ++ (callee.operator.toList ++ callee.name.toList) := by
  unfold qualifiedName
  cases callee.owner <;> simp

theorem toList_parametersText :
    callee.parametersText.toList =
      [',', ' '].intercalate (callee.parameters.map fun name ↦ '$' :: name.toList) := by
  simp [parametersText, String.toList_intercalate, Function.comp_def]

section Classes

variable [CharClasses] (hs : SparesPunctuation)

include hs

theorem IsSpelled.notMem_qualifiedName (h : callee.IsSpelled) {c : Char}
    (hc : c ∈ ['\n', ' ', '(']) : c ∉ callee.qualifiedName.toList := by
  have hcases : c = '\n' ∨ c = ' ' ∨ c = '(' := by simpa using hc
  have hp : c ∈ punctuation := by
    rcases hcases with rfl | rfl | rfl <;> decide
  have hname : c ∉ callee.name.toList := by
    cases callee with
    | globalCode => rcases hcases with rfl | rfl | rfl <;> decide
    | routine name owner isStatic parameters =>
      exact hs.notMem (h.name.resolve_left Bool.false_ne_true) hp
  have hoperator : c ∉ callee.operator.toList := by
    rw [toList_operator]
    cases callee.isStatic <;> rcases hcases with rfl | rfl | rfl <;> decide
  rw [toList_qualifiedName]
  cases ho : callee.owner with
  | none => exact hname
  | some owner =>
    have howner := hs.notMem (h.owner owner ho) hp
    simp [howner, hoperator, hname]

theorem IsSpelled.notMem_parametersText (h : callee.IsSpelled) {c : Char}
    (hc : c ∈ ['\n', '(']) : c ∉ callee.parametersText.toList := by
  have hp : c ∈ punctuation ∧ c ∉ [',', ' '] ∧ c ≠ '$' := by
    have hcases : c = '\n' ∨ c = '(' := by simpa using hc
    rcases hcases with rfl | rfl <;> decide
  rw [toList_parametersText]
  refine notMem_intercalate hp.2.1 ?_
  intro t ht
  obtain ⟨name, hn, rfl⟩ := List.mem_map.mp ht
  simp [hp.2.2, hs.notMem (h.parameters name hn) hp.1]

theorem IsSpelled.parameters_eq (h : callee.IsSpelled) (h' : other.IsSpelled)
    (he : callee.parametersText = other.parametersText) : callee.parameters = other.parameters := by
  have hwords : ∀ {callee : Callee}, callee.IsSpelled →
      ∀ t ∈ callee.parameters.map fun name ↦ '$' :: name.toList, t ≠ [] ∧ ',' ∉ t := by
    intro callee h t ht
    obtain ⟨name, hn, rfl⟩ := List.mem_map.mp ht
    simp [hs.notMem (h.parameters name hn) (c := ',') (by decide)]
  have ht := congrArg String.toList he
  rw [toList_parametersText, toList_parametersText] at ht
  have hm := intercalate_inj (hwords h) (hwords h') ht
  refine List.map_injective_iff.mpr ?_ hm
  intro name name' hn
  exact String.toList_injective (List.cons.inj hn).2

theorem IsSpelled.notMem_name (h : callee.IsSpelled) (hg : callee.isGlobalCode = false) {c : Char}
    (hc : c ∈ punctuation) : c ∉ callee.name.toList :=
  hs.notMem (h.name.resolve_left (by simp [hg])) hc

theorem IsSpelled.isSome_owner_iff (h : callee.IsSpelled) (hg : callee.isGlobalCode = false) :
    callee.owner.isSome = true ↔
      ':' ∈ callee.qualifiedName.toList ∨ '-' ∈ callee.qualifiedName.toList := by
  have hcolon := h.notMem_name hs hg (c := ':') (by decide)
  have hdash := h.notMem_name hs hg (c := '-') (by decide)
  rw [toList_qualifiedName]
  cases callee.owner with
  | none => simp [hcolon, hdash]
  | some owner => cases hstatic : callee.isStatic <;> simp [toList_operator, hstatic]

theorem IsSpelled.isStatic_iff (h : callee.IsSpelled) (hg : callee.isGlobalCode = false)
    (ho : callee.owner.isSome = true) :
    callee.isStatic = true ↔ ':' ∈ callee.qualifiedName.toList := by
  have hcolon := h.notMem_name hs hg (c := ':') (by decide)
  obtain ⟨owner, ho⟩ := Option.isSome_iff_exists.mp ho
  have howner := hs.notMem (h.owner owner ho) (c := ':') (by decide)
  rw [toList_qualifiedName, ho]
  cases hstatic : callee.isStatic <;> simp [toList_operator, hstatic, hcolon, howner]

theorem IsSpelled.qualifiedName_eq (h : callee.IsSpelled) (h' : other.IsSpelled)
    (hg : callee.isGlobalCode = false) (hg' : other.isGlobalCode = false)
    (he : callee.qualifiedName = other.qualifiedName) :
    callee.owner = other.owner ∧ callee.name = other.name ∧
      (callee.owner.isSome = true → callee.isStatic = other.isStatic) := by
  have hsome : callee.owner.isSome = true ↔ other.owner.isSome = true := by
    rw [h.isSome_owner_iff hs hg, h'.isSome_owner_iff hs hg', he]
  have ht := congrArg String.toList he
  rw [toList_qualifiedName, toList_qualifiedName] at ht
  cases ho : callee.owner with
  | none =>
    have ho' : other.owner = none := by simpa [ho] using hsome
    rw [ho, ho'] at ht
    exact ⟨ho'.symm, String.toList_injective ht, by simp⟩
  | some owner =>
    obtain ⟨owner', ho'⟩ := Option.isSome_iff_exists.mp (hsome.mp (by simp [ho]))
    have hstatic : callee.isStatic = other.isStatic := by
      rw [Bool.eq_iff_iff, h.isStatic_iff hs hg (by simp [ho]),
        h'.isStatic_iff hs hg' (by simp [ho']), he]
    obtain ⟨first, hfirst, second, hop⟩ := callee.exists_toList_operator
    have hop' : other.operator = callee.operator := by rw [operator, operator, hstatic]
    rw [ho, ho', hop', hop] at ht
    obtain ⟨howner, hname⟩ := append_cons_inj (hs.notMem (h.owner owner ho) hfirst)
      (hs.notMem (h'.owner owner' ho') hfirst) ht
    rw [ho', String.toList_injective howner]
    exact ⟨rfl, String.toList_injective (List.cons.inj hname).2, fun _ ↦ hstatic⟩

end Classes

theorem getLast?_append_callText (text : List Char) (callee : Callee) :
    (text ++ callee.callText.toList).getLast? =
      some (if callee.isGlobalCode then '\x7d' else ')') := by
  cases callee with
  | globalCode =>
    have hend : (callText .globalCode).toList = ['\x7b', 'm', 'a', 'i', 'n'] ++ ['\x7d'] := rfl
    rw [hend, ← List.append_assoc, List.getLast?_concat]
    rfl
  | routine name owner isStatic parameters =>
    have hend : (callText (.routine name owner isStatic parameters)).toList =
        (qualifiedName (.routine name owner isStatic parameters) ++ "(" ++
          parametersText (.routine name owner isStatic parameters)).toList ++ [')'] := by
      simp [callText]
    rw [hend, ← List.append_assoc, List.getLast?_concat]
    rfl

theorem eq_globalCode (h : callee.isGlobalCode = true) : callee = .globalCode := by
  cases callee with
  | globalCode => rfl
  | routine name owner isStatic parameters => cases h

end Callee

namespace Line

theorem toList_opening (place : Option Place) :
    (opening place).toList = place.elim [] fun place ↦ place.text.toList ++ [':', ' '] := by
  cases place <;> simp [opening]

theorem opening_append_inj {place place' : Option Place} {clause clause' : List Char}
    (h : ' ' ∉ clause) (h' : ' ' ∉ clause')
    (he : (opening place).toList ++ clause = (opening place').toList ++ clause') :
    place = place' ∧ clause = clause' := by
  rw [toList_opening, toList_opening] at he
  cases place with
  | none =>
    cases place' with
    | none => exact ⟨rfl, he⟩
    | some place' =>
      have hm : ' ' ∈ clause := by
        rw [show clause = _ from he]
        simp
      exact absurd hm h
  | some place =>
    cases place' with
    | none =>
      have hm : ' ' ∈ clause' := by
        rw [show clause' = _ from he.symm]
        simp
      exact absurd hm h'
    | some place' =>
      have hs : (place.text.toList ++ [':']) ++ ' ' :: clause =
          (place'.text.toList ++ [':']) ++ ' ' :: clause' := by simpa using he
      obtain ⟨htext, hclause⟩ := append_cons_inj_right h h' hs
      have hp := Place.text_injective (String.toList_injective (List.append_cancel_right htext))
      exact ⟨congrArg some hp, hclause⟩

theorem notMem_opening {place : Option Place} (h : ∀ p ∈ place, '\n' ∉ p.file.toList) :
    '\n' ∉ (opening place).toList := by
  cases place with
  | none => simp [opening]
  | some place =>
    have hline := notMem_decimal (c := '\n') (by decide) place.line.toNat
    have hcolumn := Place.notMem_columnText (c := '\n') (by decide) (by decide) place.column
    simp [toList_opening, Place.toList_text, h place rfl, hline, hcolumn]

section Classes

variable [CharClasses] (hs : SparesPunctuation)

include hs

theorem opening_append_callText_inj {place place' : Option Place} {callee other : Callee}
    (h : callee.IsSpelled) (h' : other.IsSpelled)
    (he : opening place ++ callee.callText = opening place' ++ other.callText) :
    place = place' ∧ callee.Agrees other := by
  have hblank := h.notMem_qualifiedName hs (c := ' ') (by decide)
  have hblank' := h'.notMem_qualifiedName hs (c := ' ') (by decide)
  have ht := congrArg String.toList he
  rw [String.toList_append, String.toList_append] at ht
  -- Top-level code has no parentheses: its name ends in a brace, a routine in a parenthesis.
  have hg : callee.isGlobalCode = other.isGlobalCode := by
    have hlast := congrArg List.getLast? ht
    rw [Callee.getLast?_append_callText, Callee.getLast?_append_callText] at hlast
    cases hg : callee.isGlobalCode <;> cases hg' : other.isGlobalCode <;> simp_all
  cases hc : callee.isGlobalCode with
  | true =>
    obtain rfl := Callee.eq_globalCode hc
    obtain rfl := Callee.eq_globalCode (hg.symm.trans hc)
    obtain ⟨hp, -⟩ := opening_append_inj hblank hblank' ht
    exact ⟨hp, rfl, rfl, rfl, rfl, fun _ ↦ rfl⟩
  | false =>
    have hc' := hg.symm.trans hc
    have hparen : ∀ {callee : Callee}, callee.IsSpelled →
        '(' ∉ callee.parametersText.toList ++ [')'] := by
      intro callee h
      simp [h.notMem_parametersText hs (c := '(') (by decide)]
    have hhead : ((opening place).toList ++ callee.qualifiedName.toList) ++
          '(' :: (callee.parametersText.toList ++ [')']) =
        ((opening place').toList ++ other.qualifiedName.toList) ++
          '(' :: (other.parametersText.toList ++ [')']) := by
      simpa [Callee.callText_eq, hc, hc'] using ht
    obtain ⟨hclause, hparams⟩ := append_cons_inj_right (hparen h) (hparen h') hhead
    obtain ⟨hp, hq⟩ := opening_append_inj hblank hblank' hclause
    obtain ⟨howner, hname, hstatic⟩ := h.qualifiedName_eq hs h' hc hc' (String.toList_injective hq)
    have hparameters := h.parameters_eq hs h'
      (String.toList_injective (List.append_cancel_right hparams))
    exact ⟨hp, hg, howner, hname, hparameters, hstatic⟩

theorem notMem_callText {callee : Callee} (h : callee.IsSpelled) :
    '\n' ∉ callee.callText.toList := by
  have hname := h.notMem_qualifiedName hs (c := '\n') (by decide)
  have hparams := h.notMem_parametersText hs (c := '\n') (by decide)
  rw [Callee.callText_eq]
  cases callee.isGlobalCode <;> simp [hname, hparams]

end Classes

end Line

structure Frame.IsSpelled [CharClasses] (frame : Frame) : Prop where
  file : ∀ place ∈ frame.place, '\n' ∉ place.file.toList
  callee : frame.callee.IsSpelled

instance [CharClasses] (frame : Frame) : Decidable frame.IsSpelled :=
  decidable_of_iff ((∀ place ∈ frame.place, '\n' ∉ place.file.toList) ∧ frame.callee.IsSpelled)
    ⟨fun ⟨hfile, hcallee⟩ ↦ ⟨hfile, hcallee⟩, fun h ↦ ⟨h.file, h.callee⟩⟩

namespace Line

theorem notMem_numberedText [CharClasses] (hs : SparesPunctuation) {k : Nat}
    {caller : Option Frame} {frame : Frame} (hc : ∀ f, caller = some f → f.IsSpelled)
    (hf : frame.IsSpelled) :
    '\n' ∉ (numberedText ⟨k, caller, some frame⟩).toList := by
  have hdecimal := notMem_decimal (c := '\n') (by decide) k
  have hcall := notMem_callText hs hf.callee
  have hopening : '\n' ∉ (opening (caller.bind (·.place))).toList := by
    apply notMem_opening
    intro place hp
    obtain ⟨f, hcf, hfp⟩ := Option.bind_eq_some_iff.mp hp
    exact (hc f hcf).file place hfp
  rw [numberedText_called]
  simp [hdecimal, hcall, hopening]

end Line

namespace Trace

def rows (trace : Trace) : List (List Char) := trace.lines.tail.map (·.numberedText.toList)

theorem toList_text (trace : Trace) : trace.text.toList = trace.rows.flatMap (· ++ ['\n']) := by
  rw [text, Listing.traceText_eq, Listing.numberedLines, String.toList_join, rows,
    List.flatMap_map, List.flatMap_map]
  simp

theorem rows_eq (trace : Trace) : trace.rows = trace.frames.mapIdx fun k frame ↦
    (Line.numberedText ⟨k, trace.frames[k + 1]?, some frame⟩).toList := by
  rw [rows, lines, Line.map_tail_sequence]

section Classes

variable [CharClasses] (hs : SparesPunctuation)

include hs

theorem notMem_rows {trace : Trace} (h : ∀ frame ∈ trace.frames, frame.IsSpelled) :
    ∀ row ∈ trace.rows, '\n' ∉ row := by
  intro row hr
  rw [rows_eq] at hr
  obtain ⟨k, hk, rfl⟩ := List.mem_mapIdx.mp hr
  refine Line.notMem_numberedText hs ?_ (h _ (List.getElem_mem hk))
  intro f hf
  exact h f (List.mem_of_getElem? hf)

/-- The text of a trace tells its frames: their callees, and the places of all but the first. -/
theorem frames_of_text_eq {a b : Trace} (ha : ∀ frame ∈ a.frames, frame.IsSpelled)
    (hb : ∀ frame ∈ b.frames, frame.IsSpelled) (he : a.text = b.text) :
    a.frames.length = b.frames.length ∧
      ∀ i f g, a.frames[i]? = some f → b.frames[i]? = some g →
        f.callee.Agrees g.callee ∧ (1 ≤ i → f.place = g.place) := by
  have hrows : a.rows = b.rows := by
    have ht := congrArg String.toList he
    rw [toList_text, toList_text] at ht
    exact flatMap_terminated_inj (notMem_rows hs ha) (notMem_rows hs hb) ht
  have hlength : a.frames.length = b.frames.length := by
    simpa [rows_eq] using congrArg List.length hrows
  have hrow : ∀ k f g, a.frames[k]? = some f → b.frames[k]? = some g →
      a.frames[k + 1]?.bind (·.place) = b.frames[k + 1]?.bind (·.place) ∧
        f.callee.Agrees g.callee := by
    intro k f g hf hg
    have hk := congrArg (·[k]?) hrows
    simp only [rows_eq, List.getElem?_mapIdx, hf, hg, Option.map_some, Option.some.injEq,
      Line.numberedText_called, String.toList_append, List.append_assoc,
      List.append_cancel_left_eq] at hk
    refine Line.opening_append_callText_inj hs (ha f (List.mem_of_getElem? hf)).callee
      (hb g (List.mem_of_getElem? hg)).callee ?_
    simpa [← String.toList_inj] using hk
  refine ⟨hlength, fun i f g hf hg ↦ ⟨(hrow i f g hf hg).2, fun hi ↦ ?_⟩⟩
  obtain ⟨k, rfl⟩ : ∃ k, i = k + 1 := ⟨i - 1, by omega⟩
  have hk : k + 1 < a.frames.length := (List.getElem?_eq_some_iff.mp hf).1
  have hplace := (hrow k _ _ (List.getElem?_eq_getElem (by omega))
    (List.getElem?_eq_getElem (by omega))).1
  simpa only [hf, hg, Option.bind_some] using hplace

end Classes

open CharClasses.Ascii

/-- Two stacks under two filters with one text. The hidden frame, the name of top-level code and the
place of the first frame do not show; the file with the looks of a row is read back whole. -/
theorem frames_of_text_eq_across_filters :
    let g : Routine := { name := "g", isStatic := false, declaringType := some { name := "C" } }
    let call : HostFrame := .atPosition (.ofRoutine g) "x(1,2): \x7bmain\x7d\t#0.php" 3 0
    let f : Routine := { name := "f", parameters := [⟨"p", false⟩] }
    let f' : Routine := { name := "f", parameters := [⟨"context", true⟩, ⟨"p", false⟩] }
    let main (name : String) : HostFrame := .atPosition (.ofRoutine { name }) "index.php" 8 1
    let a := ofStack {} [.atPosition (.ofRoutine f) "a.php" 1 1, call, main "<Main>"]
    let b := ofStack { globalCodeName := "Main" } [.ofRoutine f', .unresolved, call, main "Main"]
    SparesPunctuation ∧ a.text = b.text ∧ a.frames.length = b.frames.length ∧
      ∀ i f g, a.frames[i]? = some f → b.frames[i]? = some g →
        f.callee.Agrees g.callee ∧ (1 ≤ i → f.place = g.place) := by
  intro g call f f' main a b
  have ha : ∀ frame ∈ a.frames, frame.IsSpelled := by decide +kernel
  have hb : ∀ frame ∈ b.frames, frame.IsSpelled := by decide +kernel
  have he : a.text = b.text := by decide +kernel
  exact ⟨.ascii, he, frames_of_text_eq .ascii ha hb he⟩

end Trace

end ScriptTrace
