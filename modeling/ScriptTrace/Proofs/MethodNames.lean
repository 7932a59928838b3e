import ScriptTrace.Proofs.NativeVisibility
import ScriptTrace.Proofs.SelfType
import ScriptTrace.Proofs.Unambiguous

namespace ScriptTrace

theorem Callee.callText_eq_main_iff (callee : Callee) :
    callee.callText = "\x7bmain\x7d" ↔ callee.isGlobalCode = true := by
  refine ⟨fun h ↦ ?_, fun h ↦ congrArg callText (eq_globalCode h)⟩
  have hlast := getLast?_append_callText [] callee
  rw [List.nil_append, h] at hlast
  cases hg : callee.isGlobalCode with
  | true => rfl
  | false =>
    rw [hg] at hlast
    exact absurd hlast (by decide)

namespace Native

open Native.Symbol

def methodSymbol (self : List SourceName) (interface : Option (List SourceName))
    (method : SourceName) : String :=
  "<" ++ joined self ++ (interface.elim "" fun names ↦ " as " ++ joined names) ++ ">::" ++
    method.text

theorem path_methodSymbol {self : List SourceName} (hself : self ≠ [])
    (interface : Option (List SourceName)) (method : SourceName) :
    path (methodSymbol self interface method) = self.map (·.text) ++ [method.text] := by
  obtain ⟨first, rest, rfl⟩ := List.exists_cons_of_ne_nil hself
  let type : TypePath := .plain ⟨first, none⟩ (rest.map fun name ↦ ⟨name, none⟩)
  let text := (joined (first :: rest)).toList
  have hbefore : before castWord text = text := before_cast_joined (first :: rest)
  have hinner : ∃ inner, IsEnclosable inner ∧ selfType inner = text ∧
      (methodSymbol (first :: rest) interface method).toList =
        '<' :: (inner ++ ['>']) ++ ':' :: ':' :: (joined [method]).toList := by
    cases interface with
    | none =>
      have hself : selfType text = text := by
        rw [selfType_eq, hbefore]
        exact type.isBare.unsigned_eq
      exact ⟨text, isEnclosable_joined _, hself, by simp [methodSymbol, text, joined_singleton]⟩
    | some interface =>
      have hself : selfType (text ++ castWord ++ (joined interface).toList) = text :=
        (selfType_cast type _).trans hbefore
      exact ⟨_, (isEnclosable_joined _).cast (isEnclosable_joined interface), hself,
        by simp [methodSymbol, castWord, joined_singleton]⟩
  obtain ⟨inner, hi, hs, hl⟩ := hinner
  rw [path, hl, segments_enclosed_joined [method] hi, hs, segments_joined]
  simp

/-- The method of a type is taken for the top-level code of a package exactly if it is called `main`
and the path of its type is a single name. -/
theorem method_is_main_iff [CharClasses] (self : List SourceName) (hself : self ≠ [])
    (interface : Option (List SourceName)) (method : SourceName) (known : Option String) :
    let routine := routineOfSymbol (methodSymbol self interface method) known "<Main>"
    let taken := self.length = 1 ∧ method.text = "main"
    (routine.name = "<Main>" ↔ taken) ∧
    ∀ position, ∃ frame, FrameFilter.frame? {} ⟨some routine, position⟩ = some frame ∧
      (frame.callee.isGlobalCode = true ↔ taken) ∧
      (frame.callee.callText = "\x7bmain\x7d" ↔ taken) := by
  intro routine taken
  obtain ⟨outer, scope, rfl⟩ := (List.eq_nil_or_concat' self).resolve_left hself
  have hpath : path (methodSymbol (outer ++ [scope]) interface method) =
      outer.map (·.text) ++ [scope.text, method.text] := by
    rw [path_methodSymbol hself, List.map_append, List.append_assoc]
    rfl
  have htaken : taken ↔ outer.map (·.text) = [] ∧ method.text = "main" := by
    simp [taken]
  have hglobal : ∀ position, ∃ frame,
      FrameFilter.frame? {} ⟨some routine, position⟩ = some frame ∧
        (frame.callee.isGlobalCode = true ↔ taken) := by
    intro position
    refine ⟨_, rfl, ?_⟩
    dsimp only
    rw [calleeOf_routineOfSymbol hpath, htaken]
    split
    · next hmain => exact ⟨fun _ ↦ hmain, fun _ ↦ rfl⟩
    · next hmain => exact ⟨nofun, fun ht ↦ absurd ht hmain⟩
  refine ⟨?_, fun position ↦ ?_⟩
  · have hne : method.text ≠ "<Main>" := by
      rintro he
      exact method.isPlain.2 '<' (by decide) (he ▸ by decide)
    have hroutine : routine.name = if outer.map (·.text) = [] ∧ method.text = "main" then "<Main>"
        else method.text := congrArg Routine.name (routineOfSymbol_of_concat hpath)
    rw [htaken, hroutine]
    split
    · next hmain => exact ⟨fun _ ↦ hmain, fun _ ↦ rfl⟩
    · next hmain => exact ⟨fun he ↦ absurd he hne, fun ht ↦ absurd ht hmain⟩
  · obtain ⟨frame, hf, hg⟩ := hglobal position
    exact ⟨frame, hf, hg, frame.callee.callText_eq_main_iff.trans hg⟩

open CharClasses.Ascii

theorem method_is_main_iff_of_job :
    let self : List SourceName := [{ text := "app" }, { text := "Job" }]
    let method : SourceName := { text := "main" }
    let routine := routineOfSymbol "<app::Job>::main" (some "app") "<Main>"
    self ≠ [] ∧ methodSymbol self none method = "<app::Job>::main" ∧ routine.name ≠ "<Main>" ∧
      ∃ frame, FrameFilter.frame? {} ⟨some routine, none⟩ = some frame ∧
        frame.callee.isGlobalCode = false ∧ frame.callee.callText ≠ "\x7bmain\x7d" := by
  intro self method routine
  have hself : self ≠ [] := List.cons_ne_nil _ _
  have hsymbol : methodSymbol self none method = "<app::Job>::main" := rfl
  have htaken : ¬(self.length = 1 ∧ method.text = "main") := by decide
  obtain ⟨hname, hframe⟩ := method_is_main_iff self hself none method (some "app")
  obtain ⟨frame, hf, hglobal, hcall⟩ := hframe none
  exact ⟨hself, hsymbol, mt hname.mp htaken, frame, hf,
    Bool.eq_false_iff.mpr (mt hglobal.mp htaken), mt hcall.mp htaken⟩

/-- The method `main` of a primitive type is shown as the top-level code of a package. -/
theorem main_of_primitive_shows_as_globalCode :
    let symbol := "<u8 as app::Task>::main"
    let host : HostFrame := ⟨some (routineOfSymbol symbol none "<Main>"), none⟩
    (∃ (self interface : List SourceName) (method : SourceName), self ≠ [] ∧
      methodSymbol self (some interface) method = symbol) ∧
    (routineOfSymbol symbol none "<Main>").name = "<Main>" ∧
    FrameFilter.visibility {} host = .visible ∧
    ∃ frame, FrameFilter.frame? {} host = some frame ∧ frame.callee.isGlobalCode = true ∧
      frame.callee.callText = "\x7bmain\x7d" := by
  intro symbol host
  let self : List SourceName := [{ text := "u8" }]
  let interface : List SourceName := [{ text := "app" }, { text := "Task" }]
  have hpath : path symbol = [] ++ ["u8", "main"] := by decide +kernel
  have hroutine : routineOfSymbol symbol none "<Main>" = _ :=
    routineOfSymbol_of_concat hpath
  refine ⟨⟨self, interface, { text := "main" }, List.cons_ne_nil _ _, rfl⟩, ?_, ?_,
    _, rfl, ?_, ?_⟩
  · rw [hroutine]
    rfl
  · rw [visibility_routineOfSymbol exactOnAscii, hpath]
    decide +kernel
  · dsimp only
    rw [calleeOf_routineOfSymbol hpath]
    rfl
  · dsimp only
    rw [calleeOf_routineOfSymbol hpath]
    rfl

end Native

end ScriptTrace
