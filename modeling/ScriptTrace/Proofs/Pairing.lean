import ScriptTrace.Trace

namespace ScriptTrace

theorem Text.decimal_eq (n : Nat) : Text.decimal n = toString n :=
  Nat.toString_eq_ofList_toDigits.symm

namespace Line

theorem sequenceFrom_eq (order : Int) (called : Option Frame) (frames : List Frame) :
    sequenceFrom order called frames = ⟨order, frames[0]?, called⟩ ::
      frames.mapIdx fun k frame ↦ ⟨order + 1 + k, frames[k + 1]?, some frame⟩ := by
  induction frames generalizing order called with
  | nil => rfl
  | cons frame rest ih =>
    have hshift : ∀ k : Nat, order + 1 + 1 + (k : Int) = order + 1 + ((k + 1 : Nat) : Int) := by
      intro k
      omega
    simp only [sequenceFrom, ih, hshift, List.mapIdx_cons, List.getElem?_cons_zero,
      List.getElem?_cons_succ, Int.natCast_zero, Int.add_zero]

/-- The line of order `k` takes its callee from frame `k` and its place from the frame after it. -/
theorem sequence_eq (frames : List Frame) :
    sequence frames = ⟨-1, frames[0]?, none⟩ ::
      frames.mapIdx fun k frame ↦ ⟨k, frames[k + 1]?, some frame⟩ := by
  rw [sequence, sequenceFrom_eq]
  simp only [Int.reduceNeg, Int.reduceAdd, Int.zero_add]

theorem map_tail_sequence {β : Type} (f : Line → β) (frames : List Frame) :
    (sequence frames).tail.map f = frames.mapIdx fun k frame ↦
      f ⟨k, frames[k + 1]?, some frame⟩ := by
  rw [sequence_eq, List.tail_cons, List.mapIdx_eq_zipIdx_map, List.mapIdx_eq_zipIdx_map,
    List.map_map]
  rfl

def opening : Option Place → String
  | none => ""
  | some place => place.text ++ ": "

theorem plainText_of_called {line : Line} {frame : Frame} (h : line.called = some frame) :
    line.plainText = opening line.place ++ frame.callee.callText := by
  cases hp : line.place with
  | none => simp [plainText, placeText, callText, hasPlace, h, hp, opening]
  | some place => simp [plainText, placeText, callText, hasPlace, h, hp, opening,
      String.append_assoc]

theorem numberedText_called (k : Nat) (caller : Option Frame) (frame : Frame) :
    numberedText ⟨k, caller, some frame⟩ = "#" ++ Text.decimal k ++ " " ++
      opening (caller.bind (·.place)) ++ frame.callee.callText := by
  rw [numberedText, plainText_of_called rfl, ← String.append_assoc]
  rfl

end Line

namespace Listing

theorem traceText_eq (lines : List Line) : traceText lines = numberedLines lines.tail := by
  have hone : sum? 1 0 = some 1 := by decide
  have htail : traceTextFrom? lines 0 = some (numberedLines lines.tail) := by
    rw [traceTextFrom?, hone, Option.map_some, UInt64.toNat_one, List.drop_one]
  exact Option.get_of_eq_some _ htail

theorem traceText_sequence (frames : List Frame) :
    traceText (Line.sequence frames) = String.join (frames.mapIdx fun k frame ↦
      Line.numberedText ⟨k, frames[k + 1]?, some frame⟩ ++ "\n") := by
  rw [traceText_eq, numberedLines, Line.map_tail_sequence]

end Listing

end ScriptTrace
