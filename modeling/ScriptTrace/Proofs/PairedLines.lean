import ScriptTrace.Proofs.BacktraceWindow

namespace ScriptTrace.Line

def delay (count : Nat) (line : Line) : Line := { line with order := line.order + count }

theorem getElem?_sequence_succ (frames : List Frame) (k : Nat) :
    (sequence frames)[k + 1]? =
      frames[k]?.map fun frame ↦ ⟨k, frames[k + 1]?, some frame⟩ := by
  rw [sequence_eq, List.getElem?_cons_succ, List.getElem?_mapIdx]

theorem map_order_sequenceFrom (order : Int) (called : Option Frame) (frames : List Frame) :
    (sequenceFrom order called frames).map (·.order) =
      (List.range (frames.length + 1)).map fun k : Nat ↦ order + k := by
  induction frames generalizing order called with
  | nil => simp [sequenceFrom]
  | cons frame rest ih =>
    have hshift : ∀ k : Nat, order + 1 + (k : Int) = order + ((k + 1 : Nat) : Int) := by
      intro k
      omega
    rw [List.length_cons, List.range_succ_eq_map, List.map_cons, List.map_map, sequenceFrom,
      List.map_cons, ih]
    simp only [hshift, Int.natCast_zero, Int.add_zero, Function.comp_def, Nat.succ_eq_add_one]

theorem filterMap_caller_sequenceFrom (order : Int) (called : Option Frame)
    (frames : List Frame) : (sequenceFrom order called frames).filterMap (·.caller) = frames := by
  induction frames generalizing order called with
  | nil => rfl
  | cons frame rest ih => exact congrArg (frame :: ·) (ih (order + 1) (some frame))

theorem filterMap_called_sequenceFrom (order : Int) (called : Option Frame)
    (frames : List Frame) :
    (sequenceFrom order called frames).filterMap (·.called) = called.toList ++ frames := by
  induction frames generalizing order called with
  | nil => cases called <;> rfl
  | cons frame rest ih =>
    have hrest : (sequenceFrom (order + 1) (some frame) rest).filterMap (·.called) =
        frame :: rest := ih (order + 1) (some frame)
    rw [sequenceFrom, List.filterMap_cons, hrest]
    cases called <;> rfl

theorem order_lt_of_mem_sequenceFrom {order : Int} {called : Option Frame} {frames : List Frame}
    {line : Line} (h : line ∈ sequenceFrom order called frames) :
    line.order < order + frames.length + 1 := by
  have hm := List.mem_map_of_mem (f := (·.order)) h
  rw [map_order_sequenceFrom] at hm
  obtain ⟨k, hk, he⟩ := List.mem_map.mp hm
  have hk := List.mem_range.mp hk
  omega

theorem filter_le_sequenceFrom (first order : Int) (called : Option Frame)
    (frames : List Frame) :
    (sequenceFrom order called frames).filter (first ≤ ·.order) =
      (sequenceFrom order called frames).drop (first - order).toNat := by
  have hwindow : (sequenceFrom order called frames).filter (first ≤ ·.order) =
      window first (order + frames.length + 1) (sequenceFrom order called frames) :=
    List.filter_congr fun line hl ↦ by simp [order_lt_of_mem_sequenceFrom hl]
  have hlength : (sequenceFrom order called frames).length ≤
      (order + frames.length + 1 - order).toNat := by
    rw [length_sequenceFrom]
    omega
  rw [hwindow, window_sequenceFrom, List.take_of_length_le hlength]

theorem sequenceFrom_add (order : Int) (count : Nat) (called : Option Frame)
    (frames : List Frame) :
    sequenceFrom (order + count) called frames =
      (sequenceFrom order called frames).map (delay count) := by
  induction frames generalizing order called with
  | nil => rfl
  | cons frame rest ih =>
    have hnext : order + count + 1 = order + 1 + count := by omega
    rw [sequenceFrom, hnext, ih, sequenceFrom, List.map_cons]
    rfl

theorem drop_sequenceFrom_append (order : Int) (called : Option Frame) (a b : List Frame) :
    (sequenceFrom order called (a ++ b)).drop (a.length + 1) =
      (sequenceFrom (order + a.length) none b).drop 1 := by
  induction a generalizing order called with
  | nil => cases b <;> simp [sequenceFrom]
  | cons frame rest ih =>
    have hnext : order + 1 + (rest.length : Int) = order + (rest.length + 1 : Nat) := by omega
    rw [List.cons_append, sequenceFrom, List.length_cons, List.drop_succ_cons, ih, hnext]

section Pair

variable {frames : List Frame} {line : Line}

theorem eq_of_mem_sequence (h : line ∈ sequence frames) :
    line = ⟨-1, frames[0]?, none⟩ ∨
      ∃ k, ∃ hk : k < frames.length, line = ⟨k, frames[k + 1]?, some frames[k]⟩ := by
  rw [sequence_eq] at h
  refine (List.mem_cons.mp h).imp_right fun h ↦ ?_
  obtain ⟨k, hk, rfl⟩ := List.mem_mapIdx.mp h
  exact ⟨k, hk, rfl⟩

theorem order_bounds_of_mem (h : line ∈ sequence frames) :
    -1 ≤ line.order ∧ line.order < frames.length := by
  have hlt := order_lt_of_mem_sequenceFrom h
  exact ⟨le_order_of_mem_sequenceFrom h, by omega⟩

theorem caller_of_mem (h : line ∈ sequence frames) :
    line.caller = frames[(line.order + 1).toNat]? := by
  rcases eq_of_mem_sequence h with rfl | ⟨k, hk, rfl⟩ <;> rfl

theorem called_of_mem (h : line ∈ sequence frames) :
    line.called = if line.order = -1 then none else frames[line.order.toNat]? := by
  rcases eq_of_mem_sequence h with rfl | ⟨k, hk, rfl⟩
  · rfl
  · have hne : (k : Int) ≠ -1 := by omega
    exact ((if_neg hne).trans (List.getElem?_eq_getElem hk)).symm

theorem caller_eq_none_iff (h : line ∈ sequence frames) :
    line.caller = none ↔ line.order = frames.length - 1 := by
  have hb := order_bounds_of_mem h
  rw [caller_of_mem h, List.getElem?_eq_none_iff]
  omega

theorem called_eq_none_iff (h : line ∈ sequence frames) :
    line.called = none ↔ line.order = -1 := by
  have hb := order_bounds_of_mem h
  rw [called_of_mem h]
  split
  · next he => exact iff_of_true rfl he
  · next he =>
    rw [List.getElem?_eq_none_iff]
    omega

end Pair

theorem getElem?_sequence_bind_caller (frames : List Frame) (k : Nat) :
    (sequence frames)[k]?.bind (·.caller) = frames[k]? := by
  cases k with
  | zero => rw [sequence_eq, List.getElem?_cons_zero, Option.bind_some]
  | succ k =>
    rw [getElem?_sequence_succ, Option.bind_map]
    by_cases hk : k < frames.length
    · rw [List.getElem?_eq_getElem hk]
      rfl
    · rw [List.getElem?_eq_none (by omega), List.getElem?_eq_none (by omega)]
      rfl

theorem getElem?_sequence_bind_called (frames : List Frame) (k : Nat) :
    (sequence frames)[k + 1]?.bind (·.called) = frames[k]? := by
  rw [getElem?_sequence_succ, Option.bind_map]
  exact Option.bind_fun_some _

theorem filter_sequence_append (frames older : List Frame) :
    (sequence (frames ++ older)).filter ((frames.length : Int) ≤ ·.order) =
      ((sequence older).filter (0 ≤ ·.order)).map (delay frames.length) := by
  have hfirst : ((frames.length : Int) - -1).toNat = frames.length + 1 := by omega
  have hzero : ((0 : Int) - -1).toNat = 1 := by decide
  rw [sequence, filter_le_sequenceFrom, hfirst, drop_sequenceFrom_append, sequenceFrom_add,
    sequence, filter_le_sequenceFrom, hzero, List.map_drop]

/-- The lines of a stack, one more than its frames, are numbered from −1 on. Each takes its place
from the frame after its order and its callee from the frame of its order; so every frame gives one
place, and gives its callee one line later. The calls of older frames do not depend on the frames
before them but for their orders. -/
theorem sequence_pairs_neighbours (frames : List Frame) :
    (sequence frames).length = frames.length + 1 ∧
    (sequence frames).map (·.order) =
      ((List.range (frames.length + 1)).map fun k : Nat ↦ -1 + (k : Int)) ∧
    (∀ line ∈ sequence frames,
      line.caller = frames[(line.order + 1).toNat]? ∧
      (line.caller = none ↔ line.order = frames.length - 1) ∧
      line.called = (if line.order = -1 then none else frames[line.order.toNat]?) ∧
      (line.called = none ↔ line.order = -1)) ∧
    (sequence frames).filterMap (·.caller) = frames ∧
    (sequence frames).filterMap (·.called) = frames ∧
    (∀ k : Nat, (sequence frames)[k]?.bind (·.caller) = frames[k]? ∧
      (sequence frames)[k + 1]?.bind (·.called) = frames[k]?) ∧
    ∀ older : List Frame,
      (sequence (frames ++ older)).filter ((frames.length : Int) ≤ ·.order) =
        ((sequence older).filter (0 ≤ ·.order)).map (delay frames.length) := by
  refine ⟨length_sequence frames, map_order_sequenceFrom _ _ _, fun line hl ↦ ?_,
    filterMap_caller_sequenceFrom _ _ _, filterMap_called_sequenceFrom _ _ _, fun k ↦ ?_,
    filter_sequence_append frames⟩
  · exact ⟨caller_of_mem hl, caller_eq_none_iff hl, called_of_mem hl, called_eq_none_iff hl⟩
  · exact ⟨getElem?_sequence_bind_caller frames k, getElem?_sequence_bind_called frames k⟩

theorem sequence_pairs_neighbours_of_two_calls :
    let f : Frame := ⟨some ⟨"a.php", 3, none⟩, .routine "f" none true []⟩
    let main : Frame := ⟨some ⟨"a.php", 8, none⟩, .globalCode⟩
    let last : Line := ⟨1, none, some main⟩
    last ∈ sequence [f, main] ∧ last.caller = none ∧ last.called = [f, main][1]? ∧
      (sequence ([f] ++ [main])).filter (1 ≤ ·.order) = [last] := by
  intro f main last
  obtain ⟨-, -, hpair, -, -, -, -⟩ := sequence_pairs_neighbours [f, main]
  obtain ⟨-, -, -, -, -, -, hnewer⟩ := sequence_pairs_neighbours [f]
  have hlast : last ∈ sequence [f, main] := by decide
  obtain ⟨-, hcaller, hcalled, -⟩ := hpair last hlast
  exact ⟨hlast, hcaller.mpr rfl, hcalled, hnewer [main]⟩

end ScriptTrace.Line
