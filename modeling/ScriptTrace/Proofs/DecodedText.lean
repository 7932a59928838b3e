import ScriptTrace.Text.Utf8
import ScriptTrace.Proofs.Separators
import Mathlib.Algebra.Group.Nat.Defs
import Mathlib.Tactic.SplitIfs

namespace ScriptTrace.Text.Utf8

/-- The code of an ASCII character. The null is left out, since a code that is no character's gives
it too. -/
def IsAscii (code : Nat) : Prop := 0 < code ∧ code < 0x80

instance (code : Nat) : Decidable (IsAscii code) := inferInstanceAs (Decidable (_ ∧ _))

theorem toNat_ofNat_of_isValidChar {code : Nat} (h : code.isValidChar) :
    (Char.ofNat code).toNat = code := by
  rw [Char.ofNat, dif_pos h]
  rfl

theorem toNat_ofNat_of_lt {code : Nat} (h : code < 0x80) : (Char.ofNat code).toNat = code :=
  toNat_ofNat_of_isValidChar (.inl (by omega))

theorem not_isAscii_ofNat {code : Nat} (h : 0x80 ≤ code) : ¬IsAscii (Char.ofNat code).toNat := by
  by_cases hv : code.isValidChar
  · rw [toNat_ofNat_of_isValidChar hv, IsAscii]
    omega
  · rw [Char.ofNat, dif_neg hv]
    decide

theorem not_isAscii_replacement : ¬IsAscii replacement.toNat := by decide

/-- No ASCII byte goes on with the sequence at hand, and it comes to no ASCII character. -/
def State.IsProper : State → Prop
  | .start => True
  | .within bits low _ more => 0x80 ≤ low ∧ 0x80 ≤ (bits * 64 + (low - 0x80)) * 64 ^ more

theorem isProper_of_lead? {byte : Nat} {lead : Lead} (h : lead? byte = some lead) :
    (State.within lead.bits lead.low lead.high lead.more).IsProper := by
  unfold lead? at h
  split_ifs at h <;> obtain rfl := Option.some.inj h <;> simp [State.IsProper] <;> omega

theorem enter_ascii {byte : Nat} (h : byte < 0x80) :
    enter byte = ([Char.ofNat byte], .start) := if_pos h

theorem enter_cases {byte : Nat} (h : 0x80 ≤ byte) :
    enter byte = ([replacement], .start) ∨ ∃ lead, lead? byte = some lead ∧
      enter byte = ([], .within lead.bits lead.low lead.high lead.more) := by
  rw [enter, if_neg (by omega)]
  cases lead? byte with
  | none => exact .inl rfl
  | some lead => exact .inr ⟨lead, rfl, rfl⟩

theorem isProper_enter (byte : Nat) : (enter byte).2.IsProper := by
  by_cases h : byte < 0x80
  · rw [enter_ascii h]
    trivial
  · rcases enter_cases (Nat.le_of_not_lt h) with he | ⟨lead, hl, he⟩ <;> rw [he]
    · trivial
    · exact isProper_of_lead? hl

theorem toNat_of_mem_enter {byte : Nat} {c : Char} (hm : c ∈ (enter byte).1)
    (hc : IsAscii c.toNat) : c.toNat = byte := by
  by_cases h : byte < 0x80
  · rw [enter_ascii h] at hm
    rw [List.mem_singleton.mp hm, toNat_ofNat_of_lt h]
  · rcases enter_cases (Nat.le_of_not_lt h) with he | ⟨lead, -, he⟩ <;> rw [he] at hm
    · obtain rfl := List.mem_singleton.mp hm
      exact absurd hc not_isAscii_replacement
    · cases hm

theorem run_cons (state : State) (byte : UInt8) (rest : List UInt8) :
    run state (byte :: rest) =
      (step byte.toNat state).1 ++ run (step byte.toNat state).2 rest := by
  cases state <;> rfl

section Within

variable {bits low high more : Nat} (hs : (State.within bits low high more).IsProper)
include hs

theorem step_within_cases (byte : Nat) :
    (∃ code, 0x80 ≤ code ∧ step byte (.within bits low high more) = ([Char.ofNat code], .start)) ∨
    (∃ bits' more', (State.within bits' 0x80 0xBF more').IsProper ∧
      step byte (.within bits low high more) = ([], .within bits' 0x80 0xBF more')) ∨
    step byte (.within bits low high more) = (replacement :: (enter byte).1, (enter byte).2) := by
  obtain ⟨hlow, hcode⟩ := hs
  rw [step]
  split
  · next hb =>
    simp only [Bool.and_eq_true, decide_eq_true_eq] at hb
    have hbits : bits * 64 + (low - 0x80) ≤ bits * 64 + (byte - 0x80) := by omega
    have hnext := Nat.le_trans hcode (Nat.mul_le_mul_right (64 ^ more) hbits)
    cases more with
    | zero => exact .inl ⟨_, by simpa using hnext, rfl⟩
    | succ more =>
      refine .inr (.inl ⟨_, more, ⟨Nat.le_refl _, ?_⟩, rfl⟩)
      rwa [Nat.sub_self, Nat.add_zero, Nat.mul_assoc, ← Nat.pow_succ']
  · exact .inr (.inr rfl)

theorem exists_mem_run_within (bytes : List UInt8) :
    ∃ c ∈ run (.within bits low high more) bytes, ¬IsAscii c.toNat := by
  induction bytes generalizing bits low high more with
  | nil => exact ⟨replacement, List.mem_singleton_self _, not_isAscii_replacement⟩
  | cons byte rest ih =>
    rw [run_cons]
    rcases step_within_cases hs byte.toNat with
      ⟨code, hcode, he⟩ | ⟨bits', more', hs', he⟩ | he <;> rw [he]
    · exact ⟨_, List.mem_cons_self, not_isAscii_ofNat hcode⟩
    · exact ih hs'
    · exact ⟨replacement, List.mem_cons_self, not_isAscii_replacement⟩

end Within

namespace State.IsProper

variable {state : State} (hs : state.IsProper)
include hs

theorem step (byte : Nat) : (step byte state).2.IsProper := by
  cases state with
  | start => exact isProper_enter byte
  | within bits low high more =>
    rcases step_within_cases hs byte with ⟨code, -, he⟩ | ⟨bits', more', hs', he⟩ | he <;> rw [he]
    · trivial
    · exact hs'
    · exact isProper_enter byte

theorem step_ascii {byte : Nat} (h : byte < 0x80) :
    Utf8.step byte state = (run state [] ++ [Char.ofNat byte], .start) := by
  cases state with
  | start => exact enter_ascii h
  | within bits low high more =>
    obtain ⟨hlow, -⟩ := hs
    have hb : (low ≤ byte && byte ≤ high) = false := by
      rw [Bool.and_eq_false_iff]
      exact .inl (decide_eq_false (by omega))
    rw [Utf8.step, hb, if_neg Bool.false_ne_true, enter_ascii h]
    rfl

theorem toNat_of_mem_step {byte : Nat} {c : Char} (hm : c ∈ (Utf8.step byte state).1)
    (hc : IsAscii c.toNat) : c.toNat = byte := by
  cases state with
  | start => exact toNat_of_mem_enter hm hc
  | within bits low high more =>
    rcases step_within_cases hs byte with ⟨code, hcode, he⟩ | ⟨bits', more', -, he⟩ | he <;>
      rw [he] at hm
    · rw [List.mem_singleton.mp hm] at hc
      exact absurd hc (not_isAscii_ofNat hcode)
    · cases hm
    · rcases List.mem_cons.mp hm with rfl | hm
      · exact absurd hc not_isAscii_replacement
      · exact toNat_of_mem_enter hm hc

/-- What stands before an ASCII byte and what stands after it are decoded apart. -/
theorem run_append_cons {byte : UInt8} (h : byte.toNat < 0x80) (before after : List UInt8) :
    run state (before ++ byte :: after) =
      run state before ++ Char.ofNat byte.toNat :: run .start after := by
  induction before generalizing state with
  | nil => rw [List.nil_append, run_cons, hs.step_ascii h, List.append_assoc, List.singleton_append]
  | cons first rest ih =>
    rw [List.cons_append, run_cons, run_cons, ih (hs.step first.toNat), List.append_assoc]

theorem exists_of_mem_run {bytes : List UInt8} {c : Char} (hm : c ∈ run state bytes)
    (hc : IsAscii c.toNat) : ∃ byte ∈ bytes, c.toNat = byte.toNat := by
  induction bytes generalizing state with
  | nil =>
    cases state with
    | start => cases hm
    | within bits low high more =>
      obtain rfl := List.mem_singleton.mp hm
      exact absurd hc not_isAscii_replacement
  | cons byte rest ih =>
    rw [run_cons] at hm
    rcases List.mem_append.mp hm with hm | hm
    · exact ⟨byte, List.mem_cons_self, hs.toNat_of_mem_step hm hc⟩
    · obtain ⟨other, ho, he⟩ := ih (hs.step byte.toNat) hm
      exact ⟨other, List.mem_cons_of_mem _ ho, he⟩

end State.IsProper

theorem isProper_start : State.IsProper .start := trivial

theorem run_start_cons {byte : UInt8} (h : byte.toNat < 0x80) (rest : List UInt8) :
    run .start (byte :: rest) = Char.ofNat byte.toNat :: run .start rest :=
  isProper_start.run_append_cons h [] rest

theorem exists_mem_run_start_cons {byte : UInt8} (h : 0x80 ≤ byte.toNat) (rest : List UInt8) :
    ∃ c ∈ run .start (byte :: rest), ¬IsAscii c.toNat := by
  rw [run_cons, step]
  rcases enter_cases h with he | ⟨lead, hl, he⟩ <;> rw [he]
  · exact ⟨replacement, List.mem_cons_self, not_isAscii_replacement⟩
  · exact exists_mem_run_within (isProper_of_lead? hl) rest

section Splitting

variable {separator : UInt8} (h : IsAscii separator.toNat)
include h

theorem run_intercalate (parts : List (List UInt8)) :
    run .start ([separator].intercalate parts) =
      [Char.ofNat separator.toNat].intercalate (parts.map (run .start)) := by
  induction parts with
  | nil => rfl
  | cons part rest ih =>
    cases rest with
    | nil => simp
    | cons next rest =>
      rw [List.intercalate_cons_cons, List.append_assoc, List.singleton_append,
        isProper_start.run_append_cons h.2, ih, List.map_cons, List.map_cons, List.map_cons,
        List.intercalate_cons_cons, List.append_assoc, List.singleton_append]

theorem notMem_run {part : List UInt8} (hp : separator ∉ part) :
    Char.ofNat separator.toNat ∉ run .start part := by
  intro hm
  have hcode := toNat_ofNat_of_lt h.2
  obtain ⟨byte, hb, he⟩ := isProper_start.exists_of_mem_run hm (hcode.symm ▸ h)
  rw [hcode] at he
  exact hp (UInt8.toNat_inj.mp he ▸ hb)

/-- A text is decoded and then split at an ASCII character, or split and then decoded. -/
theorem splitOn_run (bytes : List UInt8) :
    (run .start bytes).splitOn (Char.ofNat separator.toNat) =
      (bytes.splitOn separator).map (run .start) := by
  have hrun : run .start bytes = [Char.ofNat separator.toNat].intercalate
      ((bytes.splitOn separator).map (run .start)) := by
    rw [← run_intercalate h, List.intercalate_splitOn]
  rw [hrun]
  refine List.splitOn_intercalate _ (fun text ht ↦ ?_) (by simp)
  obtain ⟨part, hpart, rfl⟩ := List.mem_map.mp ht
  exact notMem_run h ((Text.mem_splitOn_iff bytes).mp hpart).1

end Splitting

end ScriptTrace.Text.Utf8
