import ScriptTrace.Native.Settings
import ScriptTrace.Proofs.DecodedText
import Mathlib.Data.List.Forall2

namespace ScriptTrace.Native.Settings

open Text Text.Utf8

def comma : UInt8 := 0x2C

/-- A part of a list between commas. The ends of the list count as commas. -/
def IsItem (item list : List UInt8) : Prop :=
  comma ∉ item ∧ comma :: (item ++ [comma]) <:+: comma :: (list ++ [comma])

def Spells (item : List UInt8) (name : String) : Prop :=
  List.Forall₂ (fun byte c ↦ byte.toNat = c.toNat ∨ byte.toNat = c.toUpper.toNat) item name.toList

def Names (list : List UInt8) (name : String) : Prop := ∃ item, IsItem item list ∧ Spells item name

def IsKnown (item : List UInt8) : Prop := Spells item "full" ∨ Spells item "full_paths"

section Letters

variable {c d : Char}

theorem toNat_toLower (c : Char) :
    c.toLower.toNat = if 65 ≤ c.toNat ∧ c.toNat ≤ 90 then c.toNat + 32 else c.toNat := by
  have hcond : (c.val ≥ 'A'.val ∧ c.val ≤ 'Z'.val) ↔ 65 ≤ c.toNat ∧ c.toNat ≤ 90 :=
    and_congr UInt32.le_iff_toNat_le UInt32.le_iff_toNat_le
  by_cases h : c.val ≥ 'A'.val ∧ c.val ≤ 'Z'.val
  · have hlower : c.toLower.toNat = (c.toNat + 32) % 2 ^ 32 :=
      (congrArg Char.toNat (dif_pos h)).trans (UInt32.toNat_add _ _)
    have hle := (hcond.mp h).2
    rw [hlower, if_pos (hcond.mp h)]
    omega
  · have hlower : c.toLower = c := dif_neg h
    rw [hlower, if_neg (mt hcond.mpr h)]

theorem toNat_toUpper (c : Char) :
    c.toUpper.toNat = if 97 ≤ c.toNat ∧ c.toNat ≤ 122 then c.toNat - 32 else c.toNat := by
  have hcond : ('a'.val ≤ c.val ∧ c.val ≤ 'z'.val) ↔ 97 ≤ c.toNat ∧ c.toNat ≤ 122 :=
    and_congr UInt32.le_iff_toNat_le UInt32.le_iff_toNat_le
  by_cases h : 'a'.val ≤ c.val ∧ c.val ≤ 'z'.val
  · have hupper : c.toUpper.toNat = (c.toNat + (2 ^ 32 - 32)) % 2 ^ 32 :=
      (congrArg Char.toNat (dif_pos h)).trans (UInt32.toNat_add _ _)
    have hle := hcond.mp h
    rw [hupper, if_pos hle]
    omega
  · have hupper : c.toUpper = c := dif_neg h
    rw [hupper, if_neg (mt hcond.mpr h)]

theorem toLower_eq_iff (hd : d.toLower = d) : c.toLower = d ↔ c = d ∨ c = d.toUpper := by
  rw [← Char.toNat_inj, toNat_toLower] at hd
  rw [← Char.toNat_inj, ← Char.toNat_inj, ← Char.toNat_inj, toNat_toLower, toNat_toUpper]
  split_ifs at hd ⊢ <;> omega

theorem toNat_toUpper_le (c : Char) : c.toUpper.toNat ≤ c.toNat := by
  rw [toNat_toUpper]
  split <;> omega

theorem isAscii_of_toLower (h : IsAscii c.toLower.toNat) : IsAscii c.toNat := by
  rw [IsAscii, toNat_toLower] at h
  rw [IsAscii]
  split at h <;> omega

end Letters

def IsOptionName (name : List Char) : Prop := ∀ c ∈ name, IsAscii c.toNat ∧ c.toLower = c

theorem toLower_ofNat_eq_iff {code : Nat} {d : Char} (h : code < 0x80) (hd : d.toLower = d) :
    (Char.ofNat code).toLower = d ↔ code = d.toNat ∨ code = d.toUpper.toNat := by
  have hcode (e : Char) : Char.ofNat code = e ↔ code = e.toNat :=
    ⟨fun he ↦ by rw [← he, toNat_ofNat_of_lt h], fun he ↦ by rw [he, Char.ofNat_toNat]⟩
  rw [toLower_eq_iff hd, hcode, hcode]

theorem lowered_run_eq_iff {item : List UInt8} {name : List Char} (hn : IsOptionName name) :
    lowered (run .start item) = name ↔
      List.Forall₂ (fun byte c ↦ byte.toNat = c.toNat ∨ byte.toNat = c.toUpper.toNat) item
        name := by
  induction item generalizing name with
  | nil => cases name <;> simp [lowered, run]
  | cons byte rest ih =>
    by_cases hb : byte.toNat < 0x80
    · rw [run_start_cons hb, lowered, List.map_cons]
      cases name with
      | nil => simp
      | cons c name =>
        have hc := hn c List.mem_cons_self
        have hrest : lowered (run .start rest) = name ↔ _ :=
          ih fun d hd ↦ hn d (List.mem_cons_of_mem _ hd)
        rw [List.cons.injEq, List.forall₂_cons, toLower_ofNat_eq_iff hb hc.2, ← hrest]
        rfl
    · -- Neither side holds: the byte comes to a character beyond ASCII, and spells no letter.
      obtain ⟨c, hm, hc⟩ := exists_mem_run_start_cons (Nat.le_of_not_lt hb) rest
      refine iff_of_false (fun he ↦ hc ?_) fun hf ↦ ?_
      · exact isAscii_of_toLower (hn _ (he ▸ List.mem_map_of_mem hm)).1
      · obtain ⟨d, name, hd, -, rfl⟩ := List.forall₂_cons_left_iff.mp hf
        have hcode := (hn d List.mem_cons_self).1.2
        have hupper := toNat_toUpper_le d
        omega

theorem listsOption_decode_iff {name : String} (hn : IsOptionName name.toList)
    (list : List UInt8) : listsOption (decode list) name = true ↔ Names list name := by
  have hcomma : IsAscii comma.toNat := by decide
  have hsplit : (run .start list).splitOn ',' = (list.splitOn comma).map (run .start) :=
    splitOn_run hcomma list
  simp only [listsOption, decode, String.toList_ofList, hsplit, List.any_map, List.any_eq_true,
    Function.comp_apply, decide_eq_true_eq, mem_splitOn_iff, lowered_run_eq_iff hn]
  rfl

theorem isItem_append_iff (item a b : List UInt8) :
    IsItem item (a ++ comma :: b) ↔ IsItem item a ∨ IsItem item b := by
  simp only [IsItem, ← mem_splitOn_iff, List.splitOn_append_cons_self, List.mem_append]

theorem names_append_iff (a b : List UInt8) (name : String) :
    Names (a ++ comma :: b) name ↔ Names a name ∨ Names b name := by
  simp only [Names, isItem_append_iff, or_and_right, exists_or]

theorem names_mono {a b : List UInt8} {name : String}
    (h : ∀ item, Spells item name → IsItem item a → IsItem item b) (ha : Names a name) :
    Names b name := by
  obtain ⟨item, hi, hs⟩ := ha
  exact ⟨item, h item hs hi, hs⟩

section OfBytes

variable (backtrace : Option (List UInt8))

theorem any_listsOption_iff {name : String} (hn : IsOptionName name.toList)
    (options : Option (List UInt8)) :
    (options.map decode).any (listsOption · name) = true ↔ ∃ list ∈ options, Names list name := by
  cases options with
  | none => simp
  | some list => simpa using listsOption_decode_iff hn list

theorem showHidden_ofBytes_iff (options : Option (List UInt8)) :
    (ofBytes backtrace options).filter.showHidden = true ↔
      backtrace = some (encode "full") ∨ ∃ list ∈ options, Names list "full" := by
  have hn : IsOptionName "full".toList := by simp [IsOptionName, IsAscii]
  rw [← any_listsOption_iff hn, ofBytes, Bool.or_eq_true, decide_eq_true_eq]

theorem showFullPath_ofBytes_iff (options : Option (List UInt8)) :
    (ofBytes backtrace options).showFullPath = true ↔
      ∃ list ∈ options, Names list "full_paths" := by
  have hn : IsOptionName "full_paths".toList := by simp [IsOptionName, IsAscii]
  rw [← any_listsOption_iff hn, ofBytes]

theorem maxFrameCount_ofBytes (options : Option (List UInt8)) :
    (ofBytes backtrace options).maxFrameCount =
      if (ofBytes backtrace options).filter.showHidden then unlimitedFrameCount
      else defaultFrameCount := rfl

theorem maxFrameCount_eq_unlimited_iff (options : Option (List UInt8)) :
    (ofBytes backtrace options).maxFrameCount = unlimitedFrameCount ↔
      (ofBytes backtrace options).filter.showHidden = true := by
  rw [maxFrameCount_ofBytes]
  split <;> simp_all [unlimitedFrameCount, defaultFrameCount]

theorem ofBytes_eq_of_iff {options options' : Option (List UInt8)}
    (hfull : (ofBytes backtrace options).filter.showHidden = true ↔
      (ofBytes backtrace options').filter.showHidden = true)
    (hpaths : (ofBytes backtrace options).showFullPath = true ↔
      (ofBytes backtrace options').showFullPath = true) :
    ofBytes backtrace options = ofBytes backtrace options' := by
  rw [← Bool.eq_iff_iff] at hfull hpaths
  simp only [ofBytes] at hfull hpaths ⊢
  rw [hfull, hpaths]

theorem showHidden_some_iff (list : List UInt8) :
    (ofBytes backtrace (some list)).filter.showHidden = true ↔
      backtrace = some (encode "full") ∨ Names list "full" := by
  simpa using showHidden_ofBytes_iff backtrace (some list)

theorem showFullPath_some_iff (list : List UInt8) :
    (ofBytes backtrace (some list)).showFullPath = true ↔ Names list "full_paths" := by
  simpa using showFullPath_ofBytes_iff backtrace (some list)

variable {a b : List UInt8}

theorem ofBytes_eq_of_known (h : ∀ item, IsKnown item → (IsItem item a ↔ IsItem item b)) :
    ofBytes backtrace (some a) = ofBytes backtrace (some b) := by
  have hnames {name : String} (hk : ∀ item, Spells item name → IsKnown item) :
      Names a name ↔ Names b name :=
    ⟨names_mono fun item hs ↦ (h item (hk item hs)).mp,
      names_mono fun item hs ↦ (h item (hk item hs)).mpr⟩
  refine ofBytes_eq_of_iff backtrace ?_ ?_
  · rw [showHidden_some_iff, showHidden_some_iff, hnames fun item ↦ Or.inl]
  · rw [showFullPath_some_iff, showFullPath_some_iff, hnames fun item ↦ Or.inr]

theorem showHidden_mono (h : ∀ item, IsItem item a → IsItem item b) :
    (ofBytes backtrace (some a)).filter.showHidden = true →
      (ofBytes backtrace (some b)).filter.showHidden = true := by
  rw [showHidden_some_iff, showHidden_some_iff]
  exact Or.imp_right (names_mono fun item _ ↦ h item)

theorem showFullPath_mono (h : ∀ item, IsItem item a → IsItem item b) :
    (ofBytes backtrace (some a)).showFullPath = true →
      (ofBytes backtrace (some b)).showFullPath = true := by
  rw [showFullPath_some_iff, showFullPath_some_iff]
  exact names_mono fun item _ ↦ h item

/-- Hidden frames are shown if the one variable is `full` to the letter or an item of the list is,
in any case of its letters, and only then is the count of frames not limited; full paths are shown
if an item is `full_paths`. So a list of lists asks for what any of them asks for, and the order of
items, their repetition, and items that ask for nothing do not count. -/
theorem environment_options_unite :
    (∀ options,
      ((ofBytes backtrace options).filter.showHidden = true ↔
        backtrace = some (encode "full") ∨ ∃ list ∈ options, Names list "full") ∧
      ((ofBytes backtrace options).showFullPath = true ↔
        ∃ list ∈ options, Names list "full_paths") ∧
      ((ofBytes backtrace options).maxFrameCount = unlimitedFrameCount ↔
        (ofBytes backtrace options).filter.showHidden = true) ∧
      ((ofBytes backtrace options).filter.showHidden = false →
        (ofBytes backtrace options).maxFrameCount = defaultFrameCount)) ∧
    (∀ a b,
      (ofBytes backtrace (some (a ++ comma :: b))).filter.showHidden =
        ((ofBytes backtrace (some a)).filter.showHidden ||
          (ofBytes backtrace (some b)).filter.showHidden) ∧
      (ofBytes backtrace (some (a ++ comma :: b))).showFullPath =
        ((ofBytes backtrace (some a)).showFullPath ||
          (ofBytes backtrace (some b)).showFullPath)) ∧
    (∀ a b, (∀ item, IsKnown item → (IsItem item a ↔ IsItem item b)) →
      ofBytes backtrace (some a) = ofBytes backtrace (some b)) ∧
    ∀ a b, (∀ item, IsItem item a → IsItem item b) →
      ((ofBytes backtrace (some a)).filter.showHidden = true →
        (ofBytes backtrace (some b)).filter.showHidden = true) ∧
      ((ofBytes backtrace (some a)).showFullPath = true →
        (ofBytes backtrace (some b)).showFullPath = true) := by
  refine ⟨fun options ↦ ⟨showHidden_ofBytes_iff backtrace options,
    showFullPath_ofBytes_iff backtrace options, maxFrameCount_eq_unlimited_iff backtrace options,
    fun hoff ↦ ?_⟩, fun a b ↦ ⟨?_, ?_⟩, fun a b ↦ ofBytes_eq_of_known backtrace,
    fun a b h ↦ ⟨showHidden_mono backtrace h, showFullPath_mono backtrace h⟩⟩
  · rw [maxFrameCount_ofBytes, hoff, if_neg Bool.false_ne_true]
  · rw [Bool.eq_iff_iff, Bool.or_eq_true, showHidden_some_iff, showHidden_some_iff,
      showHidden_some_iff, names_append_iff, or_or_distrib_left]
  · rw [Bool.eq_iff_iff, Bool.or_eq_true, showFullPath_some_iff, showFullPath_some_iff,
      showFullPath_some_iff, names_append_iff]

end OfBytes

/-- A byte that cannot be decoded spoils its own item only. -/
example :
    let settings := ofBytes none (some (encode "x, full,FULL_paths," ++ [0xE2] ++ encode ",Full"))
    settings.filter.showHidden = true ∧ settings.showFullPath = true ∧
      (ofBytes none (some (encode "ful" ++ [0xE2] ++ encode "l"))).filter.showHidden = false := by
  decide +kernel

end ScriptTrace.Native.Settings
