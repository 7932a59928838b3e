namespace ScriptTrace.Native.Symbol

structure Depth where
  angle : Nat := 0
  brace : Nat := 0
  deriving DecidableEq

/-- The head of an arrow closes no bracket, and a bracket too many closes nothing. -/
def Depth.after (depth : Depth) (previous : Option Char) (c : Char) : Depth :=
  if c = '<' then { depth with angle := depth.angle + 1 }
  else if c = '>' && previous ≠ some '-' then { depth with angle := depth.angle - 1 }
  else if c = '{' then { depth with brace := depth.brace + 1 }
  else if c = '}' then { depth with brace := depth.brace - 1 }
  else depth

/-- Cuts at each double colon outside brackets and braces; `read` is the piece at hand, last
character first. -/
def piecesFrom (depth : Depth) (read : List Char) : List Char → List (List Char)
  | [] => [read.reverse]
  | c :: rest =>
    if c = ':' && read.head? = some ':' && depth = {} then
      read.tail.reverse :: piecesFrom depth [] rest
    else piecesFrom (depth.after read.head? c) (c :: read) rest

def pieces (symbol : List Char) : List (List Char) := piecesFrom {} [] symbol

theorem length_le_of_mem_piecesFrom {depth : Depth} {read text piece : List Char}
    (h : piece ∈ piecesFrom depth read text) : piece.length ≤ read.length + text.length := by
  induction text generalizing depth read with
  | nil =>
    obtain rfl := List.mem_singleton.mp h
    exact Nat.le_of_eq List.length_reverse
  | cons c rest ih =>
    rw [piecesFrom] at h
    rw [List.length_cons]
    split at h
    · rcases List.mem_cons.mp h with rfl | h
      · rw [List.length_reverse, List.length_tail]
        omega
      · have hl := ih h
        rw [List.length_nil] at hl
        omega
    · have hl := ih h
      rw [List.length_cons] at hl
      omega

def enclosed? : List Char → Option (List Char)
  | [] => none
  | c :: rest => if c = '<' && rest.getLast? = some '>' then some rest.dropLast else none

theorem length_lt_of_enclosed? {piece inner : List Char} (h : enclosed? piece = some inner) :
    inner.length < piece.length := by
  cases piece with
  | nil => cases h
  | cons c rest =>
    rw [enclosed?] at h
    split at h
    · obtain rfl := Option.some.inj h
      rw [List.length_dropLast, List.length_cons]
      omega
    · cases h

def before (word : List Char) : List Char → List Char
  | [] => []
  | c :: rest => if word.isPrefixOf (c :: rest) then [] else c :: before word rest

theorem length_before_le (word text : List Char) : (before word text).length ≤ text.length := by
  induction text with
  | nil => exact Nat.le_refl _
  | cons c rest ih =>
    rw [before]
    split
    · exact Nat.zero_le _
    · exact Nat.succ_le_succ ih

def dropRepeated (word text : List Char) : List Char :=
  match word.isPrefixOf? text with
  | none => text
  | some rest => if _h : rest.length < text.length then dropRepeated word rest else text
termination_by text.length

theorem length_dropRepeated_le (word text : List Char) :
    (dropRepeated word text).length ≤ text.length := by
  fun_induction dropRepeated word text with
  | case1 => exact Nat.le_refl _
  | case2 text rest _ h ih => exact Nat.le_trans ih (Nat.le_of_lt h)
  | case3 => exact Nat.le_refl _

/-- The type that qualifies a symbol, without its interface and without the signs of a
reference. -/
def selfType (inner : List Char) : List Char :=
  dropRepeated ['d', 'y', 'n', ' '] (dropRepeated ['m', 'u', 't', ' ']
    ((before [' ', 'a', 's', ' '] inner).dropWhile fun c ↦ c = '&' || c = '*'))

theorem length_selfType_le (inner : List Char) : (selfType inner).length ≤ inner.length := by
  refine Nat.le_trans (length_dropRepeated_le _ _) (Nat.le_trans (length_dropRepeated_le _ _) ?_)
  exact Nat.le_trans (List.dropWhile_suffix _).length_le (length_before_le _ _)

def name? (piece : List Char) : Option (List Char) :=
  match piece.takeWhile (· ≠ '<') with
  | [] => none
  | name => some name

theorem length_selfType_lt {symbol first inner : List Char} {rest : List (List Char)}
    (h : pieces symbol = first :: rest) (he : enclosed? first = some inner) :
    (selfType inner).length < symbol.length := by
  have hp : first.length ≤ symbol.length := by
    have hm : first ∈ pieces symbol := h ▸ List.mem_cons_self
    simpa only [List.length_nil, Nat.zero_add] using length_le_of_mem_piecesFrom hm
  have hi := length_lt_of_enclosed? he
  have hs := length_selfType_le inner
  omega

/-- The names on the path of a symbol. A qualified symbol starts with the path of its self
type. -/
def segments (symbol : List Char) : List (List Char) :=
  match h : pieces symbol with
  | [] => []
  | first :: rest =>
    match he : enclosed? first with
    | none => (name? first).toList ++ rest.filterMap name?
    | some inner =>
      have := length_selfType_lt h he
      segments (selfType inner) ++ rest.filterMap name?
termination_by symbol.length

def path (symbol : String) : List String := (segments symbol.toList).map String.ofList

end ScriptTrace.Native.Symbol
