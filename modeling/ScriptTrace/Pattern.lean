namespace ScriptTrace

structure CharSet where
  ranges : List (Char × Char) := []
  singles : List Char := []
  isNegated : Bool := false
  deriving DecidableEq

namespace CharSet

def contains (set : CharSet) (c : Char) : Bool :=
  (set.ranges.any (fun (low, high) ↦ low ≤ c && c ≤ high) || set.singles.contains c) !=
    set.isNegated

def inLine : CharSet := { singles := ['\n'], isNegated := true }

def source (set : CharSet) : String :=
  let range := fun (low, high) ↦ String.ofList [low, '-', high]
  if set = inLine then "."
  else (if set.isNegated then "[^" else "[") ++ String.join (set.ranges.map range) ++
    String.ofList set.singles ++ "]"

end CharSet

/-- A pattern for texts, with one group at most. All repetitions are of single characters, and
prefer to be long. -/
inductive Pattern
  | start
  | stop
  | literal (text : String)
  | repeated (set : CharSet) (least : Nat) (most : Option Nat)
  | group (pattern : Pattern)
  | seq (first second : Pattern)
  | either (first second : Pattern)

instance : Append Pattern := ⟨Pattern.seq⟩

structure Span where
  before : List Char
  text : List Char
  after : List Char
  deriving DecidableEq

structure Captures where
  whole : Span
  group? : Option Span
  deriving DecidableEq

def Captures.get? (captures : Captures) : Nat → Option Span
  | 0 => some captures.whole
  | 1 => captures.group?
  | _ => none

/-- How far a text has been read; what has been read stands last character first. -/
structure Reading where
  read : List Char
  rest : List Char
  group? : Option Span := none

namespace Reading

def past (reading : Reading) (text rest : List Char) : Reading :=
  { reading with read := text.reverse ++ reading.read, rest }

@[simp] theorem rest_past (reading : Reading) (text rest : List Char) :
    (reading.past text rest).rest = rest := rfl

@[simp] theorem past_past (reading : Reading) (a b rest rest' : List Char) :
    (reading.past a rest).past b rest' = reading.past (a ++ b) rest' := by
  simp [past]

def since (reading earlier : Reading) : Span :=
  ⟨earlier.read.reverse, (reading.read.take (reading.read.length - earlier.read.length)).reverse,
    reading.rest⟩

@[simp] theorem since_past (reading : Reading) (text rest : List Char) :
    (reading.past text rest).since reading = ⟨reading.read.reverse, text, rest⟩ := by
  simp [past, since]

def grouped (reading earlier : Reading) : Reading :=
  { reading with group? := some (reading.since earlier) }

@[simp] theorem rest_grouped (reading earlier : Reading) :
    (reading.grouped earlier).rest = reading.rest := rfl

end Reading

namespace CharSet

def runs (set : CharSet) (least : Nat) (most : Option Nat) (read : List Char) :
    List Char → List (List Char × List Char)
  | [] => if least = 0 then [(read, [])] else []
  | c :: rest =>
    (if set.contains c && most ≠ some 0 then
        set.runs (least - 1) (most.map (· - 1)) (c :: read) rest
      else []) ++
      if least = 0 then [(read, c :: rest)] else []

def tryRuns {α : Type} (set : CharSet) (goOn : List Char → List Char → Option α) (least : Nat)
    (most : Option Nat) (read : List Char) : List Char → Option α
  | [] => if least = 0 then goOn read [] else none
  | c :: rest =>
    (if set.contains c && most ≠ some 0 then
        set.tryRuns goOn (least - 1) (most.map (· - 1)) (c :: read) rest
      else none).or
      (if least = 0 then goOn read (c :: rest) else none)

theorem tryRuns_eq {α : Type} (set : CharSet) (goOn : List Char → List Char → Option α)
    (least : Nat) (most : Option Nat) (read rest : List Char) :
    set.tryRuns goOn least most read rest =
      (set.runs least most read rest).findSome? fun (read, rest) ↦ goOn read rest := by
  induction rest generalizing least most read with
  | nil =>
    rw [tryRuns, runs]
    split <;> simp
  | cons c rest ih =>
    rw [tryRuns, runs, List.findSome?_append, ih]
    congr 1
    · split <;> rfl
    · split <;> simp

end CharSet

namespace Pattern

def escaped (c : Char) : List Char := if c = '.' then ['\\', '.'] else [c]

def source : Pattern → String
  | start => "^"
  | stop => "$"
  | literal text => String.ofList (text.toList.flatMap escaped)
  | repeated set 0 none => set.source ++ "*"
  | repeated set 1 none => set.source ++ "+"
  | repeated set least none => set.source ++ "\x7b" ++ toString least ++ ",\x7d"
  | repeated set least (some most) =>
    set.source ++ "\x7b" ++ toString least ++
      (if least = most then "" else "," ++ toString most) ++ "\x7d"
  | group pattern => "(" ++ pattern.source ++ ")"
  | seq first second => first.source ++ second.source
  | either first second => "(?:" ++ first.source ++ "|" ++ second.source ++ ")"

/-- The ways to read on by a pattern, the preferred one first: the first of two alternatives goes
before the second, and a longer repetition before a shorter. -/
def readings : Pattern → Reading → List Reading
  | start, reading => if reading.read = [] then [reading] else []
  | stop, reading => if reading.rest = [] then [reading] else []
  | literal text, reading =>
    match text.toList.isPrefixOf? reading.rest with
    | none => []
    | some rest => [reading.past text.toList rest]
  | repeated set least most, reading =>
    (set.runs least most reading.read reading.rest).map fun (read, rest) ↦
      { reading with read, rest }
  | group pattern, reading =>
    (pattern.readings reading).map (·.grouped reading)
  | seq first second, reading => (first.readings reading).flatMap second.readings
  | either first second, reading => first.readings reading ++ second.readings reading

def capturesOf (place reading : Reading) : Captures := ⟨reading.since place, reading.group?⟩

def capturesAt? (pattern : Pattern) (place : Reading) : Option Captures :=
  (pattern.readings place).head?.map (capturesOf place)

/-- The first success after one of the readings, each tried only when those before it have
failed. -/
def attempt {α : Type} : Pattern → Reading → (Reading → Option α) → Option α
  | start, reading, goOn => if reading.read = [] then goOn reading else none
  | stop, reading, goOn => if reading.rest = [] then goOn reading else none
  | literal text, reading, goOn =>
    match text.toList.isPrefixOf? reading.rest with
    | none => none
    | some rest => goOn (reading.past text.toList rest)
  | repeated set least most, reading, goOn =>
    set.tryRuns (fun read rest ↦ goOn { reading with read, rest }) least most reading.read
      reading.rest
  | group pattern, reading, goOn =>
    pattern.attempt reading fun next ↦ goOn (next.grouped reading)
  | seq first second, reading, goOn =>
    first.attempt reading fun next ↦ second.attempt next goOn
  | either first second, reading, goOn =>
    (first.attempt reading goOn).or (second.attempt reading goOn)

theorem findSome?_flatMap {α β γ : Type} (f : α → List β) (goOn : β → Option γ) (list : List α) :
    (list.flatMap f).findSome? goOn = list.findSome? fun a ↦ (f a).findSome? goOn := by
  induction list with
  | nil => rfl
  | cons a list ih =>
    rw [List.flatMap_cons, List.findSome?_append, ih, List.findSome?_cons]
    cases (f a).findSome? goOn <;> rfl

theorem attempt_eq {α : Type} (pattern : Pattern) (reading : Reading)
    (goOn : Reading → Option α) :
    pattern.attempt reading goOn = (pattern.readings reading).findSome? goOn := by
  induction pattern generalizing reading goOn with
  | start =>
    rw [attempt, readings]
    split <;> simp
  | stop =>
    rw [attempt, readings]
    split <;> simp
  | literal text =>
    rw [attempt, readings]
    split <;> simp
  | repeated set least most =>
    rw [attempt, readings, CharSet.tryRuns_eq, List.findSome?_map]
    rfl
  | group pattern ih =>
    rw [attempt, readings, ih, List.findSome?_map]
    rfl
  | seq first second ihf ihs =>
    rw [attempt, readings, ihf, findSome?_flatMap]
    exact congrArg (List.findSome? · _) (funext fun next ↦ ihs next goOn)
  | either first second ihf ihs => rw [attempt, readings, ihf, ihs, List.findSome?_append]

end Pattern

class PatternSearch where
  captures? : Pattern → String → Option Captures

namespace PatternSearch

/-- The search for a pattern finds a match if there is one. It takes the leftmost, and of several at
one place the one that the pattern prefers. -/
structure IsLeftmostFirst [PatternSearch] (pattern : Pattern) : Prop where
  finds : ∀ (text : String) (before rest : List Char), text.toList = before ++ rest →
    (pattern.capturesAt? ⟨before.reverse, rest, none⟩).isSome = true →
      (captures? pattern text).isSome = true
  leftmost_first : ∀ (text : String) (captures : Captures),
    captures? pattern text = some captures →
      ∃ before rest, text.toList = before ++ rest ∧
        pattern.capturesAt? ⟨before.reverse, rest, none⟩ = some captures ∧
        ∀ before' rest', text.toList = before' ++ rest' →
          (pattern.capturesAt? ⟨before'.reverse, rest', none⟩).isSome = true →
            before.length ≤ before'.length

def from? (pattern : Pattern) (read : List Char) : List Char → Option Captures
  | [] => pattern.attempt ⟨read, [], none⟩ (some ∘ Pattern.capturesOf ⟨read, [], none⟩)
  | c :: rest =>
    (pattern.attempt ⟨read, c :: rest, none⟩
      (some ∘ Pattern.capturesOf ⟨read, c :: rest, none⟩)).or (from? pattern (c :: read) rest)

namespace Backtracking

scoped instance backtracking : PatternSearch where
  captures? pattern text := from? pattern [] text.toList

end Backtracking

end PatternSearch

end ScriptTrace
