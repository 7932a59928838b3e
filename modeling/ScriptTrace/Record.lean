import ScriptTrace.Line

namespace ScriptTrace

inductive RecordValue
  | text (value : String)
  | number (value : Int)
  deriving DecidableEq

def RecordValue.display : RecordValue → String
  | text value => value
  | number value => Text.signedDecimal value

/-- One call of a backtrace as keys with values, in the order in which the keys were first
inserted. -/
structure Record where
  entries : List (String × RecordValue)

namespace Record

def empty : Record := ⟨[]⟩

def put (key : String) (value : RecordValue) :
    List (String × RecordValue) → List (String × RecordValue)
  | [] => [(key, value)]
  | entry :: rest => if entry.1 = key then (key, value) :: rest else entry :: put key value rest

/-- A key that is present keeps its place and takes the new value. -/
def insert (record : Record) (key : String) (value : RecordValue) : Record :=
  ⟨put key value record.entries⟩

variable (record : Record)

def get? (key : String) : Option RecordValue := record.entries.lookup key

def contains (key : String) : Bool := (record.get? key).isSome

def keys : List String := record.entries.map (·.1)

def size : Nat := record.entries.length

def isEmpty : Bool := record.entries.isEmpty

theorem lookup_put (key other : String) (value : RecordValue)
    (entries : List (String × RecordValue)) :
    (put key value entries).lookup other =
      if other = key then some value else entries.lookup other := by
  induction entries with
  | nil =>
    by_cases h : other = key
    · simp [put, h]
    · simp [put, List.lookup_cons, beq_eq_false_iff_ne.mpr h, h]
  | cons entry rest ih =>
    obtain ⟨present, old⟩ := entry
    by_cases hp : present = key
    · subst hp
      by_cases h : other = present
      · simp [put, h]
      · simp [put, List.lookup_cons, beq_eq_false_iff_ne.mpr h, h]
    · by_cases ho : other = present
      · subst ho
        simp [put, hp]
      · simp [put, List.lookup_cons, hp, beq_eq_false_iff_ne.mpr ho, ih]

theorem get?_insert (key other : String) (value : RecordValue) :
    (record.insert key value).get? other =
      if other = key then some value else record.get? other :=
  lookup_put key other value record.entries

theorem map_fst_put (key : String) (value : RecordValue) (entries : List (String × RecordValue)) :
    (put key value entries).map (·.1) =
      if key ∈ entries.map (·.1) then entries.map (·.1) else entries.map (·.1) ++ [key] := by
  induction entries with
  | nil => rfl
  | cons entry rest ih =>
    by_cases h : entry.1 = key
    · simp [put, h]
    · have hk : key ≠ entry.1 := fun e ↦ h e.symm
      by_cases hr : key ∈ rest.map (·.1)
      · simp only [put, if_neg h, List.map_cons, ih, List.mem_cons, hr, or_true, if_true]
      · simp only [put, if_neg h, List.map_cons, ih, List.mem_cons, hk, hr, or_self, if_false,
          List.cons_append]

theorem keys_insert (key : String) (value : RecordValue) :
    (record.insert key value).keys =
      if key ∈ record.keys then record.keys else record.keys ++ [key] :=
  map_fst_put key value record.entries

/-- Records are equal when they have equally many keys and agree on the value of each; the order of
the keys does not count. -/
def agrees (other : Record) : Bool :=
  record.size = other.size &&
    record.entries.all fun (key, value) ↦ other.get? key = some value

instance : BEq Record := ⟨agrees⟩

def insertPlace (place : Place) : Record :=
  let placed := (record.insert "file" (.text place.file)).insert "line"
    (.number place.line.toNat)
  match place.column with
  | none => placed
  | some column => placed.insert "column" (.number column.toNat)

def insertCallee (callee : Callee) : Record :=
  let named := record.insert "function" (.text callee.name)
  match callee.owner with
  | none => named
  | some owner =>
    (named.insert "class" (.text owner)).insert "type" (.text callee.operator)

/-- A part of the line that is unknown leaves its keys out. -/
def ofLine (line : Line) : Record :=
  let placed := match line.place with
    | none => empty
    | some place => empty.insertPlace place
  match line.called with
  | none => placed
  | some frame => placed.insertCallee frame.callee

end Record

end ScriptTrace
