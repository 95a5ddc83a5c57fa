import PolicyStore.Table

set_option autoImplicit false

namespace PolicyStore

/-!
# Validation reports

A code is a set of faults, kept as bits; a report gives a code to each faulty name. Recording a
second code for a name adds its faults to those already there.
-/

structure Code where
  bits : UInt32
  deriving DecidableEq, Repr

namespace Code

def none : Code := ⟨0⟩
def wrongType : Code := ⟨1⟩
def missingRequired : Code := ⟨2⟩
def notAnArray : Code := ⟨4⟩
def arrayTooShort : Code := ⟨8⟩
def tooManyValues : Code := ⟨16⟩
def valueDisallowed : Code := ⟨32⟩
def valueOutOfRange : Code := ⟨64⟩
def unknownName : Code := ⟨128⟩
def badDefinition : Code := ⟨256⟩
def notLoaded : Code := ⟨512⟩
def unknownError : Code := ⟨1024⟩

def union (a b : Code) : Code := ⟨a.bits ||| b.bits⟩

def contains (a b : Code) : Bool := a.bits &&& b.bits = b.bits

def isNone (a : Code) : Bool := a.bits = 0

def tooFewValues : Code := union (union missingRequired notAnArray) arrayTooShort
def wrongOccurrences : Code := union tooFewValues tooManyValues
def badValue : Code := union valueDisallowed valueOutOfRange

/-- The faults with a bit of their own, in the order of their bits. -/
def singles : List (Code × String) :=
  [(wrongType, "value has the incorrect type"),
   (missingRequired, "missing value for required parameter"),
   (notAnArray, "value should be an array but is not"),
   (arrayTooShort, "insufficient number of array values"),
   (tooManyValues, "too many values provided for parameter"),
   (valueDisallowed, "value is not among the allowed set"),
   (valueOutOfRange, "value is out of range"),
   (unknownName, "parameter name is unknown"),
   (badDefinition, "malformed definition"),
   (notLoaded, "file not loaded; call load_policy_files() before validating"),
   (unknownError, "unknown error")]

/-- The unions that have a wording of their own. -/
def compounds : List (Code × String) :=
  [(tooFewValues, "not enough values for parameter"),
   (wrongOccurrences, "incorrect number of values for parameter"),
   (badValue, "illegal value")]

/-- A fault and a named union have a fixed wording; any other code lists its faults. -/
def message (code : Code) : String :=
  if code.isNone then "no problem"
  else
    match (singles ++ compounds).find? (·.1 = code) with
    | some (_, text) => text
    | .none =>
      match singles.filter (code.contains ·.1) with
      | [] => "unknown error"
      | parts => "; ".intercalate (parts.map (·.2))

@[simp] theorem none_union (a : Code) : union none a = a := by
  simp [union, none]

@[simp] theorem union_none (a : Code) : union a none = a := by
  simp [union, none]

@[simp] theorem union_self (a : Code) : union a a = a := by
  simp [union]

theorem union_comm (a b : Code) : union a b = union b a := by
  simp [union, UInt32.or_comm]

theorem union_assoc (a b c : Code) : union (union a b) c = union a (union b c) := by
  simp [union, UInt32.or_assoc]

theorem isNone_iff {a : Code} : a.isNone = true ↔ a = none := by
  cases a
  simp [isNone, none]

theorem isNone_union_of_right {b : Code} (h : b.isNone = false) (a : Code) :
    (union a b).isNone = false := by
  refine Bool.eq_false_iff.mpr fun hab => Bool.eq_false_iff.mp h (isNone_iff.mpr ?_)
  have hab := isNone_iff.mp hab
  calc b = union none b := (none_union b).symm
    _ = union a (union b b) := by rw [← hab, union_assoc]
    _ = none := by rw [union_self, hab]

end Code

/-- Codes by name, in the order of the names. A name is present only with a code that has a fault. -/
structure Report where
  rows : List (String × Code)
  sorted : Table.Sorted rows
  faulty : ∀ row ∈ rows, row.2.isNone = false
  deriving DecidableEq

namespace Report

def empty : Report := ⟨[], List.Pairwise.nil, by simp⟩

def isEmpty (r : Report) : Bool := r.rows.isEmpty

def size (r : Report) : Nat := r.rows.length

def names (r : Report) : List String := Table.keys r.rows

/-- The code of a name, without any fault for a name that is not present. -/
def codeAt (r : Report) (name : String) : Code := (Table.get? name r.rows).getD Code.none

def all (r : Report) : Code := r.rows.foldl (fun acc row => acc.union row.2) Code.none

/-- Records a code for a name; a code without faults leaves no trace. -/
def add (r : Report) (name : String) (code : Code) : Report :=
  if h : code.isNone then r
  else
    { rows := Table.insert name ((r.codeAt name).union code) r.rows
      sorted := Table.sorted_insert r.sorted _ _
      faulty := by
        intro row hrow
        rcases Table.mem_of_mem_insert hrow with rfl | hrow
        · exact Code.isNone_union_of_right (by simpa using h) _
        · exact r.faulty row hrow }

/-- Copies another report, putting a text before each of its names. -/
def absorb (r : Report) (lead : String) (other : Report) : Report :=
  other.rows.foldl (fun acc row => acc.add (lead ++ row.1) row.2) r

/-- One line per name, each after the same leading text. -/
def describe (r : Report) (lead : String) : String :=
  "\n".intercalate (r.rows.map fun row => lead ++ row.1 ++ ": " ++ row.2.message)

@[simp] theorem add_none (r : Report) (name : String) : r.add name Code.none = r := by
  simp [add, Code.isNone, Code.none]

theorem codeAt_add_self (r : Report) (name : String) (code : Code) :
    (r.add name code).codeAt name = (r.codeAt name).union code := by
  by_cases h : code.isNone
  · simp [Code.isNone_iff.mp h]
  · simp [add, h, codeAt]

theorem codeAt_add_of_ne {name other : String} (h : other ≠ name) (r : Report) (code : Code) :
    (r.add name code).codeAt other = r.codeAt other := by
  by_cases hc : code.isNone
  · simp [add, hc]
  · simp [add, hc, codeAt, Table.get?_insert_of_ne h]

theorem isNone_of_get? {r : Report} {name : String} {code : Code}
    (h : Table.get? name r.rows = some code) : code.isNone = false :=
  r.faulty _ (Table.mem_of_get? h)

/-- A report is what it says of each name. -/
theorem ext_codeAt {r s : Report} (h : ∀ name, r.codeAt name = s.codeAt name) : r = s := by
  have hrows : r.rows = s.rows := by
    refine Table.eq_of_get?_eq r.sorted s.sorted fun name => ?_
    have hname := h name
    simp only [codeAt] at hname
    cases hr : Table.get? name r.rows with
    | none =>
      cases hs : Table.get? name s.rows with
      | none => rfl
      | some code =>
        have := isNone_of_get? hs
        simp [hr, hs] at hname
        simp [Code.isNone_iff.mpr hname.symm] at this
    | some code =>
      cases hs : Table.get? name s.rows with
      | none =>
        have := isNone_of_get? hr
        simp [hr, hs] at hname
        simp [Code.isNone_iff.mpr hname] at this
      | some other => simpa [hr, hs] using hname
  cases r
  cases s
  simp_all

end Report

end PolicyStore
