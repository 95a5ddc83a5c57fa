import PolicyStore.Schema.Lookup

set_option autoImplicit false

namespace PolicyStore

/-!
# Validation

What a schema finds wrong with a policy is a list of names with codes. A definition judges the array
under its name; the policies in it are judged by the schema inside the definition, and their
findings are told under the name of the array and a dot.
-/

abbrev Finding := String × Code

def Report.record (r : Report) (found : List Finding) : Report :=
  found.foldl (fun acc f => acc.add f.1 f.2) r

/-- Findings about the policies under a name. -/
def Finding.under (name : String) (found : List Finding) : List Finding :=
  found.map fun f => (name ++ "." ++ f.1, f.2)

namespace Allowed

/-- A value has to lie between the bounds and to be one of the values, if any are listed. -/
def judge (a : Allowed) (v : Value Tree) : Code :=
  let below := a.min.any fun bound => v.less bound
  let above := a.max.any fun bound => bound.less v
  let listed := a.values.isEmpty || a.values.any fun w => v.sameNumber w
  (if below || above then Code.valueOutOfRange else Code.none).union
    (if listed then Code.none else Code.valueDisallowed)

end Allowed

namespace Definition

/-- The code of a kind that the definition does not accept. -/
def kindFault? (d : Definition) (actual : Kind) : Option Code :=
  match d.kind with
  | none => none
  | some expected =>
    if expected = actual then none
    else if expected = .policy ∧ actual = .file then some .notLoaded
    else some .wrongType

def shortage (d : Definition) (count : Nat) : Code :=
  if count = 0 ∧ 0 < d.minOccurs then .missingRequired
  else if count = 1 ∧ 1 < d.minOccurs then .notAnArray
  else if 0 < count ∧ count < d.minOccurs then .arrayTooShort
  else .none

def excess (d : Definition) (count : Nat) : Code :=
  if d.maxOccurs.any (· < count) then .tooManyValues else .none

def judgeCount (d : Definition) (count : Nat) : Code := (d.shortage count).union (d.excess count)

/-- A policy cannot be judged before the dictionary file of its definition is loaded. -/
def judgeLoaded (d : Definition) (v : Value Tree) : Code :=
  match v, d.sub with
  | .policy _, .unloaded _ => .notLoaded
  | _, _ => .none

/-- What is wrong with an array itself, leaving aside the rows of the policies in it. -/
def judgeArray (d : Definition) (values : Values Tree) : Code :=
  (d.judgeCount values.length).union <|
    match d.kindFault? values.kind with
    | some code => code
    | none =>
      values.toList.foldl
        (fun acc v => acc.union ((d.allowed.judge v).union (d.judgeLoaded v))) .none

/-- What is wrong with a value by itself, and with its being one more than a given number. -/
def judgeValue (d : Definition) (v : Value Tree) (count : Option Nat) : Code :=
  match d.kindFault? v.kind with
  | some code => code
  | none =>
    (match count with
      | some n => d.excess (n + 1)
      | none => .none).union (d.allowed.judge v)

/-- The schema for the policies held under the name, where policies are accepted. -/
def below? (d : Definition) : Option Schema :=
  match d.kindFault? .policy, d.sub with
  | none, .inline schema => some schema
  | _, _ => none

end Definition

namespace Schema

/-- The code of an array by the definition of its name. -/
def judgeRow (s : Schema) (name : String) (values : Values Tree) : Code :=
  match s.definition? name with
  | none => .unknownName
  | some (.error _) => .badDefinition
  | some (.ok d) => d.judgeArray values

/-- The code of a defined name that holds nothing. -/
def judgeAbsent (s : Schema) (name : String) : Code :=
  match s.definition? name with
  | some (.ok d) => d.judgeCount 0
  | _ => .badDefinition

def below? (s : Schema) (name : String) : Option Schema :=
  match s.definition? name with
  | some (.ok d) => d.below?
  | _ => none

/-- The defined names that a policy does not hold. -/
def absences (s : Schema) (rows : Entries Tree) : List Finding :=
  (s.definedNames.filter fun name => (Table.get? name rows).isNone).map
    fun name => (name, s.judgeAbsent name)

mutual

def findings (s : Schema) : Tree → List Finding
  | .node _ _ rows => findingsOfRows s rows ++ s.absences rows

def findingsOfRows (s : Schema) : List (String × Values Tree) → List Finding
  | [] => []
  | (name, .policies children) :: rows =>
    (name, s.judgeRow name (.policies children)) :: findingsBelow (s.below? name) name children ++
      findingsOfRows s rows
  | (name, values) :: rows => (name, s.judgeRow name values) :: findingsOfRows s rows

/-- Findings about each of the policies under a name, by the schema for them, if there is one. -/
def findingsBelow (s : Option Schema) (name : String) : List Tree → List Finding
  | [] => []
  | t :: ts =>
    (match s with
      | some schema => Finding.under name (findings schema t)
      | none => []) ++ findingsBelow s name ts

end

def validate (s : Schema) (t : Tree) : Report := Report.empty.record (s.findings t)

end Schema

namespace Definition

/-- Everything that is wrong with an array under a name. -/
def findings (d : Definition) (name : String) (values : Values Tree) : List Finding :=
  (name, d.judgeArray values) :: Schema.findingsBelow d.below? name values.children

/-- What is wrong with the array that a policy holds under a name, or with its absence. -/
def findingsAt (d : Definition) (name : String) (t : Tree) : List Finding :=
  match Entries.values Tree.entries t.entries name with
  | .ok values => d.findings name values
  | .error (.nameNotFound _) => [(name, d.judgeCount 0)]
  | .error _ => [(name, .wrongType)]

end Definition

end PolicyStore
