import PolicyStore.Path

set_option autoImplicit false

namespace PolicyStore

/-!
# Values and arrays of values

A name holds an array of values of one kind. The type of the sub-policies is a parameter: handles
into a store, trees read out of one, or nothing at all for the literals of a text.
-/

inductive Kind where
  | bool
  | int
  | double
  | string
  | policy
  | file
  deriving DecidableEq, Repr

namespace Kind

def name : Kind → String
  | bool => "bool"
  | int => "int"
  | double => "double"
  | string => "string"
  | policy => "Policy"
  | file => "PolicyFile"

/-- Reads a type name, ignoring case and surrounding blanks and accepting the usual synonyms. -/
def ofName? (text : String) : Option Kind :=
  match Text.lowerAscii (Text.trimString text) with
  | "bool" | "boolean" => some bool
  | "int" | "integer" => some int
  | "double" | "float" => some double
  | "string" => some string
  | "policy" => some policy
  | "file" | "policyfile" => some file
  | _ => none

end Kind

/-- A reference to a policy file, possibly pinned to a repository of its own. -/
structure FileRef where
  path : String
  repository : Option String := none
  deriving DecidableEq, Repr

namespace FileRef

/-- The path to read, given the repository of the policy that holds the reference. -/
def resolve (f : FileRef) (repository : String) : String :=
  if Path.isAbsolute f.path then f.path
  else Path.join (f.repository.getD repository) f.path

def same (f g : FileRef) : Bool :=
  Path.same f.path g.path &&
    match f.repository, g.repository with
    | none, none => true
    | some r, some s => Path.same r s
    | _, _ => false

end FileRef

inductive Value (π : Type) where
  | bool (b : Bool)
  | int (i : Int32)
  | double (d : Float)
  | string (s : String)
  | policy (p : π)
  | file (f : FileRef)
  deriving DecidableEq

/-- A value that needs no store. -/
abbrev Literal := Value Empty

namespace Value

variable {π ρ : Type}

def kind : Value π → Kind
  | bool _ => .bool
  | int _ => .int
  | double _ => .double
  | string _ => .string
  | policy _ => .policy
  | file _ => .file

def map (f : π → ρ) : Value π → Value ρ
  | bool b => bool b
  | int i => int i
  | double d => double d
  | string s => string s
  | policy p => policy (f p)
  | file r => file r

@[simp] theorem kind_map (f : π → ρ) (v : Value π) : (v.map f).kind = v.kind := by
  cases v <;> rfl

def ofLiteral (v : Literal) : Value π := v.map Empty.elim

/-- Equality of values. Policies are equal when they are the same one, doubles as numbers are, and
files when their paths have the same components. -/
def same (samePolicy : π → π → Bool) : Value π → Value π → Bool
  | bool a, bool b => a == b
  | int a, int b => a == b
  | double a, double b => a == b
  | string a, string b => a == b
  | policy a, policy b => samePolicy a b
  | file a, file b => a.same b
  | _, _ => false

end Value

inductive Values (π : Type) where
  | bools (xs : List Bool)
  | ints (xs : List Int32)
  | doubles (xs : List Float)
  | strings (xs : List String)
  | policies (xs : List π)
  | files (xs : List FileRef)
  deriving DecidableEq

namespace Values

variable {π ρ : Type}

def kind : Values π → Kind
  | bools _ => .bool
  | ints _ => .int
  | doubles _ => .double
  | strings _ => .string
  | policies _ => .policy
  | files _ => .file

/-- The array of a kind without any value. -/
def empty : Kind → Values π
  | .bool => bools []
  | .int => ints []
  | .double => doubles []
  | .string => strings []
  | .policy => policies []
  | .file => files []

def toList : Values π → List (Value π)
  | bools xs => xs.map .bool
  | ints xs => xs.map .int
  | doubles xs => xs.map .double
  | strings xs => xs.map .string
  | policies xs => xs.map .policy
  | files xs => xs.map .file

def length (vs : Values π) : Nat := vs.toList.length

def isEmpty (vs : Values π) : Bool := vs.toList.isEmpty

def get? (vs : Values π) (i : Nat) : Option (Value π) := vs.toList[i]?

/-- The value that stands for the whole array where one value is asked for. -/
def last? (vs : Values π) : Option (Value π) := vs.toList.getLast?

def singleton : Value π → Values π
  | .bool b => bools [b]
  | .int i => ints [i]
  | .double d => doubles [d]
  | .string s => strings [s]
  | .policy p => policies [p]
  | .file f => files [f]

/-- Appends a value of the array's kind; any other value is refused. -/
def push? : Values π → Value π → Option (Values π)
  | bools xs, .bool b => some (bools (xs ++ [b]))
  | ints xs, .int i => some (ints (xs ++ [i]))
  | doubles xs, .double d => some (doubles (xs ++ [d]))
  | strings xs, .string s => some (strings (xs ++ [s]))
  | policies xs, .policy p => some (policies (xs ++ [p]))
  | files xs, .file f => some (files (xs ++ [f]))
  | _, _ => none

/-- The array of a kind with those of the given values that are of this kind. -/
def ofList (k : Kind) (vs : List (Value π)) : Values π :=
  vs.foldl (fun acc v => (acc.push? v).getD acc) (empty k)

def map (f : π → ρ) : Values π → Values ρ
  | bools xs => bools xs
  | ints xs => ints xs
  | doubles xs => doubles xs
  | strings xs => strings xs
  | policies xs => policies (xs.map f)
  | files xs => files xs

/-- The sub-policies of an array; none for an array of another kind. -/
def children : Values π → List π
  | policies xs => xs
  | _ => []

@[simp] theorem kind_empty (k : Kind) : (empty k : Values π).kind = k := by
  cases k <;> rfl

@[simp] theorem kind_map (f : π → ρ) (vs : Values π) : (vs.map f).kind = vs.kind := by
  cases vs <;> rfl

@[simp] theorem kind_singleton (v : Value π) : (singleton v).kind = v.kind := by
  cases v <;> rfl

@[simp] theorem toList_singleton (v : Value π) : (singleton v).toList = [v] := by
  cases v <;> rfl

@[simp] theorem toList_map (f : π → ρ) (vs : Values π) :
    (vs.map f).toList = vs.toList.map (Value.map f) := by
  cases vs <;> simp [map, toList, Value.map, Function.comp_def]

theorem toList_push? {vs ws : Values π} {v : Value π} (h : vs.push? v = some ws) :
    ws.toList = vs.toList ++ [v] := by
  cases vs <;> cases v <;> simp [push?] at h <;> simp [← h, toList]

theorem push?_eq_none_iff {vs : Values π} {v : Value π} :
    vs.push? v = none ↔ vs.kind ≠ v.kind := by
  cases vs <;> cases v <;> simp [push?, kind, Value.kind]

end Values

end PolicyStore
