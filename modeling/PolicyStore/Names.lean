import PolicyStore.Tree

set_option autoImplicit false

namespace PolicyStore

/-!
# The names of a policy

Every name that leads to an array, each before the names below it. Only the last policy of an array
is entered, as it is the only one that names lead into.
-/

inductive NameFilter where
  | all
  /-- Values that are not policies. -/
  | params
  | policies
  /-- References to files not yet loaded. -/
  | files
  deriving DecidableEq, Repr

def NameFilter.accepts : NameFilter → Kind → Bool
  | all, _ => true
  | params, k => k ≠ .policy
  | policies, k => k = .policy
  | files, k => k = .file

namespace Tree

def namesOfRow (filter : NameFilter) (key : String) (kind : Kind) (below : List String) :
    List String :=
  (if filter.accepts kind then [key] else []) ++ below.map fun name => key ++ "." ++ name

mutual

def names (filter : NameFilter) : Tree → List String
  | node _ _ rows => namesOfEntries filter rows

def namesOfEntries (filter : NameFilter) : List (String × Values Tree) → List String
  | [] => []
  | (key, .policies children) :: rows =>
    namesOfRow filter key .policy (namesOfLast filter children) ++ namesOfEntries filter rows
  | (key, values) :: rows =>
    namesOfRow filter key values.kind [] ++ namesOfEntries filter rows

def namesOfLast (filter : NameFilter) : List Tree → List String
  | [] => []
  | [t] => names filter t
  | _ :: t :: ts => namesOfLast filter (t :: ts)

end

/-- The accepted names of the policy's own rows. -/
def topNames {π : Type} (filter : NameFilter) (rows : Entries π) : List String :=
  (rows.filter fun row => filter.accepts row.2.kind).map Prod.fst

/-- A key behind the name that leads to its policy, which is empty at the top. -/
def fullName (above key : String) : String := if above = "" then key else above ++ "." ++ key

def collectRow (filter : NameFilter) (name : String) (kind : Kind) (out : List String) :
    List String :=
  if filter.accepts kind then out ++ [name] else out

mutual

/-- Appends the accepted names, in full, to others. -/
def collect (filter : NameFilter) (topOnly : Bool) (above : String) :
    Tree → List String → List String
  | node _ _ rows, out => collectRows filter topOnly above rows out

def collectRows (filter : NameFilter) (topOnly : Bool) (above : String) :
    List (String × Values Tree) → List String → List String
  | [], out => out
  | (key, .policies children) :: rows, out =>
    let out := collectRow filter (fullName above key) .policy out
    let out := if topOnly then out else collectLast filter (fullName above key) children out
    collectRows filter topOnly above rows out
  | (key, values) :: rows, out =>
    collectRows filter topOnly above rows
      (collectRow filter (fullName above key) values.kind out)

def collectLast (filter : NameFilter) (above : String) : List Tree → List String → List String
  | [], out => out
  | [t], out => collect filter false above t out
  | _ :: t :: ts, out => collectLast filter above (t :: ts) out

end

end Tree

/-- The accepted names of a policy, either all of them or those without a dot. -/
def Store.names (s : Store) (p : Policy) (filter : NameFilter) (topOnly : Bool) : List String :=
  if topOnly then Tree.topNames filter (s.entries p) else (s.tree p).names filter

/-- Appends the accepted names of a policy to others, and answers how many they are. -/
def Store.collectNames (s : Store) (p : Policy) (filter : NameFilter) (topOnly : Bool)
    (out : List String) : List String × Nat :=
  let all := (s.tree p).collect filter topOnly "" out
  (all, all.length - out.length)

end PolicyStore
