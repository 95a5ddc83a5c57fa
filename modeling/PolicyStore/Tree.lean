import PolicyStore.Reading

set_option autoImplicit false

namespace PolicyStore

/-!
# Policies as trees

What can be reached from a policy, read out of its store as a tree. A policy that is held under
several names occurs once for each of them; the handle of every occurrence is kept.
-/

inductive Tree where
  | node (handle : Policy) (dictionary : Option Dictionary) (entries : List (String × Values Tree))

namespace Tree

def handle : Tree → Policy
  | node p _ _ => p

def dictionary : Tree → Option Dictionary
  | node _ d _ => d

def entries : Tree → Entries Tree
  | node _ _ rows => rows

def find? (t : Tree) (name : String) : Option (Values Tree) :=
  Entries.find? entries t.entries name

mutual

/-- A copy of every policy of the tree, each with the dictionary of the policy it copies. -/
def plant (s : Store) : Tree → Policy × Store
  | node _ d rows =>
    let (copies, s) := plantEntries s rows
    s.alloc { entries := copies, dictionary := d }

def plantEntries (s : Store) : List (String × Values Tree) → Entries Policy × Store
  | [] => ([], s)
  | (key, .policies children) :: rows =>
    let (copies, s) := plantAll s children
    let (rest, s) := plantEntries s rows
    ((key, .policies copies) :: rest, s)
  | (key, values) :: rows =>
    let (rest, s) := plantEntries s rows
    ((key, values.map handle) :: rest, s)

def plantAll (s : Store) : List Tree → List Policy × Store
  | [] => ([], s)
  | t :: ts =>
    let (p, s) := plant s t
    let (ps, s) := plantAll s ts
    (p :: ps, s)

end

end Tree

namespace Store

/-- The tree below a policy down to a number of levels. -/
def unfold (s : Store) : Nat → Policy → Tree
  | 0, p => .node p none []
  | depth + 1, p =>
    .node p (s.dictionary? p) ((s.entries p).map fun row => (row.1, row.2.map (s.unfold depth)))

/-- The rows as trees, as deep as a store without cycles can be. -/
def treesOf (s : Store) (rows : Entries Policy) : Entries Tree :=
  rows.map fun row => (row.1, row.2.map (s.unfold s.size))

/-- The whole tree below a policy. -/
def tree (s : Store) (p : Policy) : Tree := s.unfold s.size p

end Store

namespace Policy

/-- A new policy with the same rows and the same dictionary; the policies below are shared. -/
def shallowCopy (p : Policy) : StoreM Policy :=
  modifyGet fun s => s.alloc (s.node p)

/-- A new policy like this one that shares no policy with it. -/
def deepCopy (p : Policy) : StoreM Policy :=
  modifyGet fun s => (s.tree p).plant s

end Policy

namespace Value

/-- A copy that shares no policy with the value. -/
def deepCopy : Value Policy → StoreM (Value Policy)
  | policy p => do return policy (← p.deepCopy)
  | v => pure v

end Value

namespace Values

/-- A copy that shares no policy with the array. -/
def deepCopy : Values Policy → StoreM (Values Policy)
  | policies ps => do return policies (← ps.mapM Policy.deepCopy)
  | vs => pure vs

end Values

end PolicyStore
