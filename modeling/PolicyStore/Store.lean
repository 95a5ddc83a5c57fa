import PolicyStore.Name

set_option autoImplicit false

namespace PolicyStore

/-!
# Stores

All policies live in one store and refer to each other by handle, so that a policy can be held
under several names. An operation on the store may fail; it then leaves the store as it was when
the failure arose.
-/

/-- The handle of a policy. Two handles are equal when they stand for one and the same policy. -/
structure Policy where
  id : Nat
  deriving DecidableEq, Repr

/-- The rows of a policy: the array that each of its own names holds, in the order of the names. -/
abbrev Entries (π : Type) := List (String × Values π)

/-- A policy that describes others. Its rows are its own, the policies in them are shared. -/
structure Dictionary where
  entries : Entries Policy
  deriving DecidableEq

structure Node where
  entries : Entries Policy := []
  /-- The dictionary that writes to the policy are checked against. -/
  dictionary : Option Dictionary := none
  deriving DecidableEq

structure Store where
  nodes : Array Node := #[]
  deriving DecidableEq

abbrev StoreM := EStateM PolicyError Store

namespace Store

def empty : Store := {}

def size (s : Store) : Nat := s.nodes.size

/-- The node of a handle; a handle that the store has not given out stands for an empty policy. -/
def node (s : Store) (p : Policy) : Node := s.nodes[p.id]?.getD {}

def entries (s : Store) (p : Policy) : Entries Policy := (s.node p).entries

def dictionary? (s : Store) (p : Policy) : Option Dictionary := (s.node p).dictionary

/-- Adds a node and answers its handle. -/
def alloc (s : Store) (n : Node) : Policy × Store := (⟨s.size⟩, ⟨s.nodes.push n⟩)

def modify (s : Store) (p : Policy) (f : Node → Node) : Store := ⟨s.nodes.modify p.id f⟩

def setEntries (s : Store) (p : Policy) (rows : Entries Policy) : Store :=
  s.modify p fun n => { n with entries := rows }

def setDictionary (s : Store) (p : Policy) (d : Dictionary) : Store :=
  s.modify p fun n => { n with dictionary := some d }

@[simp] theorem size_alloc (s : Store) (n : Node) : (s.alloc n).2.size = s.size + 1 := by
  simp [alloc, size]

@[simp] theorem size_modify (s : Store) (p : Policy) (f : Node → Node) :
    (s.modify p f).size = s.size := by
  simp [modify, size]

@[simp] theorem node_alloc_self (s : Store) (n : Node) : (s.alloc n).2.node (s.alloc n).1 = n := by
  simp [alloc, node, size]

theorem node_alloc_of_lt {s : Store} {p : Policy} (h : p.id < s.size) (n : Node) :
    (s.alloc n).2.node p = s.node p := by
  simp only [size] at h
  simp [alloc, node, Array.getElem?_push, Nat.ne_of_lt h]

theorem node_modify_self {s : Store} {p : Policy} (h : p.id < s.size) (f : Node → Node) :
    (s.modify p f).node p = f (s.node p) := by
  simp only [size] at h
  simp [modify, node, h, Array.getElem_modify]

theorem node_modify_of_ne {p q : Policy} (h : q ≠ p) (s : Store) (f : Node → Node) :
    (s.modify p f).node q = s.node q := by
  have hid : p.id ≠ q.id := by
    intro hid
    cases p
    cases q
    simp_all
  simp [modify, node, Array.getElem?_modify, hid]

end Store

namespace StoreM

/-- Asks the store a question that may have no answer. -/
def ask {α : Type} (question : Store → Except PolicyError α) : StoreM α := fun s =>
  match question s with
  | .ok a => .ok a s
  | .error e => .error e s

/-- Makes a result that does not depend on the store part of a computation on it. -/
def lift {α : Type} (result : Except PolicyError α) : StoreM α := ask fun _ => result

end StoreM

/-- A new policy with the given rows and no dictionary. -/
def Policy.create (rows : Entries Policy) : StoreM Policy :=
  modifyGet (·.alloc { entries := rows })

end PolicyStore
