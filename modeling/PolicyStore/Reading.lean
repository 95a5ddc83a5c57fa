import PolicyStore.Store

set_option autoImplicit false

namespace PolicyStore

/-!
# Reading by name

A dotted name leads from row to row: every segment but the last has to hold policies, and the last
policy of the array is the one that the next segment is looked up in. The rows of a policy are
given by a function, so that policies in a store and policies read out of one are read alike.
-/

namespace Entries

variable {π : Type}

/-- Follows the segments of a name. There is nothing below a name that holds nothing; below values
that are not policies there cannot be anything. The error tells the segments followed so far. -/
def descend (rows : π → Entries π) (full : String) :
    List String → Entries π → List String → Except PolicyError (Option (Values π))
  | _, _, [] => .ok none
  | _, entries, [segment] => .ok (Table.get? segment entries)
  | done, entries, segment :: rest =>
    match Table.get? segment entries with
    | none => .ok none
    | some (.policies children) =>
      match children.getLast? with
      | none => .ok none
      | some child => descend rows full (done ++ [segment]) (rows child) rest
    | some values => .error (.notAPolicy full (Name.join (done ++ [segment])) values.kind)

/-- The array under a name, if there is one. -/
def lookup (rows : π → Entries π) (entries : Entries π) (name : String) :
    Except PolicyError (Option (Values π)) := do
  descend rows name [] entries (← Name.segments name)

/-- The array under a name, where an illegal name or a wrong way counts as nothing. -/
def find? (rows : π → Entries π) (entries : Entries π) (name : String) : Option (Values π) :=
  match lookup rows entries name with
  | .ok found => found
  | .error _ => none

def values (rows : π → Entries π) (entries : Entries π) (name : String) :
    Except PolicyError (Values π) := do
  match ← lookup rows entries name with
  | some found => .ok found
  | none => .error (.nameNotFound name)

/-- The array under a name, which has to hold values of the given kind. -/
def array (rows : π → Entries π) (entries : Entries π) (kind : Kind) (name : String) :
    Except PolicyError (Values π) := do
  let found ← values rows entries name
  if found.kind = kind then .ok found else .error (.wrongType name kind found.kind)

/-- The last value of an array that was read under a name. -/
def lastOf (name : String) (found : Values π) : Except PolicyError (Value π) :=
  match found.last? with
  | some v => .ok v
  | none => .error (.nameNotFound name)

/-- The last value under a name, whatever its kind. -/
def value (rows : π → Entries π) (entries : Entries π) (name : String) :
    Except PolicyError (Value π) := do
  lastOf name (← values rows entries name)

/-- The last value under a name, which has to be of the given kind. -/
def get (rows : π → Entries π) (entries : Entries π) (kind : Kind) (name : String) :
    Except PolicyError (Value π) := do
  lastOf name (← array rows entries kind name)

/-- The last policy under a name that holds policies. -/
def policy? (rows : π → Entries π) (entries : Entries π) (name : String) : Option π :=
  match find? rows entries name with
  | some (.policies children) => children.getLast?
  | _ => none

end Entries

namespace Store

def lookup (s : Store) (p : Policy) (name : String) : Except PolicyError (Option (Values Policy)) :=
  Entries.lookup s.entries (s.entries p) name

def find? (s : Store) (p : Policy) (name : String) : Option (Values Policy) :=
  Entries.find? s.entries (s.entries p) name

def values (s : Store) (p : Policy) (name : String) : Except PolicyError (Values Policy) :=
  Entries.values s.entries (s.entries p) name

def array (s : Store) (p : Policy) (kind : Kind) (name : String) :
    Except PolicyError (Values Policy) :=
  Entries.array s.entries (s.entries p) kind name

def value (s : Store) (p : Policy) (name : String) : Except PolicyError (Value Policy) :=
  Entries.value s.entries (s.entries p) name

def get (s : Store) (p : Policy) (kind : Kind) (name : String) : Except PolicyError (Value Policy) :=
  Entries.get s.entries (s.entries p) kind name

def policy? (s : Store) (p : Policy) (name : String) : Option Policy :=
  Entries.policy? s.entries (s.entries p) name

def exists? (s : Store) (p : Policy) (name : String) : Bool := (s.find? p name).isSome

def kind? (s : Store) (p : Policy) (name : String) : Option Kind := (s.find? p name).map Values.kind

def count (s : Store) (p : Policy) (name : String) : Nat :=
  match s.find? p name with
  | some found => found.length
  | none => 0

end Store

end PolicyStore
