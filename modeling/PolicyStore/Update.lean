import PolicyStore.Schema.Validation

set_option autoImplicit false

namespace PolicyStore

/-!
# Writing by name

A write first asks the dictionary of the policy, then finds the place that the name leads to, and
only then changes the store; policies that the name passes through are made where they are missing.
-/

/-- The place a name leads to: a row of an existing policy, and the segments below that row, whose
policies are still to be made. -/
structure Place where
  owner : Policy
  key : String
  below : List String
  deriving DecidableEq, Repr

namespace Store

/-- Follows the segments of a name as far as there are policies. -/
def placeFrom (s : Store) (full : String) :
    List String → Policy → List String → Except PolicyError Place
  | _, _, [] => .error (.badName full)
  | _, p, [segment] => .ok ⟨p, segment, []⟩
  | done, p, segment :: rest =>
    match Table.get? segment (s.entries p) with
    | none => .ok ⟨p, segment, rest⟩
    | some (.policies children) =>
      match children.getLast? with
      | some child => placeFrom s full (done ++ [segment]) child rest
      | none => .error (.notAPolicy full (Name.join (done ++ [segment])) .policy)
    | some values => .error (.notAPolicy full (Name.join (done ++ [segment])) values.kind)

def place (s : Store) (p : Policy) (name : String) : Except PolicyError Place := do
  s.placeFrom name [] p (← Name.segments name)

/-- Makes the policies for the given segments, the innermost with the values, if there are any. -/
def nest (s : Store) (values : Values Policy) : List String → Values Policy × Store
  | [] => (values, s)
  | segment :: rest =>
    let (inner, s) := s.nest values rest
    let (p, s) := s.alloc { entries := if inner.isEmpty then [] else [(segment, inner)] }
    (.policies [p], s)

/-- Writes an array to a place. The empty array is never stored: writing it erases the row. -/
def write (s : Store) (spot : Place) (values : Values Policy) : Store :=
  let (outer, s) := s.nest values spot.below
  s.setEntries spot.owner <|
    if outer.isEmpty then Table.erase spot.key (s.entries spot.owner)
    else Table.insert spot.key outer (s.entries spot.owner)

/-- The array at a place, empty of the given kind if there is none. -/
def valuesAt (s : Store) (spot : Place) (kind : Kind) : Values Policy :=
  match spot.below with
  | [] => (Table.get? spot.key (s.entries spot.owner)).getD (.empty kind)
  | _ :: _ => .empty kind

def schema (s : Store) (d : Dictionary) : Schema := ⟨s.treesOf d.entries⟩

/-- What the dictionary of a policy has against a value that is to be stored under a name besides
a number of others. A name that cannot be looked up is a fault of the name, not of the write. -/
def objection (s : Store) (p : Policy) (name : String) (v : Value Policy) (count : Nat) :
    Except PolicyError Code :=
  match s.dictionary? p with
  | none => .ok .none
  | some d =>
    match (s.schema d).lookup name with
    | .ok definition => .ok (definition.judgeValue (v.map s.tree) (some count))
    | .error (.nameNotFound _) => .ok .unknownName
    | .error (.dictionaryNotLoaded _ _) => .ok .notLoaded
    | .error (.dictionary _) => .ok .badDefinition
    | .error e => .error e

/-- Fails with the objection to a value, if there is one. -/
def approve (s : Store) (p : Policy) (name : String) (v : Value Policy) (count : Nat) :
    Except PolicyError Unit := do
  let code ← s.objection p name v count
  if code.isNone then return () else .error (.validation (Report.empty.add name code))

/-- Approves the values of an array one after the other, each with those before it. -/
def approveAll (s : Store) (p : Policy) (name : String) : Nat → List (Value Policy) →
    Except PolicyError Unit
  | _, [] => .ok ()
  | count, v :: vs => do
    s.approve p name v count
    s.approveAll p name (count + 1) vs

/-- The store with an array written under a name, whatever the dictionary says. -/
def put (s : Store) (p : Policy) (name : String) (values : Values Policy) :
    Except PolicyError Store := do
  return s.write (← s.place p name) values

def set (s : Store) (p : Policy) (name : String) (v : Value Policy) : Except PolicyError Store := do
  s.approve p name v 0
  s.put p name (.singleton v)

def setValues (s : Store) (p : Policy) (name : String) (values : Values Policy) :
    Except PolicyError Store := do
  s.approveAll p name 0 values.toList
  s.put p name values

def add (s : Store) (p : Policy) (name : String) (v : Value Policy) : Except PolicyError Store := do
  s.approve p name v (s.count p name)
  let spot ← s.place p name
  let old := s.valuesAt spot v.kind
  match old.push? v with
  | some values => return s.write spot values
  | none => .error (.wrongType name old.kind v.kind)

/-- The store without a name, and whether the name held anything. -/
def remove (s : Store) (p : Policy) (name : String) : Except PolicyError (Bool × Store) := do
  let spot ← s.place p name
  match spot.below, Table.get? spot.key (s.entries spot.owner) with
  | [], some _ => return (true, s.setEntries spot.owner (Table.erase spot.key (s.entries spot.owner)))
  | _, _ => return (false, s)

end Store

namespace StoreM

/-- Replaces the store by the outcome of an update, or fails and leaves it as it is. -/
def update (f : Store → Except PolicyError Store) : StoreM Unit := fun s =>
  match f s with
  | .ok s => .ok () s
  | .error e => .error e s

end StoreM

namespace Policy

/-- Writes an array without asking the dictionary. -/
def put (p : Policy) (name : String) (values : Values Policy) : StoreM Unit :=
  StoreM.update (·.put p name values)

/-- Replaces what a name holds by one value. -/
def set (p : Policy) (name : String) (v : Value Policy) : StoreM Unit :=
  StoreM.update (·.set p name v)

/-- Replaces what a name holds by an array; the empty array removes the name. -/
def setValues (p : Policy) (name : String) (values : Values Policy) : StoreM Unit :=
  StoreM.update (·.setValues p name values)

/-- Appends a value to the array under a name. -/
def add (p : Policy) (name : String) (v : Value Policy) : StoreM Unit :=
  StoreM.update (·.add p name v)

/-- Removes a name and tells whether it held anything. -/
def remove (p : Policy) (name : String) : StoreM Bool := fun s =>
  match s.remove p name with
  | .ok (found, s) => .ok found s
  | .error e => .error e s

/-- Has all later writes to the policy checked against a dictionary. -/
def attach (p : Policy) (d : Dictionary) : StoreM Unit :=
  modify (·.setDictionary p d)

end Policy

end PolicyStore
