import PolicyStore.Schema.Validation

set_option autoImplicit false

namespace PolicyStore

/-!
# Declared defaults

The values that a schema declares as defaults. A default counts only if its own definition accepts
it; the defaults of an inner schema make up a policy, unless there are none.
-/

/-- Defaults by name, and what stood in the way of others. -/
structure Defaults where
  entries : List (String × Values Tree) := []
  findings : List Finding := []

/-- A policy that is not part of any store yet. -/
def Tree.fresh (rows : Entries Tree) : Tree := .node ⟨0⟩ none rows

namespace Definition

/-- The findings that have a fault. -/
def problems (d : Definition) (name : String) (values : Values Tree) : List Finding :=
  (d.findings name values).filter fun f => !f.2.isNone

/-- The default of a name, if its definition accepts it, and otherwise what is wrong with it. -/
def ownDefault (d : Definition) (name : String) (values : Values Tree) : Defaults :=
  match d.problems name values with
  | [] => ⟨[(name, values)], []⟩
  | found => ⟨[], found⟩

end Definition

namespace Defaults

def append (a b : Defaults) : Defaults := ⟨a.entries ++ b.entries, a.findings ++ b.findings⟩

/-- The defaults of an inner schema as those of the name it belongs to. -/
def under (name : String) (inner : Defaults) : Defaults where
  entries := if inner.entries.isEmpty then [] else [(name, .policies [.fresh inner.entries])]
  findings := Finding.under name inner.findings

end Defaults

/-- The defaults of all names that the schema defines, in the order of the names. -/
def Schema.defaults (s : Schema) : Defaults :=
  let parts := s.definedNames.map fun name =>
    match _h : s.definition? name with
    | none => {}
    | some (.error _) => ⟨[], [(name, Code.badDefinition)]⟩
    | some (.ok d) =>
      match d.default with
      | some values => d.ownDefault name values
      | none =>
        match _hsub : d.sub with
        | .inline sub => Defaults.under name (Schema.defaults sub)
        | .unloaded _ => ⟨[], [(name, Code.notLoaded)]⟩
        | .none => {}
  parts.foldr Defaults.append {}
termination_by sizeOf s
decreasing_by exact Schema.sizeOf_sub_lt _h _hsub

end PolicyStore
