import PolicyStore.Names
import PolicyStore.Update
import PolicyStore.Schema.Default

set_option autoImplicit false

namespace PolicyStore

/-!
# Validating and completing policies

A policy is validated by a dictionary, and completed with the defaults that a dictionary declares or
that another policy holds. Findings go into a report that is handed in; without one they are a
failure.
-/

/-- Settles findings: they join the report, or are a failure if there are any but no report. -/
def settle (found : List Finding) : Option Report → Except PolicyError (Option Report)
  | some r => .ok (some (r.absorb "" (Report.empty.record found)))
  | none =>
    let fresh := Report.empty.record found
    if fresh.isEmpty then .ok none else .error (.validation fresh)

namespace Store

def validateBy (s : Store) (d : Dictionary) (p : Policy) (acc : Option Report) :
    Except PolicyError (Option Report) :=
  settle ((s.schema d).findings (s.tree p)) acc

def validate (s : Store) (p : Policy) (acc : Option Report) : Except PolicyError (Option Report) :=
  match s.dictionary? p with
  | some d => s.validateBy d p acc
  | none => .error (.dictionary .absent)

end Store

namespace Values

def plant : Values Tree → StoreM (Values Policy)
  | policies ts => modifyGet fun s =>
    let (ps, s) := Tree.plantAll s ts
    (policies ps, s)
  | vs => pure (vs.map Tree.handle)

end Values

namespace Definition

/-- Writes the first of some values in the place of what a name holds and appends the others. -/
def writeAll (p : Policy) (name : String) : List (Value Policy) → StoreM Unit
  | [] => return
  | v :: vs => do
    p.set name v
    vs.forM (p.add name)

/-- Writes the default under a name, if the definition has one and accepts it. -/
def applyDefault (d : Definition) (p : Policy) (name : String) (acc : Option Report) :
    StoreM (Bool × Option Report) := do
  match d.default with
  | none => return (false, acc)
  | some values =>
    let problems := d.problems name values
    if problems.isEmpty then
      writeAll p name (← values.plant).toList
      return (true, acc)
    else return (false, ← StoreM.lift (settle problems acc))

end Definition

inductive DefaultSource where
  | policy (p : Policy)
  | dictionary (d : Dictionary)
  deriving DecidableEq

namespace Policy

/-- A new policy with all defaults of a dictionary, which is attached to it on demand. -/
def ofDefaults (d : Dictionary) (attached : Bool) (acc : Option Report) :
    StoreM (Policy × Option Report) := do
  let defaults := ((← get).schema d).defaults
  let acc ← StoreM.lift (settle defaults.findings acc)
  let p ← modifyGet fun s => (Tree.fresh defaults.entries).plant s
  if attached then p.attach d
  return (p, acc)

/-- Copies the array under a name from another policy, unless the name is taken or cannot be
reached here; answers how many arrays were copied. -/
def mergeName (p source : Policy) (name : String) : StoreM Nat := do
  if (← get).exists? p name then return 0
  let values ← StoreM.ask (·.values source name)
  let copy ← values.deepCopy
  match (← get).put p name copy with
  | .ok s =>
    modify fun _ => s
    return 1
  | .error e => if e.isTypeError then return 0 else throw e

def mergeNames (p source : Policy) : List String → StoreM Nat
  | [] => return 0
  | name :: names => do
    let first ← p.mergeName source name
    return first + (← p.mergeNames source names)

/-- Copies every name that is missing. The dictionary of the source can be kept for validation; if
there is one in the end, the policy is validated. Answers how many names were copied. -/
def mergeDefaults (p : Policy) (source : DefaultSource) (keep : Bool) (acc : Option Report) :
    StoreM (Nat × Option Report) := do
  let (defaults, schema, acc) ← match source with
    | .policy q => do pure (q, (← get).dictionary? q, acc)
    | .dictionary d => do
      let (q, acc) ← ofDefaults d false acc
      pure (q, some d, acc)
  let copied ← p.mergeNames defaults ((← get).names defaults .all false)
  match schema with
  | some d => if keep then p.attach d
  | none => pure ()
  match (← get).dictionary? p with
  | some _ => return (copied, ← StoreM.ask (·.validate p acc))
  | none => return (copied, acc)

end Policy

end PolicyStore
