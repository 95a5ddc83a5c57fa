import PolicyStore.Source

set_option autoImplicit false

namespace PolicyStore.Include

/-!
# Including files

Every reference to a file in a policy, at any depth, is replaced by the policy that the file holds,
and so are the references in that file. The files that are being included form a chain: a file that
is on the chain is not included again, and the chain has a greatest length.
-/

/-- The greatest length of the chain of files. -/
def maxDepth : Nat := 32

structure Settings where
  files : FileSystem
  /-- Where relative paths start, unless a reference has a repository of its own. -/
  repository : String
  /-- Whether a file that cannot be included is a failure, or an empty policy in its place. -/
  strict : Bool

/-- Resolves the references of a policy, given the chain that leads to it. -/
abbrev Resolver := List String → Policy → StoreM Nat

/-- Reads a file that is not on the chain; without a resolver the chain cannot grow any more. -/
def open? (cfg : Settings) (inner : Option Resolver) (chain : List String) (path key : String) :
    StoreM Policy :=
  if inner.isNone || chain.any (Path.same key) then throw (.circularInclude path)
  else Policy.ofFile cfg.files true ⟨path, none⟩

/-- The policy that takes the place of a reference, and how many files were tried for it. -/
def replacement (cfg : Settings) (inner : Option Resolver) (chain : List String) (f : FileRef) :
    StoreM (Policy × Nat) := fun s =>
  let path := f.resolve cfg.repository
  let key := cfg.files.canonical path
  match open? cfg inner chain path key s, inner with
  | .ok p s, some resolve =>
    match resolve (key :: chain) p s with
    | .ok nested s => .ok (p, 1 + nested) s
    | .error e s => .error e s
  | .ok p s, none => .ok (p, 1) s
  | .error e s, _ =>
    if cfg.strict then .error e s
    else
      match Policy.create [] s with
      | .ok p s => .ok (p, 1) s
      | .error e s => .error e s

/-- The replacements of an array of references, and how many files were tried in all. -/
def replacements (replace : FileRef → StoreM (Policy × Nat)) :
    List FileRef → StoreM (List Policy × Nat)
  | [] => return ([], 0)
  | f :: fs => do
    let (p, tried) ← replace f
    let (ps, others) ← replacements replace fs
    return (p :: ps, tried + others)

/-- Replaces arrays of references one after the other, each only when all of it is loaded. -/
def replaceArrays (replace : FileRef → StoreM (Policy × Nat)) (p : Policy) :
    List (String × List FileRef) → StoreM Nat
  | [] => return 0
  | (key, files) :: rest => do
    let (loaded, tried) ← replacements replace files
    modify fun s => s.setEntries p (Table.insert key (.policies loaded) (s.entries p))
    return tried + (← replaceArrays replace p rest)

/-- The arrays of references among the rows of a policy. -/
def references (rows : Entries Policy) : List (String × List FileRef) :=
  rows.filterMap fun row =>
    match row.2 with
    | .files files => some (row.1, files)
    | _ => none

/-- The policies among the rows, apart from those under the given keys. -/
def others (keys : List String) (rows : Entries Policy) : List Policy :=
  (rows.filter fun row => !keys.contains row.1).flatMap fun row => row.2.children

/-- Adds up the results of an action on each policy in turn. -/
def sumOver (action : Policy → StoreM Nat) : List Policy → StoreM Nat
  | [] => return 0
  | p :: ps => do
    let first ← action p
    return first + (← sumOver action ps)

/-- Resolves the references of a policy and of those below it, down to a number of levels. -/
def resolveBelow (replace : FileRef → StoreM (Policy × Nat)) : Nat → Policy → StoreM Nat
  | 0, _ => return 0
  | depth + 1, p => do
    let found := references ((← get).entries p)
    let tried ← replaceArrays replace p found
    let below := others (found.map Prod.fst) ((← get).entries p)
    return tried + (← sumOver (resolveBelow replace depth) below)

/-- Resolves all references below a policy when the chain may still grow by a number of files. -/
def resolve (cfg : Settings) : Nat → Resolver
  | 0 => fun chain p => do resolveBelow (replacement cfg none chain) (← get).size p
  | room + 1 => fun chain p => do
    resolveBelow (replacement cfg (some (resolve cfg room)) chain) (← get).size p

end PolicyStore.Include

namespace PolicyStore

/-- Replaces every file reference below the policy and answers how many files were tried. -/
def Policy.includeFiles (p : Policy) (cfg : Include.Settings) : StoreM Nat :=
  Include.resolve cfg Include.maxDepth [] p

end PolicyStore
