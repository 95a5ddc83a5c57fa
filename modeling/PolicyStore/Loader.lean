import PolicyStore.DictionaryFiles
import PolicyStore.Merge
import PolicyStore.Product
import PolicyStore.Config

set_option autoImplicit false

namespace PolicyStore

/-!
# Loading a policy

The usual way to a policy: it is read, its files are included, and if there is a dictionary, its
defaults are merged in and the whole is validated.
-/

inductive PolicyInput where
  | file (path : String)
  | text (text : String)
  deriving DecidableEq, Repr

structure Loader where
  input : Option PolicyInput := none
  dictionary : Option String := none
  /-- Where the files of the policy and of the dictionary are; each one's own directory if absent. -/
  repository : Option String := none
  strict : Bool := true
  /-- Whether the dictionary stays attached to the policy. -/
  keep : Bool := true
  deriving DecidableEq, Repr

structure Loaded where
  policy : Policy
  /-- How many files were tried in following references. -/
  files : Nat
  report : Report
  deriving DecidableEq

namespace Loader

def repositoryFor (loader : Loader) (file : Option String) : String :=
  match loader.repository with
  | some dir => dir
  | none => (file.map Path.directory).getD ""

def loadInput (loader : Loader) (fs : FileSystem) (input : PolicyInput) : StoreM (Policy × Nat) := do
  let (p, file) ← match input with
    | .file path => do pure (← Policy.ofFile fs loader.strict ⟨path, none⟩, some path)
    | .text text => do pure (← Policy.ofText loader.strict text, none)
  let files ← p.includeFiles ⟨fs, loader.repositoryFor file, loader.strict⟩
  return (p, files)

def loadDictionary (loader : Loader) (fs : FileSystem) (path : String) :
    StoreM (Dictionary × Nat) := do
  let d ← Dictionary.ofFile fs ⟨path, none⟩
  let (d, tried) ← d.loadFiles ⟨fs, loader.repositoryFor (some path), loader.strict⟩
  return (d, ← StoreM.lift tried)

/-- Merges the defaults of a dictionary into a policy and validates it. -/
def complete (loader : Loader) (p : Policy) (d : Dictionary) : StoreM Report := do
  let (_, merged) ← p.mergeDefaults (.dictionary d) loader.keep (some .empty)
  if loader.keep then return merged.getD .empty
  let validated ← StoreM.ask (·.validateBy d p merged)
  return validated.getD .empty

def loadFrom (loader : Loader) (fs : FileSystem) (input : PolicyInput) : StoreM Loaded := do
  let (p, files) ← loader.loadInput fs input
  match loader.dictionary with
  | none => return ⟨p, files, .empty⟩
  | some path =>
    let (d, more) ← loader.loadDictionary fs path
    return ⟨p, files + more, ← loader.complete p d⟩

/-- Loads a policy into a store of its own. -/
def load (loader : Loader) (fs : FileSystem) : Except LoadError (Loaded × Store) :=
  match loader.input with
  | none => .error .noSource
  | some input =>
    match loader.loadFrom fs input Store.empty with
    | .ok loaded s => .ok (loaded, s)
    | .error e _ => .error (.policy e)

/-- The loader that a configuration describes. The directory of a product takes the place of the
directory of the configuration for the repository. -/
def ofConfig (cfg : Config) (env : Environment) : Except LoadError Loader := do
  let repository ← match cfg.product, cfg.repository with
    | some product, relative => do
      let root ← Product.directory env product
      pure (some ((relative.map (Path.join root)).getD root))
    | none, some relative => pure (some (cfg.resolve relative))
    | none, none => pure none
  return {
    input := some (.file (cfg.resolve cfg.policy))
    dictionary := cfg.dictionary.map cfg.resolve
    repository, strict := cfg.strict, keep := cfg.keep }

end Loader

end PolicyStore
