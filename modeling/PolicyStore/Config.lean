import PolicyStore.Yaml.Document
import PolicyStore.Yaml.Writer
import PolicyStore.Source
import PolicyStore.Product

set_option autoImplicit false

namespace PolicyStore

/-!
# Load configurations

What to load and how, as read from a file. Paths in it start from the directory of that file.
-/

structure Config where
  policy : String
  dictionary : Option String := none
  repository : Option String := none
  product : Option String := none
  strict : Bool := true
  /-- Whether the dictionary stays attached to the policy. -/
  keep : Bool := true
  /-- The directory of the file that the configuration was read from. -/
  base : Option String := none
  deriving DecidableEq, Repr

namespace Config

/-- The path as seen from the directory of the configuration. -/
def resolve (cfg : Config) (path : String) : String :=
  match cfg.base with
  | some dir => Path.join dir path
  | none => path

/-- The value of a key that may stand at most once and is no collection. -/
def field? (members : Yaml.Members) (key : String) : Option (Option Yaml.Scalar) :=
  match members.filter (·.1 = key) with
  | [] => some none
  | [(_, some value)] => some (some value)
  | _ => none

def text? (members : Yaml.Members) (key : String) : Option String := do
  return (← (← field? members key)).text

def optionalText? (members : Yaml.Members) (key : String) : Option (Option String) := do
  match ← field? members key with
  | some value => value.optionalText?
  | none => return none

/-- A truth value, which is true unless the configuration tells otherwise. -/
def flag? (members : Yaml.Members) (key : String) : Option Bool := do
  match ← field? members key with
  | some value => value.truth?
  | none => return true

/-- The configuration in a text; keys that mean nothing are passed over. -/
def ofText? (text : String) : Option Config := do
  let members ← (← Yaml.Document.ofText? text).members?
  let policy ← text? members "policy"
  let dictionary ← optionalText? members "dictionary"
  let repository ← optionalText? members "repository"
  let product ← optionalText? members "product"
  let strict ← flag? members "strict"
  let keep ← flag? members "keep_for_validation"
  return { policy, dictionary, repository, product, strict, keep }

/-- Reads a configuration from a file. A file that is not text is no configuration, and neither is
a directory. -/
def load (fs : FileSystem) (path : String) : Except LoadError Config :=
  match fs.readText path with
  | .ok text =>
    match ofText? text with
    | some cfg => .ok { cfg with base := Path.parent? path }
    | none => .error .badConfig
  | .error .notText => .error .badConfig
  | .error .isADirectory => .error .badConfig
  | .error fault => .error (.unreadable fault)

/-- The text that a configuration is saved as; its base is not part of it. -/
def text (cfg : Config) : String :=
  let optional (key : String) (value : Option String) := value.elim "" (Yaml.textMember key)
  Yaml.textMember "policy" cfg.policy ++ optional "dictionary" cfg.dictionary ++
    optional "repository" cfg.repository ++ optional "product" cfg.product ++
    Yaml.flagMember "strict" cfg.strict ++ Yaml.flagMember "keep_for_validation" cfg.keep

end Config

end PolicyStore
