import PolicyStore.Include

set_option autoImplicit false

namespace PolicyStore

/-!
# Products

The directory of a product is the value of an environment variable, whose name is made from that of
the product. A default policy file is found in the directory of its product.
-/

abbrev Environment := String → Option String

inductive LoadError where
  | policy (e : PolicyError)
  | unreadable (fault : FileFault)
  /-- A configuration that is malformed or lacks what it has to say. -/
  | badConfig
  | repositoryNotFound (product setting : String)
  | noSource
  deriving DecidableEq

def LoadError.message : LoadError → String
  | policy e => e.message
  | unreadable fault => "I/O error: " ++ fault.message
  | badConfig => "YAML error: malformed configuration"
  | repositoryNotFound product setting =>
    "repository for product '" ++ product ++ "' not found: $" ++ setting ++ " is not set"
  | noSource => "no policy source configured"

namespace Product

/-- The name of the variable of a product: in upper case, with underscores for dashes. -/
def variableName (product : String) : String :=
  Text.upperAscii (product.map fun c => if c = '-' then '_' else c) ++ "_DIR"

/-- The directory of a product. An empty value counts as no value. -/
def directory (env : Environment) (product : String) : Except LoadError String :=
  let setting := variableName product
  match env setting with
  | some dir => if dir = "" then .error (.repositoryNotFound product setting) else .ok dir
  | none => .error (.repositoryNotFound product setting)

end Product

/-- A policy file in the directory of a product. -/
structure DefaultFile where
  product : String
  repository : String
  path : String
  deriving DecidableEq, Repr

namespace DefaultFile

def locate (env : Environment) (product path : String) : Except LoadError DefaultFile := do
  return ⟨product, ← Product.directory env product, path⟩

def file (f : DefaultFile) : FileRef := ⟨f.path, some f.repository⟩

def fullPath (f : DefaultFile) : String := f.file.resolve f.repository

/-- The policy of the file and of all files that it refers to. -/
def load (f : DefaultFile) (fs : FileSystem) (strict : Bool) : StoreM Policy := do
  let p ← Policy.ofFile fs strict f.file
  let _ ← p.includeFiles ⟨fs, f.repository, strict⟩
  return p

end DefaultFile

end PolicyStore
