import PolicyStore.CommandLine

set_option autoImplicit false

namespace PolicyStore

/-!
# What a command can reach

A command reads the files it names and those that are mentioned in them. As any string of a
dictionary may be the name of a dictionary file, all strings count as mentions.
-/

structure Reach where
  files : List String
  directories : List String
  deriving DecidableEq, Repr

def Values.mentions {π : Type} : Values π → List FileRef
  | files fs => fs
  | strings texts => texts.map fun text => ⟨text, none⟩
  | _ => []

/-- Everything in a text that can be the name of a file. -/
def mentions (text : String) : List FileRef :=
  let reading := do
    let p ← Policy.create []
    p.loadText false text
  let s := match reading Store.empty with
    | .ok _ s => s
    | .error _ s => s
  s.nodes.toList.flatMap fun n => n.entries.flatMap fun row => row.2.mentions

/-- The paths that the mentions in a text lead to. -/
def Reach.next (r : Reach) (text : String) : List String :=
  (mentions text).flatMap fun f => r.directories.map f.resolve

def Loader.reach (loader : Loader) : Reach :=
  let own := match loader.input with
    | some (.file path) => some path
    | _ => none
  { files := own.toList ++ loader.dictionary.toList
    directories := [loader.repositoryFor own, loader.repositoryFor loader.dictionary] }

def Command.reach (fs : FileSystem) (env : Environment) : Command → Reach
  | names file _ _ => ⟨[file], []⟩
  | validate file dictionary repository _ _ =>
    Loader.reach { input := some (.file file), dictionary := some dictionary, repository }
  | defaults dictionary => ⟨[dictionary], [Path.directory dictionary]⟩
  | load config _ =>
    let found := do
      let cfg ← Config.load fs config
      Loader.ofConfig cfg env
    match found with
    | .ok loader => { loader.reach with files := config :: loader.reach.files }
    | .error _ => ⟨[config], []⟩

/-- The variable that a command looks up, given its configuration. -/
def Command.setting? (fs : FileSystem) : Command → Option String
  | load config _ =>
    match Config.load fs config with
    | .ok cfg => cfg.product.map Product.variableName
    | .error _ => none
  | _ => none

end PolicyStore
