import PolicyStore.Json
import PolicyStore.Loader

set_option autoImplicit false

namespace PolicyStore

/-!
# The command line

Commands that inspect policy files: they list names, validate by a dictionary, list the defaults of
a dictionary, and carry out a load configuration.
-/

inductive Command where
  | names (file : String) (topOnly filesOnly : Bool)
  | validate (file dictionary : String) (repository : Option String) (lenient json : Bool)
  | defaults (dictionary : String)
  | load (config : String) (json : Bool)
  deriving DecidableEq, Repr

/-- What a command writes, and the code it ends with. -/
structure Output where
  code : Nat := 0
  out : String := ""
  err : String := ""
  deriving DecidableEq, Repr

namespace Command

/-- Arguments sorted by kind: flags, options with their values, and all others. -/
structure Arguments where
  flags : List String := []
  options : List (String × String) := []
  others : List String := []
  deriving DecidableEq, Repr

/-- Splits an argument that names an option and its value. -/
def splitOption? (arg : String) : Option (String × String) :=
  (Text.cut '=' arg.toList).map fun parts => (String.ofList parts.1, String.ofList parts.2)

/-- What an argument is, given the flags and options of a command. -/
inductive Role where
  | flag
  /-- An option whose value is the next argument. -/
  | option
  | optionValue (key value : String)
  | other
  | unknown
  deriving DecidableEq, Repr

def role (flags options : List String) (arg : String) : Role :=
  if arg ∈ flags then .flag
  else if arg ∈ options then .option
  else if arg.startsWith "-" && arg != "-" then
    match splitOption? arg with
    | some (key, value) => if key ∈ options then .optionValue key value else .unknown
    | none => .unknown
  else .other

/-- Sorts the arguments of a command with the given flags and options; nothing if one of them is
unknown. After two dashes all arguments are taken as they are. -/
def sortArguments? (flags options : List String) : List String → Option Arguments
  | [] => some {}
  | "--" :: rest => some { others := rest }
  | arg :: rest =>
    match role flags options arg with
    | .flag => (sortArguments? flags options rest).map fun a => { a with flags := arg :: a.flags }
    | .option =>
      match rest with
      | [] => none
      | value :: rest =>
        (sortArguments? flags options rest).map fun a =>
          { a with options := (arg, value) :: a.options }
    | .optionValue key value =>
      (sortArguments? flags options rest).map fun a =>
        { a with options := (key, value) :: a.options }
    | .other => (sortArguments? flags options rest).map fun a => { a with others := arg :: a.others }
    | .unknown => none

def Arguments.has (a : Arguments) (flag : String) : Bool := a.flags.contains flag

def Arguments.value? (a : Arguments) (option : String) : Option String :=
  (a.options.find? (·.1 = option)).map Prod.snd

def parse? : List String → Option Command
  | "names" :: args => do
    let a ← sortArguments? ["--top-level", "--files"] [] args
    match a.others with
    | [file] => some (.names file (a.has "--top-level") (a.has "--files"))
    | _ => none
  | "validate" :: args => do
    let a ← sortArguments? ["--lenient", "--json"] ["--dictionary", "--repository"] args
    match a.others, a.value? "--dictionary" with
    | [file], some dictionary =>
      some (.validate file dictionary (a.value? "--repository") (a.has "--lenient") (a.has "--json"))
    | _, _ => none
  | "defaults" :: args => do
    let a ← sortArguments? [] [] args
    match a.others with
    | [dictionary] => some (.defaults dictionary)
    | _ => none
  | "load" :: args => do
    let a ← sortArguments? ["--json"] [] args
    match a.others with
    | [config] => some (.load config (a.has "--json"))
    | _ => none
  | _ => none

def lines (ls : List String) : String := String.join (ls.map (· ++ "\n"))

def failure (message : String) : Output := { code := 1, err := lines ["error: " ++ message] }

def nameLine (s : Store) (p : Policy) (name : String) : String :=
  name ++ "\t" ++ ((s.kind? p name).map Kind.name).getD "-" ++ "\t" ++ toString (s.count p name)

def fileLine (s : Store) (p : Policy) (name : String) : String :=
  let paths := match s.find? p name with
    | some (.files files) => files.map FileRef.path
    | _ => []
  name ++ "\t" ++ " ".intercalate paths

/-- What is told about the validation of a loaded policy, after the lines already written. -/
def conclude (out file : String) (loaded : Loaded) (json : Bool) : Output :=
  let valid := loaded.report.isEmpty
  let told := if json then Json.pretty loaded.report ++ "\n"
    else if valid then
      file ++ " is valid (" ++ toString loaded.files ++ " file(s) included).\n"
    else ""
  let found := if json || valid then "" else loaded.report.describe "" ++ "\n"
  if valid then { out := out ++ told }
  else
    { code := 1, out := out ++ told
      err := found ++
        lines ["error: " ++ toString loaded.report.size ++ " parameter(s) failed validation"] }

def runNames (fs : FileSystem) (file : String) (topOnly filesOnly : Bool) : Output :=
  match Policy.ofFile fs true ⟨file, none⟩ Store.empty with
  | .error e _ => failure e.message
  | .ok p s =>
    if filesOnly then { out := lines ((s.names p .files topOnly).map (fileLine s p)) }
    else { out := lines ((s.names p .all topOnly).map (nameLine s p)) }

def runValidate (fs : FileSystem) (file : String) (loader : Loader) (json : Bool) : Output :=
  match loader.load fs with
  | .error e => failure e.message
  | .ok (loaded, _) => conclude "" file loaded json

/-- The defaults of a dictionary whose own files are in its directory. -/
def extract (fs : FileSystem) (path : String) : StoreM (Policy × Report) := do
  let d ← Dictionary.ofFile fs ⟨path, none⟩
  let (d, tried) ← d.loadFiles ⟨fs, Path.directory path, true⟩
  let _ ← StoreM.lift tried
  let (p, found) ← Policy.ofDefaults d false (some .empty)
  return (p, found.getD .empty)

def runDefaults (fs : FileSystem) (path : String) : Output :=
  match extract fs path Store.empty with
  | .error e _ => failure e.message
  | .ok (p, found) s =>
    let out := lines ((s.names p .params false).map (nameLine s p))
    if found.isEmpty then { out }
    else
      { code := 1, out
        err := lines [found.describe "invalid default for ",
          "error: " ++ toString found.size ++ " default(s) could not be extracted"] }

def runLoad (fs : FileSystem) (env : Environment) (path : String) (json : Bool) : Output :=
  let outcome := do
    let cfg ← Config.load fs path
    let loader ← Loader.ofConfig cfg env
    return (cfg, ← loader.load fs)
  match outcome with
  | .error e => failure e.message
  | .ok (cfg, loaded, s) =>
    let out := if json then ""
      else lines ((s.names loaded.policy .params false).map (nameLine s loaded.policy))
    conclude out (cfg.resolve cfg.policy) loaded json

def run (fs : FileSystem) (env : Environment) : Command → Output
  | names file topOnly filesOnly => runNames fs file topOnly filesOnly
  | validate file dictionary repository lenient json =>
    runValidate fs file
      { input := some (.file file), dictionary := some dictionary, repository, strict := !lenient }
      json
  | defaults dictionary => runDefaults fs dictionary
  | load config json => runLoad fs env config json

end Command

def usage : String :=
  "Usage: policy-check names <FILE> [--top-level] [--files]\n" ++
    "       policy-check validate <FILE> --dictionary <DICTIONARY> [--repository <REPOSITORY>]\n" ++
    "                             [--lenient] [--json]\n" ++
    "       policy-check defaults <DICTIONARY>\n" ++
    "       policy-check load <CONFIG> [--json]\n"

def runArguments (fs : FileSystem) (env : Environment) (args : List String) : Output :=
  match Command.parse? args with
  | some command => command.run fs env
  | none => { code := 2, err := usage }

end PolicyStore
