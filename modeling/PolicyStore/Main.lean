import PolicyStore.Reach

set_option autoImplicit false

/-!
# The program

Collects the files that a command can reach, carries the command out on them, and writes what it
has to say.
-/

namespace PolicyStore.Program

/-- What was found under a path, and the path without detours. -/
structure Found where
  content : Except FileFault ByteArray
  canonical : String

abbrev Snapshot := List (String × Found)

def faultOf : IO.Error → FileFault
  | .noFileOrDirectory .. => .notFound
  | .permissionDenied .. => .other "Permission denied (os error 13)"
  | e => .other (toString e)

def canonicalOf (path : String) : IO String := do
  try
    return (← IO.FS.realPath path).toString
  catch _ =>
    return path

def look (path : String) : IO Found := do
  let canonical ← canonicalOf path
  try
    let real ← IO.FS.realPath path
    if ← real.isDir then return ⟨.error .isADirectory, canonical⟩
    return ⟨.ok (← IO.FS.readBinFile path), canonical⟩
  catch e =>
    return ⟨.error (faultOf e), canonical⟩

def fileSystem (seen : Snapshot) : FileSystem where
  read path :=
    match seen.lookup path with
    | some found => found.content
    | none => .error .notFound
  canonical path :=
    match seen.lookup path with
    | some found => found.canonical
    | none => path

/-- Looks at paths, and at those that are mentioned in the files under them, until all are seen. -/
partial def gather (reach : Reach) (seen : Snapshot) : List String → IO Snapshot
  | [] => return seen
  | path :: rest => do
    if (seen.lookup path).isSome then gather reach seen rest
    else
      let found ← look path
      let more := match found.content with
        | .ok bytes => ((String.fromUTF8? bytes).map reach.next).getD []
        | .error _ => []
      gather reach ((path, found) :: seen) (more ++ rest)

/-- The variable that a command looks up, as the environment has it. -/
def environmentFor (command : Command) (fs : FileSystem) : IO Environment := do
  match command.setting? fs with
  | none => return fun _ => none
  | some name =>
    let value ← IO.getEnv name
    return fun other => if other = name then value else none

def execute (command : Command) : IO Output := do
  let start := command.reach (fileSystem []) fun _ => none
  let seen ← gather ⟨[], []⟩ [] start.files
  let env ← environmentFor command (fileSystem seen)
  let reach := command.reach (fileSystem seen) env
  let seen ← gather reach [] reach.files
  return command.run (fileSystem seen) env

end PolicyStore.Program

open PolicyStore in
def main (args : List String) : IO UInt32 := do
  let output ← match Command.parse? args with
    | some command => Program.execute command
    | none => pure { code := 2, err := usage }
  IO.print output.out
  IO.eprint output.err
  return UInt32.ofNat output.code
