import PolicyStore.Source

set_option autoImplicit false

namespace PolicyStore

/-!
# Directory trees in memory

Files and directories below a working directory, as a file system. A path is followed one name at a
time: every name but the last has to be that of a directory, and what lies outside the working
directory is taken to be empty.
-/

structure FileTree where
  /-- The names on the way to each file, and its bytes. -/
  files : List (List String × ByteArray) := []
  directories : List (List String) := []

namespace FileTree

inductive Spot where
  | inside (names : List String)
  | outside
  deriving DecidableEq, Repr

def content? (t : FileTree) (names : List String) : Option ByteArray :=
  (t.files.find? (·.1 = names)).map Prod.snd

/-- Whether there is a directory; the directories on the way to a file need no mention. -/
def isDirectory (t : FileTree) (names : List String) : Bool :=
  names = [] || (t.directories ++ t.files.map fun f => f.1.dropLast).any names.isPrefixOf

def enter (t : FileTree) (here : Spot) (name : String) : Except FileFault Spot :=
  match here with
  | .outside => if name = "" ∨ name = "." ∨ name = ".." then .ok .outside else .error .notFound
  | .inside names =>
    if (t.content? names).isSome then .error .notADirectory
    else if name = "" ∨ name = "." then .ok here
    else if name = ".." then .ok (if names = [] then .outside else .inside names.dropLast)
    else if 255 < name.utf8ByteSize then .error (.other "File name too long (os error 36)")
    else
      let next := names ++ [name]
      if (t.content? next).isSome || t.isDirectory next then .ok (.inside next)
      else .error .notFound

/-- Follows a path. The empty path leads nowhere, and no path holds a NUL. -/
def locate (t : FileTree) (path : String) : Except FileFault Spot :=
  if path = "" then .error .notFound
  else if path.toList.contains '\x00' then
    .error (.other "file name contained an unexpected NUL byte")
  else
    ((Text.splitOn '/' path.toList).map String.ofList).foldlM t.enter
      (if Path.isAbsolute path then .outside else .inside [])

def read (t : FileTree) (path : String) : Except FileFault ByteArray := do
  match ← t.locate path with
  | .outside => .error .isADirectory
  | .inside names =>
    match t.content? names with
    | some bytes => .ok bytes
    | none => .error .isADirectory

/-- The way to a place without detours, and a path that leads nowhere as it is written. -/
def canonical (t : FileTree) (path : String) : String :=
  match t.locate path with
  | .ok (.inside names) => "/" ++ "/".intercalate names
  | _ => path

def fileSystem (t : FileTree) : FileSystem := ⟨t.read, t.canonical⟩

/-- Adds a file in the place of one with the same names. -/
def insert (t : FileTree) (names : List String) (bytes : ByteArray) : FileTree :=
  { t with files := (names, bytes) :: t.files.filter (·.1 ≠ names) }

def addDirectory (t : FileTree) (names : List String) : FileTree :=
  { t with directories := names :: t.directories }

end FileTree

end PolicyStore
