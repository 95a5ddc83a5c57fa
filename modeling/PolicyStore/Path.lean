import PolicyStore.Text.Basic

set_option autoImplicit false

namespace PolicyStore.Path

/-!
# Path texts

A path is kept as it was written. Two paths are the same when their components are: doubled
slashes, inner dots and a trailing slash do not count, a leading dot and double dots do.
-/

inductive Component where
  | root
  | here
  | named (segment : List Char)
  deriving DecidableEq, Repr

def isTrivial (segment : List Char) : Bool := segment = [] ∨ segment = ['.']

def isAbsolute (path : String) : Bool :=
  match path.toList with
  | '/' :: _ => true
  | _ => false

/-- The leading slash or dot of a path, and the text that follows it. -/
def anchor : List Char → List Char × List Char
  | '/' :: cs => (['/'], cs)
  | ['.'] => (['.'], [])
  | '.' :: '/' :: cs => (['.'], '/' :: cs)
  | cs => ([], cs)

def components (path : String) : List Component :=
  let (lead, body) := anchor path.toList
  let first := match lead with
    | ['/'] => [Component.root]
    | ['.'] => [Component.here]
    | _ => []
  first ++ ((Text.splitOn '/' body).filter (!isTrivial ·)).map .named

def same (p q : String) : Bool := components p = components q

/-- An absolute right side replaces the left one; otherwise one slash stands between the two,
unless the left side is empty or ends with one. -/
def join (base path : String) : String :=
  if isAbsolute path || base = "" then path
  else if base.toList.getLast? = some '/' then base ++ path
  else base ++ "/" ++ path

def dropTrailingTrivial (segments : List (List Char)) : List (List Char) :=
  (segments.reverse.dropWhile isTrivial).reverse

/-- The path without its last component; an empty path and a bare root have none. -/
def parent? (path : String) : Option String :=
  let (lead, body) := anchor path.toList
  match (dropTrailingTrivial (Text.splitOn '/' body)).reverse with
  | [] => if lead = ['.'] then some "" else none
  | _ :: rest =>
    let kept := dropTrailingTrivial rest.reverse
    some (String.ofList (lead ++ ['/'].intercalate kept))

/-- The directory that a file's references start from. -/
def directory (path : String) : String := (parent? path).getD ""

end PolicyStore.Path
