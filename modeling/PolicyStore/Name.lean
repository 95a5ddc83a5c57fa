import PolicyStore.Error

set_option autoImplicit false

namespace PolicyStore.Name

/-!
# Dotted names

A name is one or more segments with dots between them; a segment is a non-empty row of name
characters, so that no segment holds a dot.
-/

def isSegment (cs : List Char) : Bool := !cs.isEmpty && cs.all Text.isNameChar

def segments? (name : String) : Option (List String) :=
  let pieces := Text.splitOn '.' name.toList
  if pieces.all isSegment then some (pieces.map String.ofList) else none

def segments (name : String) : Except PolicyError (List String) :=
  match segments? name with
  | some parts => .ok parts
  | none => .error (.badName name)

def join (parts : List String) : String := ".".intercalate parts

end PolicyStore.Name
