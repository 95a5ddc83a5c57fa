import PolicyStore.Yaml.Scalar

set_option autoImplicit false

namespace PolicyStore.Yaml

/-!
# Tokens

The marks and words that a document is made of. Layout becomes tokens as well: a block collection
has a start and an end of its own, and a key is marked as such even where the text marks only its
value.
-/

inductive Token where
  /-- The version of the format that a document is written for. -/
  | version (major minor : Nat)
  /-- A handle, and the beginning of the tags that are written with it. -/
  | handle (name lead : String)
  | documentStart
  | documentEnd
  | blockSequence
  | blockMapping
  /-- The end of a block collection. -/
  | blockEnd
  | flowSequence
  | flowSequenceEnd
  | flowMapping
  | flowMappingEnd
  /-- The dash before an item of a block sequence. -/
  | item
  /-- The comma after a member of a flow collection. -/
  | comma
  | key
  | value
  | anchor (name : String)
  | alias (name : String)
  | tag (handle rest : String)
  | scalar (style : Style) (text : String)
  deriving DecidableEq, Repr

end PolicyStore.Yaml
