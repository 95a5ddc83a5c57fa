import PolicyStore.Tree

set_option autoImplicit false

namespace PolicyStore

/-!
# Definitions

A dictionary is read as a schema, whose blocks are the definitions of names. A definition block
gives the kind of the values, bounds on their number, a default, the values allowed, and the
dictionary of the policies held.
-/

/-- A dictionary as a tree, with the rows `definitions`, `childDefinition` and `target`. -/
structure Schema where
  entries : List (String × Values Tree)

/-- Where a definition has the schema of the policies that its name holds. -/
inductive SubDictionary where
  | none
  | inline (schema : Schema)
  /-- A dictionary file that has not been loaded. -/
  | unloaded (path : String)

/-- The constraints on single values; without any listed value each value is permitted. -/
structure Allowed where
  values : List (Value Tree) := []
  min : Option (Value Tree) := none
  max : Option (Value Tree) := none

structure Definition where
  name : String
  /-- The kind that values have to be of; without one any kind will do. -/
  kind : Option Kind := none
  description : Option String := none
  minOccurs : Nat := 0
  maxOccurs : Option Nat := none
  default : Option (Values Tree) := none
  allowed : Allowed := {}
  sub : SubDictionary := .none

namespace Schema

def definitionsKey : String := "definitions"
def childKey : String := "childDefinition"
def targetKey : String := "target"

/-- Refuses a top-level key of a dictionary that holds anything but policies. -/
def requireBlock {π : Type} (rows : Entries π) (key : String) : Except DictionaryFault Unit :=
  match Table.get? key rows with
  | none => .ok ()
  | some values => if values.kind = .policy then .ok () else .error (.keyNotABlock key)

/-- The rows of a dictionary have a block of definitions, a child definition, or both. -/
def requireLayout {π : Type} (rows : Entries π) : Except DictionaryFault Unit := do
  requireBlock rows definitionsKey
  requireBlock rows childKey
  if (Table.get? definitionsKey rows).isNone ∧ (Table.get? childKey rows).isNone then
    .error .noDefinitions

def ofEntries? (rows : Entries Tree) : Except DictionaryFault Schema := do
  requireLayout rows
  return ⟨rows⟩

end Schema

/-- The last of the policies under a key, if the key holds policies. -/
def Entries.child? {π : Type} (key : String) (rows : Entries π) : Option π :=
  match Table.get? key rows with
  | some (.policies children) => children.getLast?
  | _ => none

namespace Allowed

def isUnconstrained (a : Allowed) : Bool := a.values.isEmpty && a.min.isNone && a.max.isNone

end Allowed

namespace Value

/-- The number that an integer or a double denotes. -/
def number? {π : Type} : Value π → Option Float
  | int i => some (Float.ofInt i.toInt)
  | double d => some d
  | _ => none

/-- Strict order of two strings or two numbers; all other values are not ordered. -/
def less {π : Type} : Value π → Value π → Bool
  | string a, string b => a < b
  | int a, int b => a < b
  | a, b =>
    match a.number?, b.number? with
    | some x, some y => x < y
    | _, _ => false

/-- Equality of two values, where an integer equals the double of the same number. -/
def sameNumber (a b : Value Tree) : Bool :=
  match a, b with
  | int x, int y => x == y
  | _, _ =>
    match a.number?, b.number? with
    | some x, some y => x == y
    | _, _ => a.same (fun s t => s.handle == t.handle) b

/-- Reads an integer as a double where doubles are declared. -/
def promote {π : Type} (declared : Option Kind) : Value π → Value π
  | int i => if declared = some .double then double (Float.ofInt i.toInt) else int i
  | v => v

end Value

namespace Values

/-- Reads integers as doubles where doubles are declared. -/
def promote {π : Type} (declared : Option Kind) : Values π → Values π
  | ints is =>
    if declared = some .double then doubles (is.map fun i => Float.ofInt i.toInt) else ints is
  | vs => vs

end Values

namespace Definition

def typeKey : String := "type"
def descriptionKey : String := "description"
def minOccursKey : String := "minOccurs"
def maxOccursKey : String := "maxOccurs"
def defaultKey : String := "default"
def allowedKey : String := "allowed"
def dictionaryKey : String := "dictionary"
def dictionaryFileKey : String := "dictionaryFile"
def valueKey : String := "value"
def minKey : String := "min"
def maxKey : String := "max"

def text? (rows : Entries Tree) (key : String) : Except DefinitionFault (Option String) :=
  match Table.get? key rows with
  | none => .ok none
  | some (.strings texts) =>
    match texts.getLast? with
    | some text => .ok (some text)
    | none => .error (.wrongKeyword key .string)
  | some _ => .error (.wrongKeyword key .string)

def int? (rows : Entries Tree) (key : String) : Except DefinitionFault (Option Int32) :=
  match Table.get? key rows with
  | none => .ok none
  | some (.ints numbers) =>
    match numbers.getLast? with
    | some number => .ok (some number)
    | none => .error (.wrongKeyword key .int)
  | some _ => .error (.wrongKeyword key .int)

def kind? (rows : Entries Tree) : Except DefinitionFault (Option Kind) := do
  match ← text? rows typeKey with
  | none => return none
  | some text =>
    match Kind.ofName? text with
    | some kind => return some kind
    | none => .error (.unknownType text)

def minimum? (rows : Entries Tree) : Except DefinitionFault Nat := do
  match ← int? rows minOccursKey with
  | none => return 0
  | some n => if n < 0 then .error .negativeMinimum else return n.toInt.toNat

/-- The upper bound; a negative number leaves the number of values unbounded. -/
def maximum? (rows : Entries Tree) : Except DefinitionFault (Option Nat) := do
  match ← int? rows maxOccursKey with
  | none => return none
  | some n => return if n < 0 then none else some n.toInt.toNat

/-- The last value under a key as a bound, which replaces an earlier one. -/
def bound (declared : Option Kind) (rows : Entries Tree) (key : String)
    (earlier : Option (Value Tree)) : Option (Value Tree) :=
  match (Table.get? key rows).bind Values.last? with
  | some v => some (v.promote declared)
  | none => earlier

/-- Adds the constraints of one block: its values to those before, its bounds in their place. -/
def readAllowed (declared : Option Kind) (a : Allowed) (block : Tree) : Allowed where
  values := a.values ++
    (((Table.get? valueKey block.entries).map Values.toList).getD []).map (·.promote declared)
  min := bound declared block.entries minKey a.min
  max := bound declared block.entries maxKey a.max

def allowed? (declared : Option Kind) (rows : Entries Tree) : Except DefinitionFault Allowed :=
  match Table.get? allowedKey rows with
  | none => .ok {}
  | some (.policies blocks) => .ok (blocks.foldl (readAllowed declared) {})
  | some _ => .error .allowedNotBlocks

/-- The dictionary of a definition block: a block, or else the name of a file yet to be loaded. -/
def sub? (name : String) (rows : Entries Tree) : Except DictionaryFault SubDictionary :=
  match (Table.get? dictionaryKey rows).bind Values.last? with
  | some (.policy block) =>
    match Schema.ofEntries? block.entries with
    | .ok schema => .ok (.inline schema)
    | .error fault => .error (.inside name fault)
  | some (.file f) => .ok (.unloaded f.path)
  | some v => .error (.definition name (.dictionaryNotABlock v.kind))
  | none =>
    match (Table.get? dictionaryFileKey rows).bind Values.last? with
    | some (.string path) => .ok (.unloaded path)
    | some (.file f) => .ok (.unloaded f.path)
    | some v => .error (.definition name (.dictionaryFileNotAPath v.kind))
    | none => .ok .none

/-- Reads a definition block. The keywords are read in turn and the first fault is the answer. -/
def ofBlock? (name : String) (rows : Entries Tree) : Except DictionaryFault Definition := do
  let here {α : Type} (found : Except DefinitionFault α) : Except DictionaryFault α :=
    found.mapError (.definition name)
  let kind ← here (kind? rows)
  let description ← here (text? rows descriptionKey)
  let minOccurs ← here (minimum? rows)
  let maxOccurs ← here (maximum? rows)
  let default := (Table.get? defaultKey rows).map (Values.promote kind)
  let allowed ← here (allowed? kind rows)
  let sub ← sub? name rows
  return { name, kind, description, minOccurs, maxOccurs, default, allowed, sub }

end Definition

end PolicyStore
