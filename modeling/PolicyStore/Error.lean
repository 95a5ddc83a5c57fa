import PolicyStore.Value
import PolicyStore.Report

set_option autoImplicit false

namespace PolicyStore

/-!
# What can go wrong

Causes of failure and the wording of each.
-/

inductive FileFault where
  | notFound
  | notADirectory
  | isADirectory
  | notText
  /-- Any other failure, in the words of the operating system. -/
  | other (text : String)
  deriving DecidableEq, Repr

def FileFault.message : FileFault → String
  | notFound => "No such file or directory (os error 2)"
  | notADirectory => "Not a directory (os error 20)"
  | isADirectory => "Is a directory (os error 21)"
  | notText => "stream did not contain valid UTF-8"
  | other text => text

inductive ParseErrorKind where
  /-- The input ended inside a block or a quoted string. -/
  | eof
  /-- A line is not of the form of a parameter. -/
  | syntaxError
  /-- A value is malformed or does not go with those before it. -/
  | formatSyntax
  /-- The construct is understood but not supported. -/
  | unsupported
  deriving DecidableEq, Repr

def ParseErrorKind.label : ParseErrorKind → String
  | eof => "unexpected end of input"
  | syntaxError => "syntax error"
  | formatSyntax => "format syntax error"
  | unsupported => "unsupported syntax"

structure ParseError where
  kind : ParseErrorKind
  text : String
  /-- Number of the line, counted from one. -/
  line : Option Nat := none
  /-- The file that was being read. -/
  origin : Option String := none
  deriving DecidableEq, Repr

namespace ParseError

/-- Names the file unless one is named already. -/
def withOrigin (e : ParseError) (origin : String) : ParseError :=
  match e.origin with
  | some _ => e
  | none => { e with origin := some origin }

def place (e : ParseError) : String :=
  match e.origin, e.line with
  | some file, some n => " in " ++ file ++ " at line " ++ toString n
  | some file, none => " in " ++ file
  | none, some n => " at line " ++ toString n
  | none, none => ""

def message (e : ParseError) : String := e.kind.label ++ e.place ++ ": " ++ e.text

end ParseError

/-- What is wrong with a definition block, whatever the name that it defines. -/
inductive DefinitionFault where
  | notABlock
  | wrongKeyword (key : String) (expected : Kind)
  | unknownType (text : String)
  | negativeMinimum
  | allowedNotBlocks
  | dictionaryNotABlock (actual : Kind)
  | dictionaryFileNotAPath (actual : Kind)
  deriving DecidableEq, Repr

inductive DictionaryFault where
  /-- No dictionary is attached to the policy. -/
  | absent
  | keyNotABlock (key : String)
  | noDefinitions
  | definition (name : String) (fault : DefinitionFault)
  /-- A fault of the dictionary inside the definition of a name. -/
  | inside (name : String) (fault : DictionaryFault)
  | fileNotAPath (actual : Kind)
  | tooDeep (repository : String) (limit : Nat)
  deriving DecidableEq, Repr

def DefinitionFault.message (name : String) : DefinitionFault → String
  | notABlock => "definition of '" ++ name ++ "' is not a block"
  | wrongKeyword key expected => name ++ ": '" ++ key ++ "' must hold a " ++ expected.name ++ " value"
  | unknownType text => name ++ ": unknown type '" ++ text ++ "'"
  | negativeMinimum => name ++ ": minOccurs must not be negative"
  | allowedNotBlocks => name ++ ": 'allowed' must hold blocks"
  | dictionaryNotABlock actual =>
    name ++ ": 'dictionary' must hold a block, not a " ++ actual.name ++ " value"
  | dictionaryFileNotAPath actual =>
    name ++ ": 'dictionaryFile' must hold a path, not a " ++ actual.name ++ " value"

def DictionaryFault.message : DictionaryFault → String
  | absent => "no dictionary attached to policy"
  | keyNotABlock key => "'" ++ key ++ "' must hold a block"
  | noDefinitions => "no 'definitions' or 'childDefinition' block"
  | definition name fault => fault.message name
  | inside name fault => name ++ ": dictionary error: " ++ fault.message
  | fileNotAPath actual =>
    "'dictionaryFile' must hold a path, not a " ++ actual.name ++ " value"
  | tooDeep repository limit =>
    "dictionary files under " ++ repository ++ " nest more than " ++ toString limit ++
      " levels; check for a circular 'dictionaryFile' reference"

inductive PolicyError where
  | nameNotFound (name : String)
  | wrongType (name : String) (expected actual : Kind)
  /-- A segment before the last holds something other than policies. -/
  | notAPolicy (name partialName : String) (actual : Kind)
  | badName (name : String)
  | dictionary (fault : DictionaryFault)
  | dictionaryNotLoaded (name path : String)
  /-- A file leads back to itself or references nest too deeply. -/
  | circularInclude (path : String)
  | validation (report : Report)
  | parse (error : ParseError)
  | unreadable (path : Option String) (fault : FileFault)
  deriving DecidableEq

namespace PolicyError

def message : PolicyError → String
  | nameNotFound name => name ++ ": name not found"
  | wrongType name expected actual =>
    name ++ ": value has type " ++ actual.name ++ ", not " ++ expected.name
  | notAPolicy name partialName actual =>
    name ++ ": '" ++ partialName ++ "' holds a " ++ actual.name ++ " value, not a Policy"
  | badName name => "illegal parameter name: '" ++ name ++ "'"
  | dictionary fault => "dictionary error: " ++ fault.message
  | dictionaryNotLoaded name path => name ++ ": dictionary file " ++ path ++ " is not loaded"
  | circularInclude path => "circular or too deeply nested include of " ++ path
  | validation report => report.describe ""
  | parse error => error.message
  | unreadable (some path) fault => "I/O error reading " ++ path ++ ": " ++ fault.message
  | unreadable none fault => "I/O error: " ++ fault.message

/-- The failures of writing to a name whose place holds values of another kind. -/
def isTypeError : PolicyError → Bool
  | wrongType .. => true
  | notAPolicy .. => true
  | _ => false

/-- Names the file in a parse error and leaves any other error as it is. -/
def withOrigin (origin : String) : PolicyError → PolicyError
  | parse error => parse (error.withOrigin origin)
  | error => error

end PolicyError

end PolicyStore
