import PolicyStore.Paf.Parser

set_option autoImplicit false

namespace PolicyStore

/-!
# Recognising formats

The leading line of a text tells its format, either by naming it in a header or by its looks. A text
without a leading line is of the native format.
-/

inductive Format where
  | paf
  deriving DecidableEq, Repr

namespace Format

def name : Format → String
  | paf => "PAF"

/-- Takes a fixed text off the start of another. -/
def strip? (lead : List Char) (cs : List Char) : Option (List Char) :=
  if lead.isPrefixOf cs then some (cs.drop lead.length) else none

/-- What follows the opening of a header: a comment sign, then a question mark and the word cfg in
an angle bracket, and a blank. -/
def headerBody? (line : List Char) : Option (List Char) := do
  let cs ← strip? ['#'] (Text.trimStart line)
  let cs ← strip? "<?cfg".toList (Text.trimStart cs)
  if cs.head?.any Text.isBlank then some (Text.trimStart cs) else none

/-- The first word of a header, which names a format. A header holds words only and is closed by a
question mark and an angle bracket; anything may follow it. -/
def headerFormat? (line : List Char) : Option String := do
  let body ← headerBody? line
  let word := body.takeWhile Text.isWordChar
  let _ ← strip? "?>".toList (body.dropWhile fun c => Text.isWordChar c || Text.isBlank c)
  if word = [] then none else some (String.ofList word)

/-- A parameter line begins with a word that may have dots in it, and a colon. -/
def looksNative (line : List Char) : Bool :=
  let cs := Text.trimStart line
  cs.head?.any Text.isWordChar &&
    (Text.trimStart (cs.dropWhile fun c => Text.isWordChar c || c = '.')).head? = some ':'

def recognizes (f : Format) (line : String) : Bool :=
  match headerFormat? line.toList with
  | some named => Text.equalIgnoringAsciiCase named f.name
  | none => looksNative line.toList

end Format

/-- A line without its terminator; a return before the line feed is part of the terminator. -/
def withoutTerminator (line : List Char) : List Char :=
  match line.reverse with
  | '\n' :: '\r' :: rest => rest.reverse
  | '\n' :: rest => rest.reverse
  | _ => line

/-- Whether a line is a header, or else neither blank nor a comment. -/
def isLeading (line : List Char) : Bool :=
  match Text.trim line with
  | [] => false
  | c :: _ => c != '#' || (Format.headerFormat? line).isSome

/-- The line by which the format of a text is told. -/
def leadingLine? (text : String) : Option String :=
  (((Text.splitAfter (· = '\n') text.toList).map withoutTerminator).find? isLeading).map
    String.ofList

structure Registry where
  formats : List Format
  deriving DecidableEq, Repr

namespace Registry

def standard : Registry := ⟨[.paf]⟩

def empty : Registry := ⟨[]⟩

def named? (r : Registry) (name : String) : Option Format :=
  r.formats.find? fun f => Text.equalIgnoringAsciiCase f.name name

def recognize (r : Registry) : Option String → Option Format
  | none => some .paf
  | some line =>
    match Format.headerFormat? line.toList with
    | some named => r.named? named
    | none => r.formats.find? (·.recognizes line)

def format (r : Registry) (name : String) : Except PolicyError Format :=
  match r.named? name with
  | some f => .ok f
  | none => .error (.parse ⟨.formatSyntax, "unsupported policy format: " ++ name, none, none⟩)

end Registry

def formatOf (text : String) : Except PolicyError Format :=
  match Registry.standard.recognize (leadingLine? text) with
  | some f => .ok f
  | none =>
    .error (.parse ⟨.formatSyntax,
      "unrecognized policy format: " ++ Text.trimString ((leadingLine? text).getD ""), none, none⟩)

def Format.parse (strict : Bool) (target : Policy) (text : String) : Format → StoreM Nat
  | .paf => Paf.parseFresh strict target (Paf.linesOfText text)

end PolicyStore
