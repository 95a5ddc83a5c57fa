import PolicyStore.Yaml.Glyph
import PolicyStore.Yaml.Token

set_option autoImplicit false

namespace PolicyStore.Yaml

/-!
# Anchors, tags and directives

What may stand before a node besides layout: names for it, a tag, and the lines before a document
that tell how tags are written. Every reader answers what it read and what follows.
-/

/-- A name of word characters, which may be empty. -/
def word (gs : List Glyph) : List Char × List Glyph :=
  (Glyph.text (gs.takeWhile (isWordChar ·.char)), gs.dropWhile (isWordChar ·.char))

/-- The name of an anchor, after the mark that begins it. -/
def anchorName? (gs : List Glyph) : Option (String × List Glyph) :=
  let (name, rest) := word gs
  let ends := endsWord rest || rest.head?.any fun g => "?:,]\x7d%@\x60".toList.contains g.char
  if !name.isEmpty && ends then some (String.ofList name, rest) else none

/-! ## Tags -/

/-- The characters that tags are written with; some marks are among them only in the long form. -/
def isTagChar (long : Bool) (c : Char) : Bool :=
  isWordChar c || ";/?:@&=+$.%!~*'()".toList.contains c || (long && ",[]".toList.contains c)

/-- An octet, written as a percent sign and two hexadecimal digits. -/
def octet? : List Glyph → Option Nat
  | p :: a :: b :: _ => if p.char = '%' then digitsValue? 16 [a.char, b.char] else none
  | _ => none

/-- How many octets belong to a character that begins with the given one, and what the first one
adds to its code point. -/
def leadOctet? (n : Nat) : Option (Nat × Nat) :=
  if n < 0x80 then some (1, n)
  else if n < 0xC0 then none
  else if n < 0xE0 then some (2, n - 0xC0)
  else if n < 0xF0 then some (3, n - 0xE0)
  else if n < 0xF8 then some (4, n - 0xF0)
  else none

/-- The code point that a number of further octets complete. -/
def octets? : Nat → Nat → List Glyph → Option Nat
  | 0, n, _ => some n
  | count + 1, n, gs => do
    let octet ← octet? gs
    if 0x80 ≤ octet ∧ octet < 0xC0 then octets? count (64 * n + (octet - 0x80)) (gs.drop 3)
    else none

/-- A character of a tag that is written in octets, and the length of what is written. A sequence
that is no character, or that has a shorter form, counts as the replacement character. -/
def escapedChar? (gs : List Glyph) : Option (Char × Nat) := do
  let (count, lead) ← leadOctet? (← octet? gs)
  let n ← octets? (count - 1) lead (gs.drop 3)
  let sound := n.isValidChar ∧ (count = 1 ∨ 0x80 ≤ n)
  return (if sound then Char.ofNat n else '\ufffd', 3 * count)

/-- The longest row of characters of a tag; as many characters as given belong to an escape. -/
def tagText? (long : Bool) (passed : Nat) : List Glyph → Option (List Char × List Glyph)
  | [] => some ([], [])
  | g :: gs =>
    match passed with
    | passed + 1 => tagText? long passed gs
    | 0 =>
      if !isTagChar long g.char then some ([], g :: gs)
      else if g.char = '%' then
        match escapedChar? (g :: gs) with
        | some (c, length) => (tagText? long (length - 1) gs).map fun r => (c :: r.1, r.2)
        | none => none
      else (tagText? long 0 gs).map fun r => (g.char :: r.1, r.2)

/-- A row of one or more characters of a tag; a NUL ends what they say. -/
def tagPart? (long : Bool) (gs : List Glyph) : Option (String × List Glyph) := do
  let (text, rest) ← tagText? long 0 gs
  if text.isEmpty then none else some (String.ofList (text.takeWhile (· ≠ '\x00')), rest)

/-- A handle is one exclamation mark, or a name, which may be empty, between two of them. The name
is answered together with whether the second mark is there. -/
def tagHandle? : List Glyph → Option ((List Char × Bool) × List Glyph)
  | [] => none
  | g :: gs =>
    if g.char ≠ '!' then none
    else
      let (name, rest) := word gs
      match rest with
      | h :: more => if h.char = '!' then some ((name, true), more) else some ((name, false), rest)
      | [] => some ((name, false), [])

def handleText (name : List Char) : String := String.ofList ('!' :: name ++ ['!'])

/-- The handle and the rest of a tag after its exclamation mark, which is the first character. A tag
in the long form has no handle, and neither has the mark on its own. -/
def bareTag? (gs : List Glyph) : Option ((String × String) × List Glyph) := do
  if gs.tail.head?.any (·.char = '<') then
    let (text, rest) ← tagPart? true (gs.drop 2)
    if rest.head?.any (·.char = '>') then some (("", text), rest.tail) else none
  else
    let ((name, closed), rest) ← tagHandle? gs
    if closed then
      let (text, rest) ← tagPart? false rest
      some ((handleText name, text), rest)
    else
      let (more, rest) ← tagText? false 0 rest
      let text := String.ofList ((name ++ more).takeWhile (· ≠ '\x00'))
      some (if text = "" then ("", "!") else ("!", text), rest)

/-- A tag, which a gap, a line break or, in a flow collection, a comma has to follow. -/
def tag? (flow : Bool) (gs : List Glyph) : Option (Token × List Glyph) := do
  let ((handle, text), rest) ← bareTag? gs
  if endsWord rest ∨ (flow ∧ rest.head?.any (·.char = ',')) then some (.tag handle text, rest)
  else none

/-! ## Directives -/

def skipGaps (gs : List Glyph) : List Glyph := gs.dropWhile (·.isGap)

/-- A number of at most nine digits. -/
def versionNumber? (gs : List Glyph) : Option (Nat × List Glyph) := do
  let digits := Glyph.text (gs.takeWhile (·.char.isDigit))
  let n ← digitsValue? 10 digits
  if digits.length ≤ 9 then some (n, gs.drop digits.length) else none

def version? (gs : List Glyph) : Option (Token × List Glyph) := do
  let (major, rest) ← versionNumber? gs
  if rest.head?.any (·.char = '.') then
    let (minor, rest) ← versionNumber? rest.tail
    some (.version major minor, rest)
  else none

def handleDirective? (gs : List Glyph) : Option (Token × List Glyph) := do
  let ((name, closed), rest) ← tagHandle? gs
  let handle := if closed then handleText name else "!"
  if (closed ∨ name = []) ∧ rest.head?.any (·.isGap) then
    let (lead, rest) ← tagPart? true (skipGaps rest)
    if endsWord rest then some (.handle handle lead, rest) else none
  else none

/-- A directive after its percent sign, up to the end of its line. -/
def directive? (gs : List Glyph) : Option (Token × List Glyph) := do
  let (name, rest) := word gs
  if !endsWord rest then none
  else
    let (token, rest) ← match String.ofList name with
      | "YAML" => version? (skipGaps rest)
      | "TAG" => handleDirective? (skipGaps rest)
      | _ => none
    some (token, ← endLine? false rest)

end PolicyStore.Yaml
