import PolicyStore.Yaml.Glyph
import PolicyStore.Yaml.Scalar

set_option autoImplicit false

namespace PolicyStore.Yaml

/-!
# Plain and quoted scalars

Both may go on over several lines, whose breaks are folded. Every reader answers the text and what
follows it; the run that a reader is given holds the gaps and breaks since the last word.
-/

/-! ## Quoted scalars -/

/-- The text up to the closing single quote; a quote in the text is written twice. -/
def singleQuoted? (run : List Char) : List Glyph → Option (List Char × List Glyph)
  | [] => none
  | g :: gs =>
    if g.isSpace then singleQuoted? (run ++ [g.char]) gs
    else if isDocumentMark (g :: gs) then none
    else if g.char ≠ '\'' then
      (singleQuoted? [] gs).map fun r => (foldRun run ++ g.char :: r.1, r.2)
    else
      match gs with
      | ⟨'\'', _, _⟩ :: rest =>
        (singleQuoted? [] rest).map fun r => (foldRun run ++ '\'' :: r.1, r.2)
      | _ => some (foldRun run, gs)

/-- The characters that are written as a backslash and one other character. -/
def escapes : List (Char × Char) :=
  [('0', '\x00'), ('a', '\x07'), ('b', '\x08'), ('t', '\t'), ('\t', '\t'), ('n', '\n'),
   ('v', '\x0b'), ('f', '\x0c'), ('r', '\r'), ('e', '\x1b'), (' ', ' '), ('"', '"'), ('/', '/'),
   ('\\', '\\'), ('N', '\u0085'), ('_', '\u00a0'), ('L', '\u2028'), ('P', '\u2029')]

/-- How many hexadecimal digits follow a letter that begins a numeric escape. -/
def hexWidth? (c : Char) : Option Nat := [('x', 2), ('u', 4), ('U', 8)].lookup c

/-- The character that an escape stands for, and the length of the escape after its backslash. -/
def escape? (gs : List Glyph) : Option (Char × Nat) := do
  let letter := (← gs.head?).char
  match hexWidth? letter with
  | none => (escapes.lookup letter).map (·, 1)
  | some width =>
    let digits := Glyph.text (gs.tail.take width)
    let n ← digitsValue? 16 digits
    if digits.length = width ∧ n.isValidChar then some (Char.ofNat n, width + 1) else none

/-- The text up to the closing double quote. A number of characters, which belong to an escape, are
passed over first; after an escaped break only further breaks count. -/
def doubleQuoted? (passed : Nat) (escapedBreak : Bool) (run : List Char) :
    List Glyph → Option (List Char × List Glyph)
  | [] => none
  | g :: gs =>
    match passed with
    | passed + 1 => doubleQuoted? passed escapedBreak run gs
    | 0 =>
      let before := if escapedBreak then run.filter isBreak else foldRun run
      if g.isSpace then doubleQuoted? 0 escapedBreak (run ++ [g.char]) gs
      else if isDocumentMark (g :: gs) then none
      else if g.char = '"' then some (before, gs)
      else if g.char ≠ '\\' then
        (doubleQuoted? 0 false [] gs).map fun r => (before ++ g.char :: r.1, r.2)
      else if gs.head?.any (·.isBreak) then
        (doubleQuoted? 1 true [] gs).map fun r => (before ++ r.1, r.2)
      else
        match escape? gs with
        | some (c, length) =>
          (doubleQuoted? length false [] gs).map fun r => (before ++ c :: r.1, r.2)
        | none => none

/-! ## Plain scalars -/

/-- The characters that are marks wherever they stand in a flow collection. -/
def isFlowMark (c : Char) : Bool := ",[]\x7b\x7d".toList.contains c

/-- The marks that begin something other than a plain scalar. -/
def isIndicator (c : Char) : Bool :=
  isFlowMark c || "#&*!|>'\"%@\x60".toList.contains c

/-- Whether a plain scalar begins here. A dash followed by the end of its line is not seen, since
it is the mark of an item. -/
def beginsPlain (flow : Bool) : List Glyph → Bool
  | [] => false
  | g :: gs =>
    if g.char = '-' then !gs.head?.any (·.isGap)
    else if g.char = '?' ∨ g.char = ':' then !flow && !endsWord gs
    else !g.isSpace && !isIndicator g.char

/-- A plain scalar, whether a line break follows it, and what comes after. -/
structure PlainText where
  text : List Char
  broken : Bool
  rest : List Glyph
  deriving DecidableEq, Repr

/-- Reads a plain scalar, whose further lines have at least the given indent unless it stands in a
flow collection. A tab may not be part of an indent, and in a flow collection a colon may not be
followed by a mark. -/
def plain? (flow : Bool) (indent : Nat) (run : List Char) : List Glyph → Option PlainText
  | [] => some ⟨[], run.any isBreak, []⟩
  | g :: gs =>
    let broken := run.any isBreak
    if g.isSpace then
      if g.char = '\t' ∧ broken ∧ g.column < indent then none
      else plain? flow indent (run ++ [g.char]) gs
    else if isDocumentMark (g :: gs) ∨ (broken ∧ !flow ∧ g.column < indent) ∨
        (g.char = '#' ∧ run ≠ []) ∨ (g.char = ':' ∧ endsWord gs) ∨ (flow ∧ isFlowMark g.char) then
      some ⟨[], broken, g :: gs⟩
    else if flow ∧ g.char = ':' ∧ gs.head?.any fun h => isFlowMark h.char || h.char = '?' then none
    else (plain? flow indent [] gs).map fun r => { r with text := foldRun run ++ g.char :: r.text }

end PolicyStore.Yaml
