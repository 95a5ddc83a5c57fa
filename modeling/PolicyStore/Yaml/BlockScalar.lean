import PolicyStore.Yaml.Glyph

set_option autoImplicit false

namespace PolicyStore.Yaml

/-!
# Block scalars

A block scalar is a header and the indented lines below it. In a literal one every line break
stands for itself, in a folded one a break between two lines of text is a space.
-/

/-- What becomes of the line breaks after the last line of text. -/
inductive Chomping where
  | strip
  | clip
  | keep
  deriving DecidableEq, Repr

def Chomping.apply (chomping : Chomping) (cs : List Char) : List Char :=
  let breaks := (cs.reverse.takeWhile isBreak).reverse
  let body := cs.take (cs.length - breaks.length)
  match chomping with
  | strip => body
  | clip => if body.isEmpty then [] else body ++ breaks.take 1
  | keep => cs

structure BlockHeader where
  chomping : Chomping := .clip
  /-- How much deeper than the collection around it the text is indented, if the header tells. -/
  indent : Option Nat := none
  deriving DecidableEq, Repr

namespace BlockHeader

def readChomping (h : BlockHeader) : List Glyph → BlockHeader × List Glyph
  | [] => (h, [])
  | g :: gs =>
    if g.char = '-' then ({ h with chomping := .strip }, gs)
    else if g.char = '+' then ({ h with chomping := .keep }, gs)
    else (h, g :: gs)

/-- The indent in a header, which is a single digit other than zero. -/
def readIndent? (h : BlockHeader) : List Glyph → Option (BlockHeader × List Glyph)
  | [] => some (h, [])
  | g :: gs =>
    if g.char = '0' then none
    else if g.char.isDigit then some ({ h with indent := some (g.char.toNat - 0x30) }, gs)
    else some (h, g :: gs)

/-- A header up to the end of its line. Chomping and indent come in any order. -/
def read? (gs : List Glyph) : Option (BlockHeader × List Glyph) := do
  let (h, rest) := readChomping {} gs
  let (h, rest) ← h.readIndent? rest
  let (h, rest) := if h.chomping = .clip ∧ h.indent.isSome then h.readChomping rest else (h, rest)
  return (h, ← endLine? false rest)

end BlockHeader

/-- The indent of the first line of text, or that of a deeper blank line above it. -/
def ownIndent? (deepest : Nat) : List Glyph → Option Nat
  | [] => some deepest
  | g :: gs =>
    if g.char = '\t' then none
    else if g.char = ' ' then ownIndent? (max deepest (g.column + 1)) gs
    else if g.isBreak then ownIndent? deepest gs
    else some deepest

/-- A line without its margin, in which no tab may stand. -/
def dropMargin? (indent : Nat) : List Glyph → Option (List Glyph)
  | [] => some []
  | g :: gs =>
    if indent ≤ g.column then some (g :: gs)
    else if g.char = ' ' then dropMargin? indent gs
    else if g.char = '\t' then none
    else some (g :: gs)

/-- The lines of a block scalar without their margins, and the lines that follow it, the first of
which is a line of text with a smaller indent. -/
def blockLines? (indent : Nat) : List (List Glyph) → Option (List (List Glyph) × List (List Glyph))
  | [] => some ([], [])
  | line :: lines => do
    match ← dropMargin? indent line with
    | [] => some ([], lines)
    | g :: gs =>
      if g.isBreak ∨ g.column = indent then
        let (own, rest) ← blockLines? indent lines
        some ((g :: gs) :: own, rest)
      else some ([], (g :: gs) :: lines)

/-- The text of folded lines. It is given the breaks since the last line of text, and whether they
fold; a line that begins with a gap keeps the breaks around it. -/
def foldLines (breaks : List Char) (folds : Bool) : List (List Char) → List Char
  | [] => breaks
  | line :: lines =>
    let (text, ending) := (line.takeWhile (!isBreak ·), line.dropWhile (!isBreak ·))
    if text.isEmpty then foldLines (breaks ++ ending) folds lines
    else
      let tight := !text.head?.any isGap
      (if folds && tight then foldBreaks breaks else breaks) ++ text ++ foldLines ending tight lines

/-- A block scalar after the mark that begins it, in a collection of the given indent if any, and
what follows it. -/
def blockScalar? (literal : Bool) (outer : Option Nat) (gs : List Glyph) :
    Option (List Char × List Glyph) := do
  let (header, body) ← BlockHeader.read? gs
  let indent ← match header.indent with
    | some deeper => some (outer.getD 0 + deeper)
    | none => (ownIndent? 0 body).map (max · (outer.elim 1 (· + 1)))
  let (lines, rest) ← blockLines? indent (Text.splitAfter (·.isBreak) body)
  let texts := lines.map Glyph.text
  let text := if literal then texts.flatten else foldLines [] false texts
  return (header.chomping.apply text, rest.flatten)

end PolicyStore.Yaml
