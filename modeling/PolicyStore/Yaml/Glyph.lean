import PolicyStore.Text.Basic

set_option autoImplicit false

namespace PolicyStore.Yaml

/-!
# Characters in their places

The layout of a document carries meaning, so its characters are read together with the line and the
column they stand in. Line breaks are unified beforehand.
-/

/-- The characters that end a line. -/
def isBreak (c : Char) : Bool :=
  c = '\n' || c = '\r' || c = '\u0085' || c = '\u2028' || c = '\u2029'

/-- The characters that may stand between two words on a line. -/
def isGap (c : Char) : Bool := c = ' ' || c = '\t'

/-- The characters of the names of anchors and of tag handles. -/
def isWordChar (c : Char) : Bool := c.isAlphanum || c = '-' || c = '_'

/-- The characters from no-break space on but for the two at the end of the first plane. -/
def isBeyondControls (c : Char) : Bool :=
  0xA0 ≤ c.toNat && c.toNat ≠ 0xFFFE && c.toNat ≠ 0xFFFF

/-- The characters that may stand in a document: no controls but tabs and line breaks. -/
def isReadable (c : Char) : Bool :=
  c = '\t' || c = '\n' || c = '\r' || (' ' ≤ c && c ≤ '~') || c = '\u0085' || isBeyondControls c

/-- The text with a line feed for each break of ASCII or Latin-1, of which CR LF is one. -/
def unifyBreaks : List Char → List Char
  | [] => []
  | '\r' :: '\n' :: cs => '\n' :: unifyBreaks cs
  | c :: cs => (if c = '\r' ∨ c = '\u0085' then '\n' else c) :: unifyBreaks cs

theorem not_mem_unifyBreaks (cs : List Char) : '\r' ∉ unifyBreaks cs := by
  fun_induction unifyBreaks cs with
  | case1 => simp
  | case2 cs ih => simpa using ih
  | case3 c cs _ ih =>
    by_cases h : c = '\r' ∨ c = '\u0085'
    · simpa [h] using ih
    · simp only [h, if_false, List.mem_cons, ih, or_false]
      exact fun hc => h (Or.inl hc.symm)

/-- A character with the line and the column it stands in, both counted from zero. -/
structure Glyph where
  char : Char
  line : Nat
  column : Nat
  deriving DecidableEq, Repr

namespace Glyph

/-- The text in its places, where its first character has the given ones. -/
def place (line column : Nat) : List Char → List Glyph
  | [] => []
  | c :: cs =>
    ⟨c, line, column⟩ :: if isBreak c then place (line + 1) 0 cs else place line (column + 1) cs

def text (gs : List Glyph) : List Char := gs.map (·.char)

theorem text_place (line column : Nat) (cs : List Char) : text (place line column cs) = cs := by
  induction cs generalizing line column with
  | nil => rfl
  | cons c cs ih =>
    simp only [place, text, List.map_cons, List.cons.injEq, true_and]
    split <;> exact ih _ _

/-- The characters of a document, and nothing if one of them may not stand there. -/
def ofText? (text : String) : Option (List Glyph) :=
  if text.toList.all isReadable then some (place 0 0 (unifyBreaks text.toList)) else none

def isGap (g : Glyph) : Bool := Yaml.isGap g.char

def isBreak (g : Glyph) : Bool := Yaml.isBreak g.char

def isSpace (g : Glyph) : Bool := g.isGap || g.isBreak

end Glyph

/-- Whether a word can end here: before a gap, a line break or the end of the text. -/
def endsWord : List Glyph → Bool
  | [] => true
  | g :: _ => g.isSpace

/-- Whether the line begins with a character three times on its own, which marks the start or the
end of a document. -/
def isMarkOf (c : Char) : List Glyph → Bool
  | g :: h :: i :: gs => g.column = 0 && g.char = c && h.char = c && i.char = c && endsWord gs
  | _ => false

def isDocumentMark (gs : List Glyph) : Bool := isMarkOf '-' gs || isMarkOf '.' gs

/-- What follows the line, of which nothing but a gap and a comment is left. -/
def endLine? (inComment : Bool) : List Glyph → Option (List Glyph)
  | [] => some []
  | g :: gs =>
    if g.isBreak then some gs
    else if inComment || g.char = '#' then endLine? true gs
    else if g.isGap then endLine? false gs
    else none

/-- What line breaks between two words stand for: one of them for a space, more of them for all
but the first. Line and paragraph separators stand for themselves. -/
def foldBreaks : List Char → List Char
  | ['\n'] => [' ']
  | '\n' :: breaks => breaks
  | breaks => breaks

/-- What a run of gaps and breaks between two words stands for; gaps beside a break do not count. -/
def foldRun (run : List Char) : List Char :=
  match run.filter isBreak with
  | [] => run
  | breaks => foldBreaks breaks

theorem foldRun_of_gaps {run : List Char} (h : ∀ c ∈ run, isBreak c = false) :
    foldRun run = run := by
  have : run.filter isBreak = [] := by simpa using h
  simp [foldRun, this]

end PolicyStore.Yaml
