import PolicyStore.Yaml.FlowScalar

set_option autoImplicit false

namespace PolicyStore.Yaml

/-!
# Writing scalars

A text of several lines is written as a literal block. Any other text is written plain where it
reads back as itself, in single quotes where it would be taken for something else, and in double
quotes where it holds characters that are not seen or line breaks beside spaces.
-/

/-- The characters that are written as they are: all that can be seen, and line breaks. -/
def isPrintable (c : Char) : Bool :=
  c = '\n' || (' ' ≤ c && c ≤ '~') || (isBeyondControls c && c ≠ '\ufeff')

/-- Whether somewhere a character of one class is followed by one of another. -/
def hasPair (isFirst isSecond : Char → Bool) (cs : List Char) : Bool :=
  (cs.zip cs.tail).any fun p => isFirst p.1 && isSecond p.2

def isSpace (c : Char) : Bool := c = ' '

/-- Whether every line break is kept by a scalar that is written over several lines. -/
def keepsBreaks (cs : List Char) : Bool := cs.all isPrintable && !hasPair isSpace isBreak cs

/-- Whether a text can be written as a literal block. -/
def isBlockText (cs : List Char) : Bool := keepsBreaks cs && !cs.getLast?.any isSpace

/-- Whether a text can be written in single quotes. -/
def isSingleQuotable (cs : List Char) : Bool := keepsBreaks cs && !hasPair isBreak isSpace cs

/-- Whether a mark ends a plain scalar that has been begun: a colon before a gap or before the end,
and a comment after a gap. -/
def hasInnerMark (cs : List Char) : Bool :=
  hasPair (· = ':') isSpace cs || cs.getLast? = some ':' || hasPair isSpace (· = '#') cs

/-- Whether a plain scalar may begin like the text. -/
def beginsLikePlain : List Char → Bool
  | [] => false
  | c :: cs =>
    let alone := cs.head?.all isSpace
    !isIndicator c && !((c = '-' || c = '?' || c = ':') && alone) &&
      (c :: cs).take 3 != ['-', '-', '-'] && (c :: cs).take 3 != ['.', '.', '.']

/-- Whether a text on one line can be written plain. -/
def isPlainText (cs : List Char) : Bool :=
  cs.all (fun c => isPrintable c && !isBreak c) && beginsLikePlain cs && !hasInnerMark cs &&
    !cs.head?.any isSpace && !cs.getLast?.any isSpace

/-- The indent of the lines of a value. -/
def margin : List Char := [' ', ' ']

/-- The lines of a text with a margin before each that is not blank. -/
def indentLines (atStart : Bool) : List Char → List Char
  | [] => []
  | c :: cs =>
    if isBreak c then c :: indentLines true cs
    else (if atStart then margin else []) ++ c :: indentLines false cs

theorem indentLines_of_one_line {cs : List Char} (h : ∀ c ∈ cs, isBreak c = false) :
    indentLines false cs = cs := by
  induction cs with
  | nil => rfl
  | cons c cs ih =>
    have hc : isBreak c = false := h c (by simp)
    have hcs : indentLines false cs = cs := ih fun d hd => h d (by simp [hd])
    simp [indentLines, hc, hcs]

/-- The header of a literal block. It tells the indent where the text itself begins with a space or
a line break, and what becomes of the line breaks at the end unless there is exactly one. -/
def literalHeader (cs : List Char) : List Char :=
  let hint := if cs.head?.any fun c => isSpace c || isBreak c then ['2'] else []
  let chomping := match cs.reverse with
    | [] => ['-']
    | c :: before =>
      if !isBreak c then ['-'] else if before.head?.all isBreak then ['+'] else []
  '|' :: hint ++ chomping

def literal (cs : List Char) : List Char := literalHeader cs ++ '\n' :: indentLines true cs

def singleQuoted (cs : List Char) : List Char :=
  let body := cs.flatMap fun c => if c = '\'' then [c, c] else [c]
  '\'' :: indentLines false body ++ (if cs.getLast?.any isBreak then margin else []) ++ ['\'']

def hexDigit (n : Nat) : Char := Char.ofNat (if n < 10 then 0x30 + n else 0x37 + n)

def hexDigits : Nat → Nat → List Char
  | 0, _ => []
  | width + 1, n => hexDigits width (n / 16) ++ [hexDigit (n % 16)]

def escapeChar (c : Char) : List Char :=
  if isPrintable c && !isBreak c && c != '"' && c != '\\' then [c]
  else
    match escapes.find? (·.2 = c) with
    | some (letter, _) => ['\\', letter]
    | none =>
      let n := c.toNat
      if n < 0x100 then '\\' :: 'x' :: hexDigits 2 n
      else if n < 0x10000 then '\\' :: 'u' :: hexDigits 4 n
      else '\\' :: 'U' :: hexDigits 8 n

def doubleQuoted (cs : List Char) : List Char := '"' :: cs.flatMap escapeChar ++ ['"']

def scalar (text : String) : List Char :=
  let cs := text.toList
  if cs.contains '\n' then if isBlockText cs then literal cs else doubleQuoted cs
  else if !isAmbiguous text && isPlainText cs then cs
  else if isSingleQuotable cs then singleQuoted cs
  else doubleQuoted cs

/-- A key and its value; a value that ends in a line break ends its line. -/
def member (key : String) (value : List Char) : String :=
  let ending := if value.getLast?.any isBreak then [] else ['\n']
  String.ofList (key.toList ++ ':' :: ' ' :: value ++ ending)

def textMember (key text : String) : String := member key (scalar text)

def flagMember (key : String) (b : Bool) : String :=
  member key (if b then "true" else "false").toList

end PolicyStore.Yaml
