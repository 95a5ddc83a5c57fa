import PolicyStore.Paf.Line
import PolicyStore.Paf.Literal

set_option autoImplicit false

namespace PolicyStore.Paf

/-!
# Statements

A text is a row of statements: parameters with their values, the opening and the closing of blocks,
and faults. A line may hold several of them, and a quoted string may run over several lines; apart
from that each line is read by itself. Nothing here depends on what a policy already holds.
-/

/-- A value of a parameter, or what stands in its place. -/
inductive Item where
  | value (line : Nat) (v : Literal)
  | fault (e : ParseError)
  deriving DecidableEq

inductive Statement where
  | fault (e : ParseError)
  | values (name : String) (items : List Item)
  | opening (line : Nat) (name : String)
  /-- A closing brace, and whether anything follows it on its line. -/
  | closing (line : Nat) (followed : Bool)
  /-- A line that is not text. -/
  | unreadable
  deriving DecidableEq

/-- A quoted string that is still open at the end of a line, as the last of a parameter's items. -/
structure OpenQuote where
  name : String
  items : List Item
  mark : Char
  /-- The line of the opening mark. -/
  opened : Nat
  text : List Char
  deriving DecidableEq

/-- What follows the quoted strings of a parameter on a line. -/
inductive QuoteEnd where
  | rest (cs : List Char)
  | open_ (mark : Char) (text : List Char)

/-- One step of reading a line: nothing more is on it, or a statement and the rest of the line, or
a quoted string that the line leaves open. -/
inductive Step where
  | finished
  | emit (s : Statement) (rest : List Char)
  | pause (q : OpenQuote)

def isQuote (c : Char) : Bool := c = '"' || c = '\''

/-- A comment or a closing brace ends the values of a parameter. -/
def isStop (c : Char) : Bool := c = '#' || c = '\x7d'

def syntaxFault (n : Nat) (text : String) : ParseError := ⟨.syntaxError, text, some n, none⟩

def formatFault (n : Nat) (text : String) : ParseError := ⟨.formatSyntax, text, some n, none⟩

/-- What may stand before the colon of a parameter, apart from blanks. -/
def isNamePart (c : Char) : Bool := !(Text.isBlank c || c = ':')

/-- Splits a parameter at its colon; the name before it is a run of characters without blanks. -/
def splitParameter? (text : List Char) : Option (List Char × List Char) :=
  match Text.trimStart (text.dropWhile isNamePart) with
  | ':' :: after =>
    if text.takeWhile isNamePart = [] then none else some (text.takeWhile isNamePart, after)
  | _ => none

/-- A name is written with word characters, in segments with dots between them. -/
def isParameterName (name : List Char) : Bool :=
  (Text.splitOn '.' name).all fun segment => !segment.isEmpty && segment.all Text.isWordChar

/-- Adds a piece of a string that runs over several lines, after a single space. -/
def joinPiece (text piece : List Char) : List Char :=
  if piece = [] then text else if text = [] then piece else text ++ ' ' :: piece

/-- The quoted strings on a line up to a comment, a closing brace or the end of the line. Anything
else that is found between them is a fault, and the line is not read any further. -/
def quoted (n : Nat) (name : List Char) (cs : List Char) : List Item × QuoteEnd :=
  match h : Text.trimStart cs with
  | [] => ([], .rest [])
  | c :: body =>
    if isStop c then ([], .rest (c :: body))
    else if isQuote c then
      match hcut : Text.cut c body with
      | none => ([], .open_ c (joinPiece [] (Text.trimEnd body)))
      | some (value, after) =>
        have : after.length < cs.length := by
          have h1 := Text.length_trimStart_le cs
          have h2 := Text.length_lt_of_cut hcut
          simp only [h, List.length_cons] at h1
          omega
        let (items, tail) := quoted n name after
        (.value n (.string (String.ofList value)) :: items, tail)
    else
      ([.fault (formatFault n ("expected quoted string for " ++ String.ofList name ++ ", found: " ++
        String.ofList (c :: body)))], .rest [])
termination_by cs.length

/-- Cuts an unquoted text where blanks are followed by a comment or a closing brace. -/
def cutBare : List Char → List Char × List Char
  | [] => ([], [])
  | c :: cs =>
    if Text.isBlank c && (Text.trimStart cs).head?.any isStop then ([], Text.trimStart cs)
    else
      let (content, rest) := cutBare cs
      (c :: content, rest)

/-- An unquoted text as a value: a reference to a file after an at sign, otherwise a string. -/
def bareItem (n : Nat) (name : List Char) (content : List Char) : Item :=
  match Text.trimEnd content with
  | '@' :: path =>
    if Text.trim path = [] then
      .fault (formatFault n ("missing file name after '@' for " ++ String.ofList name))
    else .value n (.file ⟨String.ofList (Text.trim path), none⟩)
  | text => .value n (.string (String.ofList text))

def scalarItem (n : Nat) (kind : ScalarKind) (token : List Char) : Item :=
  match scalar kind token with
  | .ok v => .value n v
  | .error c => .fault (c.atLine n)

/-- Reads what stands after the colon of a parameter; the text does not begin with a blank. -/
def stepValue (n : Nat) (name : List Char) (text : List Char) : Step :=
  let label := String.ofList name
  let missing := Statement.fault (syntaxFault n ("missing value for " ++ label))
  match text with
  | [] => .emit missing []
  | '#' :: _ => .emit missing []
  | '\x7d' :: rest => .emit missing ('\x7d' :: rest)
  | '\x7b' :: rest => .emit (.opening n label) (Text.trim rest)
  | c :: cs =>
    if isQuote c then
      match quoted n name (c :: cs) with
      | (items, .rest rest) => .emit (.values label items) rest
      | (items, .open_ mark value) => .pause ⟨label, items, mark, n, value⟩
    else
      match ScalarKind.ofToken?
          ((c :: cs).takeWhile fun d => !(Text.isBlank d || isStop d)) with
      | some kind =>
        let tokens := Text.words ((c :: cs).takeWhile (!isStop ·))
        .emit (.values label (tokens.map (scalarItem n kind))) ((c :: cs).dropWhile (!isStop ·))
      | none =>
        let (content, rest) := cutBare (c :: cs)
        .emit (.values label [bareItem n name content]) rest

/-- Reads the first statement of a line. -/
def step (n : Nat) (cs : List Char) : Step :=
  match Text.trimStart cs with
  | [] => .finished
  | '#' :: _ => .finished
  | '\x7d' :: rest =>
    .emit (.closing n (!(Text.trimStart rest).isEmpty)) (Text.trimStart rest)
  | text =>
    match splitParameter? text with
    | none => .emit (.fault (syntaxFault n ("bad parameter line: " ++ String.ofList text))) []
    | some (name, after) =>
      if isParameterName name then stepValue n name (Text.trimStart after)
      else
        .emit (.fault (syntaxFault n ("illegal parameter name: " ++ String.ofList name))) []

theorem length_quoted_le {n : Nat} {name cs rest : List Char} {items : List Item}
    (h : quoted n name cs = (items, .rest rest)) : rest.length ≤ cs.length := by
  fun_induction quoted n name cs generalizing items with
  | case1 cs ht =>
    simp only [Prod.mk.injEq, QuoteEnd.rest.injEq] at h
    simp [← h.2]
  | case2 cs c body ht hstop =>
    simp only [Prod.mk.injEq, QuoteEnd.rest.injEq] at h
    rw [← h.2, ← ht]
    exact Text.length_trimStart_le cs
  | case3 => simp at h
  | case4 cs c body ht hstop hq value after hcut hlt more tail heq ih =>
    simp only [Prod.mk.injEq] at h
    rw [h.2] at heq
    have := ih heq
    omega
  | case5 =>
    simp only [Prod.mk.injEq, QuoteEnd.rest.injEq] at h
    simp [← h.2]

theorem length_cutBare_le (cs : List Char) : (cutBare cs).2.length ≤ cs.length := by
  induction cs with
  | nil => simp [cutBare]
  | cons c cs ih =>
    have h := Text.length_trimStart_le cs
    simp only [cutBare]
    split
    · simp only [List.length_cons]
      omega
    · simp only [List.length_cons]
      omega

theorem length_le_of_stepValue {n : Nat} {name text rest : List Char} {s : Statement}
    (h : stepValue n name text = .emit s rest) : rest.length ≤ text.length := by
  unfold stepValue at h
  split at h
  · simp only [Step.emit.injEq] at h
    simp [← h.2]
  · simp only [Step.emit.injEq] at h
    simp [← h.2]
  · simp only [Step.emit.injEq] at h
    simp [← h.2]
  · rename_i body
    simp only [Step.emit.injEq] at h
    have := Text.length_trim_le body
    simp only [← h.2, List.length_cons]
    omega
  · rename_i c cs _ _ _
    split at h
    · split at h
      · rename_i heq
        simp only [Step.emit.injEq] at h
        rw [h.2] at heq
        exact length_quoted_le heq
      · simp at h
    · split at h
      · simp only [Step.emit.injEq] at h
        rw [← h.2]
        exact Text.length_dropWhile_le _ _
      · simp only [Step.emit.injEq] at h
        rw [← h.2]
        exact length_cutBare_le _

theorem length_lt_of_splitParameter? {text name after : List Char}
    (h : splitParameter? text = some (name, after)) : after.length < text.length := by
  unfold splitParameter? at h
  split at h
  · rename_i colon heq
    split at h
    · simp at h
    · simp only [Option.some.injEq, Prod.mk.injEq] at h
      have h1 := Text.length_trimStart_le (text.dropWhile isNamePart)
      have h2 := Text.length_dropWhile_le isNamePart text
      rw [heq] at h1
      simp only [List.length_cons] at h1
      rw [← h.2]
      omega
  · simp at h

theorem length_lt_of_step {n : Nat} {cs rest : List Char} {s : Statement}
    (h : step n cs = .emit s rest) : rest.length < cs.length := by
  have hcs := Text.length_trimStart_le cs
  unfold step at h
  split at h
  · simp at h
  · simp at h
  · rename_i body heq
    simp only [Step.emit.injEq] at h
    have := Text.length_trimStart_le body
    rw [heq] at hcs
    simp only [List.length_cons] at hcs
    rw [← h.2]
    omega
  · rename_i hempty _ _
    have hpos : 0 < (Text.trimStart cs).length := List.length_pos_iff.mpr hempty
    split at h
    · simp only [Step.emit.injEq] at h
      simp only [← h.2, List.length_nil]
      omega
    · rename_i name after hsplit
      split at h
      · have h1 := length_le_of_stepValue h
        have h2 := Text.length_trimStart_le after
        have h3 := length_lt_of_splitParameter? hsplit
        omega
      · simp only [Step.emit.injEq] at h
        simp only [← h.2, List.length_nil]
        omega

/-- The statements of a line and the quoted string that it leaves open. -/
def scan (n : Nat) (cs : List Char) : List Statement × Option OpenQuote :=
  match _h : step n cs with
  | .finished => ([], none)
  | .pause q => ([], some q)
  | .emit s rest =>
    let (more, q) := scan n rest
    (s :: more, q)
termination_by cs.length
decreasing_by exact length_lt_of_step _h

/-- Reads a line on which a quoted string is still open. -/
def resume (q : OpenQuote) (n : Nat) (cs : List Char) : List Statement × Option OpenQuote :=
  let line := Text.trimStart cs
  match Text.cut q.mark line with
  | none => ([], some { q with text := joinPiece q.text (Text.trimEnd line) })
  | some (piece, after) =>
    let value := joinPiece q.text (Text.trimEnd piece)
    let closed := q.items ++ [.value n (.string (String.ofList value))]
    match quoted n q.name.toList after with
    | (items, .rest rest) =>
      let (more, open_) := scan n rest
      (.values q.name (closed ++ items) :: more, open_)
    | (items, .open_ mark text) => ([], some ⟨q.name, closed ++ items, mark, n, text⟩)

def readLine (n : Nat) (cs : List Char) : Option OpenQuote → List Statement × Option OpenQuote
  | none => scan n cs
  | some q => resume q n cs

/-- The statement of a string that the input leaves open. -/
def unterminated (q : OpenQuote) : Statement :=
  .values q.name (q.items ++
    [.fault ⟨.eof, "unterminated string opened with " ++ String.ofList [q.mark], some q.opened, none⟩])

/-- The statements of the lines from number `n` on. Nothing is read beyond a line that is not text. -/
def statementsFrom (n : Nat) : Option OpenQuote → List Line → List Statement
  | none, [] => []
  | some q, [] => [unterminated q]
  | none, none :: _ => [.unreadable]
  | some q, none :: _ => [.values q.name q.items, .unreadable]
  | q, some cs :: lines =>
    let (found, q) := readLine n cs q
    found ++ statementsFrom (n + 1) q lines

def statements (lines : List Line) : List Statement := statementsFrom 1 none lines

end PolicyStore.Paf
