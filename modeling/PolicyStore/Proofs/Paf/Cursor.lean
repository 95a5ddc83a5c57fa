import PolicyStore.Paf.Parser
import PolicyStore.Proofs.Text.Cutting

set_option autoImplicit false

namespace PolicyStore.Paf

/-!
# Reading through a cursor

The parser as it goes over its input. A cursor hands out one line after the other and takes back what
is left of a line, to hand it out again before the next. It counts up with each text that it hands
out and down with each that it takes back, and faults are numbered with its count.

A step takes one text from the cursor and does all that is done until the next one is wanted.
-/

/-! ## The cursor -/

/-- What is left of a line, with the number of the line. -/
structure Piece where
  number : Nat
  text : List Char
  deriving DecidableEq

structure Cursor where
  unread : List Line
  /-- What has been taken back, the next to be handed out first. -/
  pending : List Piece := []
  counter : Nat := 0
  -- the fields from here on are never looked at by the parser
  /-- How many lines have been handed out. -/
  taken : Nat := 0
  /-- The number of the line of which the last text is that has been handed out. -/
  current : Nat := 0
  /-- Whether a text was wanted when there was none. -/
  ended : Bool := false
  /-- Whether the count was to go down when it was zero. -/
  saturated : Bool := false
  deriving DecidableEq

inductive Fetched where
  | text (cs : List Char)
  /-- A line that is not text. -/
  | unreadable
  | ended

namespace Cursor

def fetch (c : Cursor) : Fetched × Cursor :=
  match c.pending, c.unread with
  | p :: rest, _ =>
    (.text p.text, { c with pending := rest, counter := c.counter + 1, current := p.number })
  | [], some cs :: rest =>
    (.text cs, { c with
      unread := rest
      counter := c.counter + 1
      taken := c.taken + 1
      current := c.taken + 1 })
  | [], none :: _ => (.unreadable, c)
  | [], [] => (.ended, { c with ended := true })

/-- Takes back the rest of the text that has been handed out last. -/
def pushBack (text : List Char) (c : Cursor) : Cursor :=
  { c with
    pending := ⟨c.current, text⟩ :: c.pending
    counter := c.counter - 1
    saturated := c.saturated || c.counter = 0 }

end Cursor

/-! ## The reader -/

inductive Brace where
  | opening
  | closing
  deriving DecidableEq

/-- The blocks that are open after some braces; a closing brace without an open block closes none. -/
def unclosed (braces : List Brace) : Nat :=
  braces.foldl (fun n brace => match brace with | .opening => n + 1 | .closing => n - 1) 0

structure Reader where
  session : Session
  cursor : Cursor
  inner : Block
  outer : List Block := []
  /-- The braces of blocks that have been read; the parser does not look at them. -/
  braces : List Brace := []
  deriving DecidableEq

/-- A quoted string that is still open at the end of a line. -/
structure OpenString where
  name : List Char
  mark : Char
  /-- The count of the cursor at the opening mark. -/
  opened : Nat
  /-- The number of the line of the opening mark. -/
  origin : Nat
  text : List Char
  /-- Whether a value of the parameter has been accepted before. -/
  added : Bool
  deriving DecidableEq

/-- What the next text is wanted for, or what the parser has come to. -/
inductive Stage where
  | block
  | string (q : OpenString)
  | answered (count : Nat)
  | failed (e : PolicyError)
  deriving DecidableEq

abbrev ReadM := EStateM PolicyError Reader

namespace ReadM

def onSession {α : Type} (m : ParseM α) : ReadM α := fun r =>
  match m r.session with
  | .ok a t => .ok a { r with session := t }
  | .error e t => .error e { r with session := t }

def fetch : ReadM Fetched :=
  modifyGet fun r => (r.cursor.fetch.1, { r with cursor := r.cursor.fetch.2 })

def pushBack (text : List Char) : ReadM Unit :=
  modify fun r => { r with cursor := r.cursor.pushBack text }

/-- Takes back a rest, if there is any. -/
def pushRest (rest : List Char) : ReadM Unit := if rest = [] then pure () else pushBack rest

/-- Takes back a rest that begins with a closing brace. -/
def pushBrace (rest : List Char) : ReadM Unit :=
  if rest.head? = some '\x7d' then pushBack rest else pure ()

/-- Reports a fault that is numbered with the count of the cursor. -/
def report (e : Nat → ParseError) : ReadM Unit := do
  let r ← get
  onSession (ParseM.report (e r.cursor.counter))

/-- Adds a value to the innermost block, or reports what stands in its place. -/
def add (name : List Char) (item : Nat → Item) : ReadM Bool := do
  let r ← get
  onSession (addItem r.inner.policy (String.ofList name) (item r.cursor.counter))

/-- A parameter counts if any of its values has been accepted. -/
def counted (added : Bool) : ReadM Stage := do
  modify fun r =>
    { r with inner := { r.inner with count := r.inner.count + if added then 1 else 0 } }
  return .block

def setDepth (depth : Nat) : ReadM Unit :=
  modify fun r =>
    { r with session := { r.session with parser := { r.session.parser with depth := depth } } }

def note (brace : Brace) : ReadM Unit := modify fun r => { r with braces := r.braces ++ [brace] }

end ReadM

open ReadM

/-! ## Values -/

def isTokenPart (c : Char) : Bool := !(Text.isBlank c || isStop c)

theorem length_lt_of_token {text cs : List Char} {c : Char} (h : Text.trimStart text = c :: cs)
    (hstop : ¬ isStop c = true) : ((c :: cs).dropWhile isTokenPart).length < text.length := by
  have hpart : isTokenPart c = true := by
    simp [isTokenPart, Text.not_blank_of_trimStart h, hstop]
  have hle := Text.length_dropWhile_le isTokenPart cs
  have htrim := Text.length_trimStart_le text
  rw [h, List.length_cons] at htrim
  rw [List.dropWhile_cons_of_pos hpart]
  omega

theorem length_lt_of_quoted {text body value after : List Char} {c : Char}
    (h : Text.trimStart text = c :: body) (hcut : Text.cut c body = some (value, after)) :
    after.length < text.length := by
  have htrim := Text.length_trimStart_le text
  have hafter := Text.length_lt_of_cut hcut
  rw [h, List.length_cons] at htrim
  omega

/-- Reads truth values or numbers, token by token. -/
def readScalars (name : List Char) (kind : ScalarKind) (added : Bool) (text : List Char) :
    ReadM Stage :=
  match h : Text.trimStart text with
  | [] => counted added
  | c :: cs =>
    if hstop : isStop c then do
      pushBrace (c :: cs)
      counted added
    else
      have : ((c :: cs).dropWhile isTokenPart).length < text.length := length_lt_of_token h hstop
      do
        let more ← add name (scalarItem · kind ((c :: cs).takeWhile isTokenPart))
        readScalars name kind (added || more) ((c :: cs).dropWhile isTokenPart)
termination_by text.length

/-- Reads quoted strings, the last of which may be left open by the line. -/
def readStrings (name : List Char) (added : Bool) (text : List Char) : ReadM Stage :=
  match h : Text.trimStart text with
  | [] => counted added
  | c :: body =>
    if isStop c then do
      pushBrace (c :: body)
      counted added
    else if isQuote c then
      match hcut : Text.cut c body with
      | none => do
        let r ← get
        return .string ⟨name, c, r.cursor.counter, r.cursor.current,
          joinPiece [] (Text.trimEnd body), added⟩
      | some (value, after) =>
        have : after.length < text.length := length_lt_of_quoted h hcut
        do
          let more ← add name (.value · (.string (String.ofList value)))
          readStrings name (added || more) after
    else do
      report fun n => formatFault n ("expected quoted string for " ++ String.ofList name ++
        ", found: " ++ String.ofList (c :: body))
      counted added
termination_by text.length

def readBare (name text : List Char) : ReadM Stage := do
  let (content, rest) := cutBare text
  let added ← add name (bareItem · name content)
  pushRest rest
  counted added

/-! ## Blocks -/

def openBlock (name rest : List Char) : ReadM Stage := do
  let r ← get
  setDepth (r.session.parser.depth + 1)
  note .opening
  let sub ← onSession (ParseM.onStore (Policy.create []))
  let attached ← onSession
    (addValue r.inner.policy (String.ofList name) r.cursor.counter (.policy sub))
  pushRest (Text.trim rest)
  modify fun r =>
    { r with inner := { policy := sub, attached := attached }, outer := r.inner :: r.outer }
  return .block

/-- What is left to do when the outermost block has been read. -/
def endInput : ReadM Stage := do
  let r ← get
  let depth := r.session.parser.depth
  if 0 < depth then
    setDepth 0
    report fun n =>
      ⟨.eof, "end of input with " ++ toString depth ++ " unclosed block(s)", some n, none⟩
  return .answered r.inner.count

/-- Goes on with the block around the innermost one. -/
def leaveBlock : ReadM Stage := do
  let r ← get
  match r.outer with
  | [] => endInput
  | enclosing :: others => do
    set { r with inner := r.inner.close enclosing, outer := others }
    return .block

def closeBlock (rest : List Char) : ReadM Stage := do
  let r ← get
  note .closing
  if r.session.parser.depth = 0 then
    report (syntaxFault · "unmatched '\x7d'")
    pushRest rest
    return .block
  else
    setDepth (r.session.parser.depth - 1)
    pushRest rest
    leaveBlock

/-- Reads what stands after the colon of a parameter; the text does not begin with a blank. -/
def readValue (name text : List Char) : ReadM Stage := do
  let missing n := syntaxFault n ("missing value for " ++ String.ofList name)
  match text with
  | [] => do
    report missing
    return .block
  | '#' :: _ => do
    report missing
    return .block
  | '\x7d' :: rest => do
    report missing
    pushBack ('\x7d' :: rest)
    return .block
  | '\x7b' :: rest => openBlock name rest
  | c :: cs =>
    if isQuote c then readStrings name false (c :: cs)
    else
      match ScalarKind.ofToken? ((c :: cs).takeWhile isTokenPart) with
      | some kind => readScalars name kind false (c :: cs)
      | none => readBare name (c :: cs)

/-- Reads a parameter; the text neither begins with a blank nor is a comment. -/
def readParameter (text : List Char) : ReadM Stage :=
  match splitParameter? text with
  | none => do
    report (syntaxFault · ("bad parameter line: " ++ String.ofList text))
    return .block
  | some (name, after) =>
    if isParameterName name then readValue name (Text.trimStart after)
    else do
      report (syntaxFault · ("illegal parameter name: " ++ String.ofList name))
      return .block

/-- Reads a text in a block. -/
def readText (cs : List Char) : ReadM Stage :=
  match Text.trimStart cs with
  | [] => return .block
  | '#' :: _ => return .block
  | '\x7d' :: rest => closeBlock (Text.trimStart rest)
  | text => readParameter text

/-- Reads a text in which a quoted string is still open. -/
def readMore (q : OpenString) (cs : List Char) : ReadM Stage :=
  match Text.cut q.mark (Text.trimStart cs) with
  | none =>
    return .string { q with text := joinPiece q.text (Text.trimEnd (Text.trimStart cs)) }
  | some (piece, after) => do
    let more ← add q.name
      (.value · (.string (String.ofList (joinPiece q.text (Text.trimEnd piece)))))
    readStrings q.name (q.added || more) after

/-! ## Steps -/

def stepBlock : ReadM Stage := do
  match ← fetch with
  | .ended => leaveBlock
  | .unreadable => throw (.unreadable none .notText)
  | .text cs => readText cs

def stepString (q : OpenString) : ReadM Stage := do
  match ← fetch with
  | .ended =>
    report fun _ =>
      ⟨.eof, "unterminated string opened with " ++ String.ofList [q.mark], some q.opened, none⟩
    counted q.added
  | .unreadable => throw (.unreadable none .notText)
  | .text cs => readMore q cs

structure Machine where
  stage : Stage
  reader : Reader
  deriving DecidableEq

namespace Machine

def of : EStateM.Result PolicyError Reader Stage → Machine
  | .ok stage r => ⟨stage, r⟩
  | .error e r => ⟨.failed e, r⟩

/-- Takes one step, if the parser has not come to an end. -/
def advance (c : Machine) : Machine :=
  match c.stage with
  | .block => of (stepBlock c.reader)
  | .string q => of (stepString q c.reader)
  | .answered _ => c
  | .failed _ => c

def start (target : Policy) (lines : List Line) (t : Session) : Machine :=
  ⟨.block, { session := t, cursor := { unread := lines }, inner := { policy := target } }⟩

end Machine

end PolicyStore.Paf
