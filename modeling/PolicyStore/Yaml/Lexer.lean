import PolicyStore.Yaml.FlowScalar
import PolicyStore.Yaml.BlockScalar
import PolicyStore.Yaml.Property

set_option autoImplicit false

namespace PolicyStore.Yaml

/-!
# From characters to tokens

A lexer reads one token after the other and keeps track of the layout: how far the open block
collections are indented, and where a node begins that a colon would turn into a key.
-/

/-- A node that becomes a key if a colon follows it. -/
structure PendingKey where
  line : Nat
  column : Nat
  /-- Whether the place admits nothing but a key. -/
  required : Bool
  /-- How many tokens there are before the node. -/
  before : Nat
  deriving DecidableEq, Repr

/-- A key may not go on over a line break or for more than 1024 characters. -/
def PendingKey.reaches (k : PendingKey) (g : Glyph) : Bool :=
  k.line = g.line && g.column ≤ k.column + 1024

structure Lexer where
  rest : List Glyph
  /-- The columns of the open block collections, the innermost first. -/
  columns : List Nat := []
  /-- Whether a key may begin at this point. -/
  keyAllowed : Bool := true
  pending : Option PendingKey := none
  /-- The pending keys around each open flow collection, the innermost first. -/
  outer : List (Option PendingKey) := []
  /-- The tokens read so far, the last one first. -/
  tokens : List Token := []
  deriving DecidableEq, Repr

namespace Lexer

/-- Whether the lexer is inside a flow collection, where layout does not count. -/
def inFlow (s : Lexer) : Bool := !s.outer.isEmpty

/-- Passes over gaps, comments and line breaks. In a flow collection tabs count as gaps everywhere,
elsewhere only where no key may begin; a key may begin on every new line. A byte order mark may
begin a line, of which it takes up a column. -/
def skipSpace (flow : Bool) (keyAllowed inComment : Bool) : List Glyph → Bool × List Glyph
  | [] => (keyAllowed, [])
  | g :: gs =>
    if g.isBreak then skipSpace flow (keyAllowed || !flow) false gs
    else if inComment ∨ g.char = '#' then skipSpace flow keyAllowed true gs
    else if g.char = ' ' ∨ (g.char = '\t' ∧ (flow ∨ !keyAllowed)) ∨
        (g.char = '\ufeff' ∧ g.column = 0) then
      skipSpace flow keyAllowed false gs
    else (keyAllowed, g :: gs)

def emit (s : Lexer) (t : Token) : Lexer := { s with tokens := t :: s.tokens }

/-- Puts tokens in after the given number of tokens. -/
def insert (s : Lexer) (before : Nat) (ts : List Token) : Lexer :=
  let later := s.tokens.length - before
  { s with tokens := s.tokens.take later ++ ts.reverse ++ s.tokens.drop later }

theorem reverse_tokens_insert (s : Lexer) {before : Nat} (h : before ≤ s.tokens.length)
    (ts : List Token) : (s.insert before ts).tokens.reverse =
      s.tokens.reverse.take before ++ ts ++ s.tokens.reverse.drop before := by
  have hb : s.tokens.length - (s.tokens.length - before) = before := by omega
  simp [insert, List.take_reverse, List.drop_reverse, List.append_assoc]

/-! ## Layout -/

/-- Closes the block collections that are indented further than a column, or all of them. -/
def closeBlocks (s : Lexer) (column : Option Nat) : Lexer :=
  if s.inFlow then s
  else
    let isClosed (c : Nat) : Bool := column.all (· < c)
    { s with
      columns := s.columns.dropWhile isClosed
      tokens := (s.columns.takeWhile isClosed).map (fun _ => Token.blockEnd) ++ s.tokens }

/-- Whether a block collection that begins in this column is inside all the open ones. -/
def isDeeper (s : Lexer) (column : Nat) : Bool := !s.inFlow && s.columns.head?.all (· < column)

/-- Opens a block collection in a column unless it is open already. -/
def openBlock (s : Lexer) (column : Nat) (t : Token) : Lexer :=
  if s.isDeeper column then { s.emit t with columns := column :: s.columns } else s

/-- The least column of further lines of a scalar. -/
def indent (s : Lexer) : Nat := s.columns.head?.elim 0 (· + 1)

/-! ## Keys -/

/-- Gives up the pending key, which may not be required. -/
def dropKey? (s : Lexer) : Option Lexer :=
  if s.pending.any (·.required) then none else some { s with pending := none }

/-- Remembers that a key may begin with the next token. -/
def holdKey? (s : Lexer) (g : Glyph) : Option Lexer :=
  if s.keyAllowed then do
    let s ← s.dropKey?
    some { s with pending := some {
      line := g.line, column := g.column, before := s.tokens.length
      required := !s.inFlow && s.columns.head? = some g.column } }
  else some s

/-- Gives up the keys that do not reach the next token; none of them may be required. -/
def expireKeys? (s : Lexer) (g : Glyph) : Option Lexer :=
  let isStale (k : PendingKey) : Bool := !k.reaches g
  if (s.pending :: s.outer).any (·.any fun k => k.required && isStale k) then none
  else
    let renew (key : Option PendingKey) := key.filter (!isStale ·)
    some { s with pending := renew s.pending, outer := s.outer.map renew }

/-! ## Tokens -/

/-- A mark of one character, after which the rest is read. -/
def mark (s : Lexer) (t : Token) (keyAllowed : Bool) : Lexer :=
  { s.emit t with rest := s.rest.tail, keyAllowed := keyAllowed }

/-- The mark that begins a flow collection, which as a whole may be a key. -/
def openFlow? (s : Lexer) (g : Glyph) (t : Token) : Option Lexer := do
  let s ← s.holdKey? g
  return ({ s with pending := none, outer := s.pending :: s.outer } : Lexer).mark t true

def closeFlow? (s : Lexer) (t : Token) : Option Lexer := do
  let s ← s.dropKey?
  match s.outer with
  | [] => some (s.mark t false)
  | key :: outer => some (({ s with pending := key, outer := outer } : Lexer).mark t false)

/-- The mark of an item or of a key, which outside of flow collections stands where a key may
begin. -/
def entryMark? (s : Lexer) (g : Glyph) (start t : Token) (keyFollows : Bool) : Option Lexer := do
  if s.inFlow ∨ s.keyAllowed then
    let s ← (s.openBlock g.column start).dropKey?
    some (s.mark t keyFollows)
  else none

/-- The colon before a value. It turns the pending node into a key; without one it belongs to a key
that has its own mark. -/
def valueMark? (s : Lexer) (g : Glyph) : Option Lexer :=
  match s.pending with
  | some k =>
    let opened := s.isDeeper k.column
    let s := s.insert k.before (if opened then [.blockMapping, .key] else [.key])
    let columns := if opened then k.column :: s.columns else s.columns
    some (({ s with columns := columns, pending := none } : Lexer).mark .value false)
  | none =>
    if s.inFlow ∨ s.keyAllowed then
      some ((s.openBlock g.column .blockMapping).mark .value !s.inFlow)
    else none

/-- A token that a key may begin with, and after which none may begin on the same line. -/
def wordToken? (s : Lexer) (g : Glyph) (read : Option (Token × List Glyph)) : Option Lexer := do
  let s ← s.holdKey? g
  let (token, rest) ← read
  some { s.emit token with rest := rest, keyAllowed := false }

/-- A plain scalar. After the end of its last line a key may begin. -/
def plainToken? (s : Lexer) (g : Glyph) : Option Lexer := do
  let plain ← plain? s.inFlow s.indent [] s.rest
  let s ← s.wordToken? g (some (.scalar .plain (String.ofList plain.text), plain.rest))
  some { s with keyAllowed := plain.broken }

/-- A block scalar. It is no key, but one may begin on the line after it. -/
def blockToken? (s : Lexer) (style : Style) : Option Lexer := do
  let s ← s.dropKey?
  let (text, rest) ← blockScalar? (style = .literal) s.columns.head? s.rest.tail
  some { s.emit (.scalar style (String.ofList text)) with rest := rest, keyAllowed := true }

/-- A line outside of all blocks: the mark of a document or a directive. -/
def documentLine? (s : Lexer) (read : Option (Token × List Glyph)) : Option Lexer := do
  let s ← (s.closeBlocks none).dropKey?
  let (token, rest) ← read
  some { s.emit token with rest := rest, keyAllowed := false }

def asToken (style : Style) (r : List Char × List Glyph) : Token × List Glyph :=
  (.scalar style (String.ofList r.1), r.2)

/-- Reads the next token, which begins with the first of the remaining characters. -/
def token? (s : Lexer) (g : Glyph) (gs : List Glyph) : Option Lexer :=
  let flow := s.inFlow
  if g.column = 0 ∧ g.char = '%' then s.documentLine? (directive? gs)
  else if isMarkOf '-' (g :: gs) then s.documentLine? (some (.documentStart, gs.drop 2))
  else if isMarkOf '.' (g :: gs) then s.documentLine? (some (.documentEnd, gs.drop 2))
  else if g.char = '[' then s.openFlow? g .flowSequence
  else if g.char = '\x7b' then s.openFlow? g .flowMapping
  else if g.char = ']' then s.closeFlow? .flowSequenceEnd
  else if g.char = '\x7d' then s.closeFlow? .flowMappingEnd
  else if g.char = ',' then s.dropKey?.map (·.mark .comma true)
  else if g.char = '-' ∧ endsWord gs then s.entryMark? g .blockSequence .item true
  else if g.char = '?' ∧ (flow ∨ endsWord gs) then s.entryMark? g .blockMapping .key !flow
  else if g.char = ':' ∧ (flow ∨ endsWord gs) then s.valueMark? g
  else if g.char = '*' then s.wordToken? g ((anchorName? gs).map fun r => (.alias r.1, r.2))
  else if g.char = '&' then s.wordToken? g ((anchorName? gs).map fun r => (.anchor r.1, r.2))
  else if g.char = '!' then s.wordToken? g (tag? flow (g :: gs))
  else if g.char = '|' ∧ !flow then s.blockToken? .literal
  else if g.char = '>' ∧ !flow then s.blockToken? .folded
  else if g.char = '\'' then s.wordToken? g ((singleQuoted? [] gs).map (asToken .quoted))
  else if g.char = '"' then s.wordToken? g ((doubleQuoted? 0 false [] gs).map (asToken .quoted))
  else if beginsPlain flow (g :: gs) then s.plainToken? g
  else none

/-- Reads tokens up to the end of the text; the number bounds how many. -/
def run? : Nat → Lexer → Option (List Token)
  | 0, _ => none
  | bound + 1, s => do
    let (keyAllowed, rest) := skipSpace s.inFlow s.keyAllowed false s.rest
    let s := { s with rest := rest, keyAllowed := keyAllowed }
    match rest with
    | [] => return (← (s.closeBlocks none).dropKey?).tokens.reverse
    | g :: gs =>
      let s ← s.expireKeys? g
      let s ← (s.closeBlocks (some g.column)).token? g gs
      run? bound s

end Lexer

/-- The tokens of a document. Each takes a character at least, so that their number is bounded. -/
def tokens? (text : String) : Option (List Token) := do
  let gs ← Glyph.ofText? text
  Lexer.run? (gs.length + 1) { rest := gs }

end PolicyStore.Yaml
