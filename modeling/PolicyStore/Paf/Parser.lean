import PolicyStore.Update
import PolicyStore.Paf.Statement

set_option autoImplicit false

namespace PolicyStore.Paf

/-!
# Parsing into a policy

A parser carries out statements on a policy. Open blocks form a stack, the innermost first. A
strict parser fails at the first fault; a lenient one notes it, drops the value or line it belongs
to, and goes on.
-/

structure Parser where
  strict : Bool
  /-- How many blocks are open. -/
  depth : Nat := 0
  /-- The faults noted so far, in the order of their discovery. -/
  diagnostics : List ParseError := []
  deriving DecidableEq

structure Session where
  store : Store
  parser : Parser
  deriving DecidableEq

abbrev ParseM := EStateM PolicyError Session

/-- A block whose statements are being carried out. -/
structure Block where
  policy : Policy
  /-- The parameters read into it and into the blocks inside it. -/
  count : Nat := 0
  /-- Whether the block is part of the one around it, or dropped together with all it holds. -/
  attached : Bool := true
  deriving DecidableEq, Repr

/-- The outer block once the inner one is closed; the inner one counts as a parameter itself. -/
def Block.close (inner outer : Block) : Block :=
  { outer with count := outer.count + if inner.attached then 1 + inner.count else 0 }

/-- The count of the outermost block when all are closed. -/
def Block.total (inner : Block) : List Block → Nat
  | [] => inner.count
  | outer :: rest => (inner.close outer).total rest

namespace ParseM

/-- Runs an operation on the store; the parser stays as it is. -/
def onStore {α : Type} (action : StoreM α) : ParseM α := fun session =>
  match action session.store with
  | .ok a s => .ok a { session with store := s }
  | .error e s => .error e { session with store := s }

def modifyParser (f : Parser → Parser) : ParseM Unit :=
  modify fun session => { session with parser := f session.parser }

/-- Notes a fault, or fails with it if the parser is strict. -/
def report (e : ParseError) : ParseM Unit := do
  if (← get).parser.strict then throw (.parse e)
  else modifyParser fun parser => { parser with diagnostics := parser.diagnostics ++ [e] }

end ParseM

open ParseM

/-- Appends a value and tells whether it was accepted; it is a fault of the text to mix kinds. -/
def addValue (p : Policy) (name : String) (line : Nat) (v : Value Policy) : ParseM Bool := do
  match (← get).store.add p name v with
  | .ok s =>
    modify fun session => { session with store := s }
    return true
  | .error e =>
    if e.isTypeError then
      report (formatFault line ("array type mismatch: " ++ e.message))
      return false
    else throw e

def addItem (p : Policy) (name : String) : Item → ParseM Bool
  | .value line v => addValue p name line (.ofLiteral v)
  | .fault e => do
    report e
    return false

/-- Appends the values of a parameter and tells whether any of them was accepted. -/
def addItems (p : Policy) (name : String) : List Item → ParseM Bool
  | [] => return false
  | item :: items => do
    let first ← addItem p name item
    let others ← addItems p name items
    return first || others

/-- Where a run of statements ended: the number of parameters, and the number of the last line
reached if a closing brace ended the run before the input did. -/
structure Outcome where
  count : Nat
  stopped : Option Nat
  deriving DecidableEq, Repr

/-- Carries out statements in the innermost block. A closing brace that a parser takes for the end
of the outermost block ends the run. -/
def run (inner : Block) : List Block → List Statement → ParseM Outcome
  | outer, [] => return ⟨inner.total outer, none⟩
  | outer, .fault e :: rest => do
    report e
    run inner outer rest
  | outer, .values name items :: rest => do
    let added ← addItems inner.policy name items
    run { inner with count := inner.count + if added then 1 else 0 } outer rest
  | outer, .opening line name :: rest => do
    modifyParser fun parser => { parser with depth := parser.depth + 1 }
    let sub ← onStore (Policy.create [])
    let attached ← addValue inner.policy name line (.policy sub)
    run { policy := sub, attached := attached } (inner :: outer) rest
  | outer, .closing line followed :: rest => do
    if (← get).parser.depth = 0 then
      report (syntaxFault line "unmatched '\x7d'")
      run inner outer rest
    else
      modifyParser fun parser => { parser with depth := parser.depth - 1 }
      match outer with
      | [] => return ⟨inner.count, some (if followed then line - 1 else line)⟩
      | enclosing :: others => run (inner.close enclosing) others rest
  | _, .unreadable :: _ => throw (.unreadable none .notText)

/-- Parses an input into a policy and answers the number of parameters read. -/
def parse (target : Policy) (lines : List Line) : ParseM Nat := do
  let outcome ← run { policy := target } [] (statements lines)
  let depth := (← get).parser.depth
  if 0 < depth then
    modifyParser fun parser => { parser with depth := 0 }
    report ⟨.eof, "end of input with " ++ toString depth ++ " unclosed block(s)",
      some (outcome.stopped.getD lines.length), none⟩
  return outcome.count

/-- Parses with a new parser, of which only the outcome is kept. -/
def parseFresh (strict : Bool) (target : Policy) (lines : List Line) : StoreM Nat := fun s =>
  match parse target lines ⟨s, { strict := strict }⟩ with
  | .ok count session => .ok count session.store
  | .error e session => .error e session.store

end PolicyStore.Paf
