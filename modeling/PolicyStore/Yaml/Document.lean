import PolicyStore.Yaml.Lexer

set_option autoImplicit false

namespace PolicyStore.Yaml

/-!
# Documents

A document is a tree of nodes. An alias stands for the node that an anchor marks; what is kept of an
anchored node is its scalar, if it is one.
-/

inductive Node where
  | scalar (s : Scalar)
  /-- The node with the given number among the anchored ones. -/
  | alias (number : Nat)
  | sequence (items : List Node)
  | mapping (members : List (Node × Node))

structure Document where
  root : Node
  /-- The anchored nodes by number, the latest first; a collection is `none`. -/
  anchored : List (Nat × Option Scalar)

/-- The scalar that a node is or that its alias stands for. -/
def Document.scalar? (d : Document) : Node → Option Scalar
  | .scalar s => some s
  | .alias number => (d.anchored.lookup number).join
  | .sequence _ => none
  | .mapping _ => none

/-- The members of a mapping by the texts of their keys; a value that is a collection is `none`. -/
abbrev Members := List (String × Option Scalar)

/-- The members of the mapping that a document is; its keys have to be scalars. -/
def Document.members? (d : Document) : Option Members :=
  match d.root with
  | .mapping members => members.mapM fun m => do return ((← d.scalar? m.1).text, d.scalar? m.2)
  | _ => none

/-- What is left to read of a document, and what is known so far. -/
structure Reading where
  tokens : List Token
  /-- The beginnings of tags by their handles. -/
  handles : List (String × String)
  /-- The numbers of the anchors in use. -/
  numbers : List (String × Nat) := []
  anchored : List (Nat × Option Scalar) := []

abbrev ReadM := StateT Reading Option

namespace ReadM

def next : ReadM (Option Token) := do return (← get).tokens.head?

def skip : ReadM Unit := modify fun r => { r with tokens := r.tokens.tail }

def take (t : Token) : ReadM Bool := do
  if (← next) = some t then skip; return true
  else return false

/-- Takes a token off, which has to be the next one. -/
def expect (t : Token) : ReadM Unit := do if ← take t then return () else failure

def isNext (ts : List Token) : ReadM Bool := do return (← next).any ts.contains

/-- The number of an anchor that has been met. -/
def number (name : String) : ReadM Nat := do
  match (← get).numbers.lookup name with
  | some n => return n
  | none => failure

/-- Notes what an anchor marks. Its number is how many names are in use before it, and a name used
again gets a new number. -/
def note (name : String) (s : Option Scalar) : ReadM Unit := modify fun r =>
  let n := r.numbers.length
  { r with
    numbers := (name, n) :: r.numbers.filter (·.1 ≠ name)
    anchored := (n, s) :: r.anchored }

end ReadM

open ReadM

/-- What stands before the content of a node. -/
structure Properties where
  anchor : Option String := none
  tag : Option String := none

namespace Properties

def fullTag (handle rest : String) : ReadM String := do
  if handle = "" then return rest
  else
    match (← get).handles.lookup handle with
    | some lead => return lead ++ rest
    | none => failure

/-- An anchor and a tag in any order, each at most once. -/
def read : ReadM Properties := do
  match (← get).tokens with
  | .anchor name :: .tag handle rest :: _ =>
    skip; skip
    return { anchor := some name, tag := some (← fullTag handle rest) }
  | .tag handle rest :: .anchor name :: _ =>
    skip; skip
    return { anchor := some name, tag := some (← fullTag handle rest) }
  | .anchor name :: _ =>
    skip
    return { anchor := some name }
  | .tag handle rest :: _ =>
    skip
    return { tag := some (← fullTag handle rest) }
  | _ => return {}

def note (p : Properties) (s : Option Scalar) : ReadM Unit :=
  match p.anchor with
  | some name => ReadM.note name s
  | none => return ()

/-- A scalar that is written out. The tag of one exclamation mark is as good as none. -/
def scalar (p : Properties) (style : Style) (text : String) : ReadM Node := do
  let s : Scalar := { style, text, tag := p.tag.filter (· ≠ "!") }
  p.note (some s)
  return .scalar s

/-- A node without content, which only its properties show to be there. -/
def emptyNode (p : Properties) : ReadM Node := do
  if p.anchor.isNone ∧ p.tag.isNone then failure
  let s : Scalar := { style := .plain, text := "", tag := p.tag }
  p.note (some s)
  return .scalar s

end Properties

/-- A node that is left out. -/
def absent : Node := .scalar { style := .plain, text := "" }

namespace Node

/-! ## The grammar

The number that each reader is given bounds the depth of its calls. -/

mutual

/-- A node. The items of a sequence that is a value may stand in the column of the keys. -/
def read (isValue : Bool) : Nat → ReadM Node
  | 0 => failure
  | bound + 1 => do
    if let some (.alias name) ← next then
      skip
      return .alias (← number name)
    let p ← Properties.read
    match ← next with
    | some (.scalar style text) => skip; p.scalar style text
    | some .flowSequence => skip; p.note none; return .sequence (← flowItems true bound)
    | some .flowMapping => skip; p.note none; return .mapping (← flowMembers true bound)
    | some .blockSequence => skip; p.note none; return .sequence (← blockItems bound)
    | some .blockMapping => skip; p.note none; return .mapping (← blockMembers bound)
    | some .item =>
      if isValue then p.note none; return .sequence (← looseItems bound)
      else p.emptyNode
    | _ => p.emptyNode

/-- A node, or its absence before one of the tokens that may follow it. -/
def readUnless (ts : List Token) (isValue : Bool) : Nat → ReadM Node
  | 0 => failure
  | bound + 1 => do if ← isNext ts then return absent else read isValue bound

def blockItems : Nat → ReadM (List Node)
  | 0 => failure
  | bound + 1 => do
    if ← take .blockEnd then return []
    expect .item
    let node ← readUnless [.item, .blockEnd] false bound
    return node :: (← blockItems bound)

/-- The items of a sequence in the column of the keys around it, which has no end of its own. -/
def looseItems : Nat → ReadM (List Node)
  | 0 => failure
  | bound + 1 => do
    if ← take .item then
      let node ← readUnless [.item, .key, .value, .blockEnd] false bound
      return node :: (← looseItems bound)
    else return []

def blockMembers : Nat → ReadM (List (Node × Node))
  | 0 => failure
  | bound + 1 => do
    if ← take .blockEnd then return []
    expect .key
    let follow := [Token.key, .value, .blockEnd]
    let key ← readUnless follow true bound
    let value ← if ← take .value then readUnless follow true bound else pure absent
    return (key, value) :: (← blockMembers bound)

/-- The items of a flow sequence up to its end; a comma stands before each but the first. -/
def flowItems (first : Bool) : Nat → ReadM (List Node)
  | 0 => failure
  | bound + 1 => do
    if ← take .flowSequenceEnd then return []
    if !first then expect .comma
    if ← take .flowSequenceEnd then return []
    let node ← if ← take .key then pairItem bound else read false bound
    return node :: (← flowItems false bound)

/-- A key and its value as an item of a flow sequence. Where the key is left out, the mark that
follows in its place is passed over. -/
def pairItem : Nat → ReadM Node
  | 0 => failure
  | bound + 1 => do
    let key ←
      if ← isNext [.value, .comma, .flowSequenceEnd] then do
        skip
        pure absent
      else read false bound
    let value ←
      if ← take .value then readUnless [.comma, .flowSequenceEnd] false bound else pure absent
    return .mapping [(key, value)]

/-- The members of a flow mapping up to its end; a comma stands before each but the first. A node
without the mark of a key is a key without a value. -/
def flowMembers (first : Bool) : Nat → ReadM (List (Node × Node))
  | 0 => failure
  | bound + 1 => do
    if ← take .flowMappingEnd then return []
    if !first then expect .comma
    if ← take .flowMappingEnd then return []
    let member ←
      if ← take .key then do
        let key ← readUnless [.value, .comma, .flowMappingEnd] false bound
        let value ←
          if ← take .value then readUnless [.comma, .flowMappingEnd] false bound else pure absent
        pure (key, value)
      else do
        let key ← read false bound
        pure (key, absent)
    return member :: (← flowMembers false bound)

end

end Node

/-! ## Whole documents -/

def readDirectives (hasVersion : Bool) (handles : List (String × String)) :
    List Token → Option (List (String × String) × List Token)
  | .version major minor :: ts =>
    if hasVersion ∨ major ≠ 1 ∨ (minor ≠ 1 ∧ minor ≠ 2) then none
    else readDirectives true handles ts
  | .handle name lead :: ts =>
    if (handles.lookup name).isSome then none
    else readDirectives hasVersion ((name, lead) :: handles) ts
  | ts => some (handles, ts)

def standardHandles : List (String × String) := [("!", "!"), ("!!", "tag:yaml.org,2002:")]

def isDirective : Token → Bool
  | .version _ _ => true
  | .handle _ _ => true
  | _ => false

/-- The root of a document, which after a mark of its start may be left out. -/
def readRoot (explicit : Bool) : ReadM Node := do
  let ts := (← get).tokens
  if explicit ∧ ts.head?.all fun t => isDirective t || t = .documentStart || t = .documentEnd then
    return absent
  else Node.read false (2 * ts.length + 2)

/-- The document that tokens make up. Directives are followed by the mark of its start, and nothing
but marks of its end may come after it. -/
def Document.ofTokens? (ts : List Token) : Option Document := do
  let (handles, body) ← readDirectives false [] ts
  let explicit := body.head? = some .documentStart
  if !explicit ∧ body.length < ts.length then none
  else
    let start : Reading := {
      tokens := if explicit then body.tail else body
      handles := handles ++ standardHandles }
    let (root, r) ← (readRoot explicit).run start
    if r.tokens.all (· = .documentEnd) then some { root, anchored := r.anchored } else none

/-- The document that a text holds; a text with none or more than one holds nothing. -/
def Document.ofText? (text : String) : Option Document := do Document.ofTokens? (← tokens? text)

end PolicyStore.Yaml
