import PolicyStore.Include

set_option autoImplicit false

namespace PolicyStore

/-!
# Dictionary files

A definition may name a file that holds the dictionary of its policies. Loading turns such a name
into a reference and includes the files, again and again until no name is left; the number of rounds
is limited, so that files that refer to each other in a circle are found out.
-/

namespace Dictionary

/-- How deeply dictionary files may nest. -/
def maxDepth : Nat := 16

def ofEntries? (rows : Entries Policy) : Except PolicyError Dictionary :=
  match Schema.requireLayout rows with
  | .ok _ => .ok ⟨rows⟩
  | .error fault => .error (.dictionary fault)

/-- The dictionary that a policy holds, with rows of its own. -/
def ofPolicy (p : Policy) : StoreM Dictionary :=
  StoreM.ask fun s => ofEntries? (s.entries p)

def ofText (text : String) : StoreM Dictionary := do
  ofPolicy (← Policy.ofText true text)

def ofFile (fs : FileSystem) (f : FileRef) : StoreM Dictionary := do
  ofPolicy (← Policy.ofFile fs true f)

def ofSchema (s : Schema) : Dictionary :=
  ⟨s.entries.map fun row => (row.1, row.2.map Tree.handle)⟩

/-- The definition blocks of a dictionary, that of the child definition last. -/
def blocks (s : Store) (rows : Entries Policy) : List Policy :=
  let own := match Entries.child? Schema.definitionsKey rows with
    | some block => (s.entries block).filterMap fun row => row.2.children.getLast?
    | none => []
  own ++ (Entries.child? Schema.childKey rows).toList

/-- The reference that a named dictionary file stands for. -/
def fileOf (v : Value Policy) : Except PolicyError FileRef :=
  match v with
  | .string path => .ok ⟨path, none⟩
  | .file f => .ok f
  | v => .error (.dictionary (.fileNotAPath v.kind))

/-- Turns the dictionary file of a block into a reference, unless the block has a dictionary; the
names inside a dictionary are left to another function. Answers how many names were turned. -/
def turnBlock (inside : Entries Policy → StoreM Nat) (block : Policy) : StoreM Nat := do
  let rows := (← get).entries block
  match Table.get? Definition.dictionaryFileKey rows, Table.get? Definition.dictionaryKey rows with
  | some names, none =>
    let v ← StoreM.lift (Entries.lastOf Definition.dictionaryFileKey names)
    let f ← StoreM.lift (fileOf v)
    let _ ← block.remove Definition.dictionaryFileKey
    block.set Definition.dictionaryKey (.file f)
    return 1
  | _, _ =>
    match Entries.child? Definition.dictionaryKey rows with
    | some sub => inside ((← get).entries sub)
    | none => return 0

/-- Turns the names of dictionary files into references, down to a number of levels. -/
def turnFiles : Nat → Entries Policy → StoreM Nat
  | 0, _ => return 0
  | depth + 1, rows => do
    Include.sumOver (turnBlock (turnFiles depth)) (blocks (← get) rows)

/-- Turns names and includes files until a round turns none. -/
def loadRounds (cfg : Include.Settings) (p : Policy) : Nat → StoreM Nat
  | 0 => throw (.dictionary (.tooDeep cfg.repository maxDepth))
  | rounds + 1 => do
    let turned ← turnFiles ((← get).size + 1) ((← get).entries p)
    let tried ← p.includeFiles cfg
    if turned = 0 then return tried
    return tried + (← loadRounds cfg p rounds)

/-- Loads all files of a dictionary. The answer holds the dictionary as it is afterwards, together
with the number of files tried or with what went wrong. -/
def loadFiles (d : Dictionary) (cfg : Include.Settings) :
    StoreM (Dictionary × Except PolicyError Nat) := fun s =>
  let (p, s) := s.alloc { entries := d.entries }
  match loadRounds cfg p (maxDepth + 1) s with
  | .ok tried s => .ok (⟨s.entries p⟩, .ok tried) s
  | .error e s => .ok (⟨s.entries p⟩, .error e) s

end Dictionary

end PolicyStore
