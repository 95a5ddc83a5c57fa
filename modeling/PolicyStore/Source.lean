import PolicyStore.Format

set_option autoImplicit false

namespace PolicyStore

/-!
# Where policies are read from

Texts and files. A file system answers the bytes under a path; how it finds them is its own affair.
-/

structure FileSystem where
  read : String → Except FileFault ByteArray
  /-- One path for all the paths of a file. -/
  canonical : String → String

namespace FileSystem

def readText (fs : FileSystem) (path : String) : Except FileFault String := do
  match String.fromUTF8? (← fs.read path) with
  | some text => .ok text
  | none => .error .notText

end FileSystem

namespace StoreM

/-- Rewords the failure of an operation. -/
def mapError {α : Type} (f : PolicyError → PolicyError) (action : StoreM α) : StoreM α := fun s =>
  match action s with
  | .ok a s => .ok a s
  | .error e s => .error (f e) s

end StoreM

namespace Policy

/-- Reads a text into the policy and answers how many parameters it held. -/
def loadText (p : Policy) (strict : Bool) (text : String) : StoreM Nat := do
  (← StoreM.lift (formatOf text)).parse strict p text

def ofText (strict : Bool) (text : String) : StoreM Policy := do
  let p ← create []
  let _ ← p.loadText strict text
  return p

/-- Reads bytes that have to be text. -/
def ofBytes (strict : Bool) (bytes : ByteArray) : StoreM Policy := do
  match String.fromUTF8? bytes with
  | some text => ofText strict text
  | none => throw (.unreadable none .notText)

end Policy

namespace FileRef

/-- The path and the text of a file that is not part of another policy. -/
def readAlone (f : FileRef) (fs : FileSystem) : Except PolicyError (String × String) :=
  let path := f.resolve ""
  match fs.readText path with
  | .ok text => .ok (path, text)
  | .error fault => .error (.unreadable (some path) fault)

def format (f : FileRef) (fs : FileSystem) : Except PolicyError Format := do
  let (path, text) ← f.readAlone fs
  (formatOf text).mapError (PolicyError.withOrigin path)

end FileRef

namespace Policy

/-- Reads a file into the policy; a fault in it is told together with its path. -/
def loadFile (p : Policy) (fs : FileSystem) (strict : Bool) (f : FileRef) : StoreM Nat := do
  let (path, text) ← StoreM.lift (f.readAlone fs)
  StoreM.mapError (PolicyError.withOrigin path) (p.loadText strict text)

def ofFile (fs : FileSystem) (strict : Bool) (f : FileRef) : StoreM Policy := do
  let p ← create []
  let _ ← p.loadFile fs strict f
  return p

end Policy

end PolicyStore
