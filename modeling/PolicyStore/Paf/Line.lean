import PolicyStore.Text.Basic

set_option autoImplicit false

namespace PolicyStore.Paf

/-!
# Lines of input

Input is read line by line. Bytes are decoded a line at a time, so that a line that is not text
fails only when it is reached.
-/

/-- The characters of a line without its terminator; nothing for a line that is not text. -/
abbrev Line := Option (List Char)

def isLineEnd (c : Char) : Bool := c = '\n' || c = '\r'

/-- Takes all line ends off the end of a line, however many there are. -/
def chomp (cs : List Char) : List Char := (cs.reverse.dropWhile isLineEnd).reverse

def linesOfText (text : String) : List Line :=
  (Text.splitAfter (· = '\n') text.toList).map fun cs => some (chomp cs)

def decode (bytes : List UInt8) : Line :=
  (String.fromUTF8? ⟨bytes.toArray⟩).map fun s => chomp s.toList

def linesOfBytes (bytes : ByteArray) : List Line :=
  (Text.splitAfter (· = 10) bytes.toList).map decode

end PolicyStore.Paf
