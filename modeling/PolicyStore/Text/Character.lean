import PolicyStore.Text.Alphabetic
import PolicyStore.Text.Mark
import PolicyStore.Text.Numeric
import PolicyStore.Text.Recent

set_option autoImplicit false

namespace PolicyStore.Text

/-!
# Character classes

Blanks, digits, word characters and the characters of a stored name. Each class is the Unicode
one; within ASCII it is a test of `Char`, so that reasoning about ASCII text never meets a table.
The class of stored names follows Unicode 17 and all others Unicode 16, so that some new letters may
be stored but not written.
-/

/-- A character is in a table when one of its ranges holds its code point. -/
def inRanges (table : List (Nat × Nat)) (c : Char) : Bool :=
  table.any fun range => range.1 ≤ c.toNat && c.toNat ≤ range.2

def isAscii (c : Char) : Bool := c.toNat < 0x80

/-- The property White_Space. -/
def isBlank (c : Char) : Bool :=
  let n := c.toNat
  n = 0x20 || (0x9 ≤ n && n ≤ 0xD) || n = 0x85 || n = 0xA0 || n = 0x1680 ||
    (0x2000 ≤ n && n ≤ 0x200A) || n = 0x2028 || n = 0x2029 || n = 0x202F || n = 0x205F || n = 0x3000

/-- The general category Nd. -/
def isDecimalDigit (c : Char) : Bool :=
  if isAscii c then c.isDigit else inRanges decimalDigitRanges c

/-- The property Alphabetic. -/
def isAlphabetic (c : Char) : Bool :=
  if isAscii c then c.isAlpha else inRanges alphabeticRanges c

/-- The general category Pc. -/
def isConnector (c : Char) : Bool :=
  let n := c.toNat
  n = 0x5F || n = 0x203F || n = 0x2040 || n = 0x2054 || n = 0xFE33 || n = 0xFE34 ||
    (0xFE4D ≤ n && n ≤ 0xFE4F) || n = 0xFF3F

/-- Zero-width joiner and non-joiner, which have the property Join_Control. -/
def isJoiner (c : Char) : Bool := c.toNat = 0x200C || c.toNat = 0x200D

/-- The characters a name may be written with: letters, marks, digits, connectors and joiners. -/
def isWordChar (c : Char) : Bool :=
  if isAscii c then c.isAlphanum || c = '_'
  else inRanges alphabeticRanges c || inRanges markRanges c || inRanges decimalDigitRanges c ||
    isConnector c || isJoiner c

/-- The characters a name may be stored with: letters, numbers of every kind, and the underscore.
A combining mark may be written but not stored, a superscript two the other way round. -/
def isNameChar (c : Char) : Bool :=
  if isAscii c then c.isAlphanum || c = '_'
  else inRanges alphabeticRanges c || inRanges decimalDigitRanges c ||
    inRanges otherNumberRanges c || inRanges recentRanges c

end PolicyStore.Text
