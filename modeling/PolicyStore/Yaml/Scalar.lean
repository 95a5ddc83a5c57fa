import PolicyStore.Text.Numeral

set_option autoImplicit false

namespace PolicyStore.Yaml

/-!
# Scalars

A scalar is a text together with the style it is written in and its tag. A plain text without a tag
may stand for something else: for nothing, for a truth value, or for a number.
-/

inductive Style where
  | plain
  | quoted
  | literal
  | folded
  deriving DecidableEq, Repr

structure Scalar where
  style : Style
  text : String
  tag : Option String := none
  deriving DecidableEq, Repr

def nullTag : String := "tag:yaml.org,2002:null"

def boolTag : String := "tag:yaml.org,2002:bool"

def nullWords : List String := ["~", "null", "Null", "NULL"]

def trueWords : List String := ["true", "True", "TRUE"]

def falseWords : List String := ["false", "False", "FALSE"]

def truthOf? (text : String) : Option Bool :=
  if text ∈ trueWords then some true else if text ∈ falseWords then some false else none

namespace Scalar

/-- A scalar as a text that may be missing. Only plain scalars stand for nothing: the empty one and
the words for it, and with a tag that claims it nothing but those words. -/
def optionalText? (s : Scalar) : Option (Option String) :=
  if s.style ≠ .plain then some (some s.text)
  else if s.tag = some nullTag then if s.text ∈ nullWords then some none else none
  else if s.tag = none ∧ (s.text = "" ∨ s.text ∈ nullWords) then some none
  else some (some s.text)

/-- A scalar as a truth value, which is written plain or as a literal with the tag for it. -/
def truth? (s : Scalar) : Option Bool :=
  if s.style = .plain ∨ (s.style = .literal ∧ s.tag = some boolTag) then truthOf? s.text else none

end Scalar

/-! ## Numbers -/

def hexValue? (c : Char) : Option Nat :=
  if c.isDigit then some (c.toNat - 0x30)
  else if 'a' ≤ c ∧ c ≤ 'f' then some (c.toNat - 0x57)
  else if 'A' ≤ c ∧ c ≤ 'F' then some (c.toNat - 0x37)
  else none

/-- The number with the given digits. -/
def digitsValue? (base : Nat) (digits : List Char) : Option Nat :=
  if digits.isEmpty then none
  else digits.foldlM (fun n c => do
    let digit ← hexValue? c
    if digit < base then some (base * n + digit) else none) 0

/-- Integers have at most 128 bits, one of them for the sign of a negative one. -/
def isInteger (negative : Bool) (n : Nat) : Bool :=
  if negative then n ≤ 0x80000000000000000000000000000000
  else n < 0x100000000000000000000000000000000

/-- An integer in hexadecimal, octal or binary. -/
def isRadixInteger (cs : List Char) : Bool :=
  let (negative, body) := Text.Numeral.takeSign cs
  match body with
  | '0' :: 'x' :: digits => (digitsValue? 16 digits).any (isInteger negative)
  | '0' :: 'o' :: digits => (digitsValue? 8 digits).any (isInteger negative)
  | '0' :: 'b' :: digits => (digitsValue? 2 digits).any (isInteger negative)
  | _ => false

/-- A row of two or more digits with a leading zero; it is a text, but readers disagree about it. -/
def isZeroLed (cs : List Char) : Bool :=
  match (Text.Numeral.takeSign cs).2 with
  | '0' :: c :: digits => (c :: digits).all Char.isDigit
  | _ => false

def specialNumbers : List String :=
  [".inf", ".Inf", ".INF", "+.inf", "+.Inf", "+.INF", "-.inf", "-.Inf", "-.INF",
   ".nan", ".NaN", ".NAN"]

/-- A decimal number within the range of doubles. -/
def isDecimal (cs : List Char) : Bool :=
  ((Text.Numeral.read? cs).bind Text.Numeral.toFloat?).any (·.isFinite)

/-- Whether a plain scalar with this text stands for something other than the text. -/
def isAmbiguous (text : String) : Bool :=
  text = "" || text ∈ nullWords || (truthOf? text).isSome || text ∈ specialNumbers ||
    isRadixInteger text.toList || isZeroLed text.toList || isDecimal text.toList

end PolicyStore.Yaml
