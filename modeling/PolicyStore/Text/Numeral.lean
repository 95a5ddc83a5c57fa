import PolicyStore.Text.Basic

set_option autoImplicit false

namespace PolicyStore.Text

/-!
# Decimal numerals

A numeral is an optional sign, digits with at most one point among or around them, and an optional
exponent. Digits of every script have the form of a numeral; only ASCII digits have a value.
-/

structure Numeral where
  negative : Bool
  whole : List Char
  point : Bool
  fraction : List Char
  /-- Sign and digits of the exponent. -/
  exponent : Option (Bool × List Char)
  deriving Repr, DecidableEq

namespace Numeral

/-- Takes an optional sign off; the flag tells a minus. -/
def takeSign : List Char → Bool × List Char
  | '-' :: cs => (true, cs)
  | '+' :: cs => (false, cs)
  | cs => (false, cs)

/-- A run of one or more digits up to the end of the text. -/
def onlyDigits? (cs : List Char) : Option (List Char) :=
  if cs ≠ [] ∧ cs.all isDecimalDigit then some cs else none

/-- The exponent, or its absence at the end of the text. -/
def readExponent? : List Char → Option (Option (Bool × List Char))
  | [] => some none
  | c :: cs =>
    if c = 'e' ∨ c = 'E' then
      let (negative, digits) := takeSign cs
      (onlyDigits? digits).map fun ds => some (negative, ds)
    else none

def read? (text : List Char) : Option Numeral :=
  let (negative, cs) := takeSign text
  let whole := cs.takeWhile isDecimalDigit
  match cs.dropWhile isDecimalDigit with
  | '.' :: rest =>
    let fraction := rest.takeWhile isDecimalDigit
    if whole = [] ∧ fraction = [] then none
    else (readExponent? (rest.dropWhile isDecimalDigit)).map (⟨negative, whole, true, fraction, ·⟩)
  | rest =>
    if whole = [] then none
    else (readExponent? rest).map (⟨negative, whole, false, [], ·⟩)

/-- A numeral with neither point nor exponent denotes an integer. -/
def isInteger (n : Numeral) : Bool := !n.point && n.exponent.isNone

/-- The number that a row of ASCII digits denotes, and nothing for digits of another script. -/
def digitsValue? (ds : List Char) : Option Nat :=
  ds.foldl (fun acc c => do
    let n ← acc
    if c.isDigit then some (10 * n + (c.toNat - 0x30)) else none) (some 0)

def signed (negative : Bool) (n : Nat) : Int := if negative then -(n : Int) else n

def toInt? (n : Numeral) : Option Int :=
  (digitsValue? n.whole).map (signed n.negative)

/-- The double nearest to the number that the numeral denotes. -/
def toFloat? (n : Numeral) : Option Float := do
  let digits ← digitsValue? (n.whole ++ n.fraction)
  let exponent ← match n.exponent with
    | none => some 0
    | some (negative, ds) => (digitsValue? ds).map (signed negative)
  let scale := exponent - n.fraction.length
  let magnitude := Float.ofScientific digits (scale < 0) scale.natAbs
  some (if n.negative then -magnitude else magnitude)

end Numeral

end PolicyStore.Text
