import PolicyStore.Report

set_option autoImplicit false

namespace PolicyStore.Json

/-!
# Reports as JSON

A report is written as an object of names with the numbers of their codes.
-/

def hexDigit (n : Nat) : Char := Char.ofNat (if n < 10 then 0x30 + n else 0x57 + n)

/-- A control character by its short form, if it has one, or else by its number in hexadecimal. -/
def escapeControl (c : Char) : List Char :=
  match c with
  | '\n' => ['\\', 'n']
  | '\t' => ['\\', 't']
  | '\r' => ['\\', 'r']
  | '\x08' => ['\\', 'b']
  | '\x0c' => ['\\', 'f']
  | c => ['\\', 'u', '0', '0', hexDigit (c.toNat / 16), hexDigit (c.toNat % 16)]

def escapeChar (c : Char) : List Char :=
  if c = '"' ∨ c = '\\' then ['\\', c]
  else if c.toNat < 0x20 then escapeControl c
  else [c]

def quote (s : String) : String := String.ofList ('"' :: s.toList.flatMap escapeChar ++ ['"'])

def member (gap : String) (row : String × Code) : String :=
  quote row.1 ++ ":" ++ gap ++ toString row.2.bits.toNat

/-- The object without any blanks. -/
def compact (r : Report) : String :=
  "\x7b" ++ ",".intercalate (r.rows.map (member "")) ++ "\x7d"

/-- The object with one member on a line. -/
def pretty (r : Report) : String :=
  if r.rows.isEmpty then "\x7b\x7d"
  else "\x7b\n" ++ ",\n".intercalate (r.rows.map fun row => "  " ++ member " " row) ++ "\n\x7d"

end PolicyStore.Json
