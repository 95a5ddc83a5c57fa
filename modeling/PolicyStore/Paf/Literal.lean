import PolicyStore.Text.Numeral
import PolicyStore.Error

set_option autoImplicit false

namespace PolicyStore.Paf

/-!
# Scalar literals

Truth values and numbers stand without quotes, several of one kind on a line. The form of a token
decides its kind; a token of the right form may still denote no value.
-/

inductive ScalarKind where
  | int
  | double
  | bool
  deriving DecidableEq, Repr

namespace ScalarKind

def label : ScalarKind → String
  | int => "int"
  | double => "double"
  | bool => "bool"

/-- The kind that a token has the form of. -/
def ofToken? (token : List Char) : Option ScalarKind :=
  if token = "true".toList ∨ token = "false".toList then some bool
  else (Text.Numeral.read? token).map fun n => if n.isInteger then int else double

end ScalarKind

/-- What is wrong with a value, wherever it stands. -/
structure Complaint where
  kind : ParseErrorKind
  text : String
  deriving DecidableEq, Repr

def Complaint.atLine (c : Complaint) (n : Nat) : ParseError := ⟨c.kind, c.text, some n, none⟩

/-- An integer as a value, if 32 bits hold it. -/
def int32? (i : Int) : Option Int32 :=
  if -0x80000000 ≤ i ∧ i < 0x80000000 then some (Int32.ofInt i) else none

/-- The value of a token where values of a given kind are expected. -/
def scalar (expected : ScalarKind) (token : List Char) : Except Complaint Literal :=
  let text := String.ofList token
  if ScalarKind.ofToken? token ≠ some expected then
    .error ⟨.formatSyntax, "expected " ++ expected.label ++ " value, found: " ++ text⟩
  else
    match expected with
    | .bool => .ok (.bool (token = "true".toList))
    | .double =>
      match (Text.Numeral.read? token).bind Text.Numeral.toFloat? with
      | some d => .ok (.double d)
      | none => .error ⟨.formatSyntax, "malformed double value: " ++ text⟩
    | .int =>
      match ((Text.Numeral.read? token).bind Text.Numeral.toInt?).bind int32? with
      | some i => .ok (.int i)
      | none => .error ⟨.unsupported, "integer value " ++ text ++ " does not fit in 32 bits"⟩

end PolicyStore.Paf
