/-!
JSON values, with the members of an object in the order of the text and repeated names kept, and the
ways in which a text can fail to be the JSON that is asked for.
-/

namespace SharedBoard

inductive Json where
  | null
  | bool (b : Bool)
  /-- A whole number of 64 bits, signed or not, written without fraction and exponent. -/
  | int (i : Int)
  /-- Any other number: a significand times a power of ten. -/
  | real (isNegative : Bool) (significand : Nat) (exponent : Int)
  | str (s : String)
  | arr (elements : List Json)
  | obj (members : List (String × Json))
  deriving Inhabited

namespace Json

/-- Why well-formed JSON does not fit what is asked for. -/
inductive Misfit where
  | missingField (name : String)
  | duplicateField (name : String)
  | unknownVariant (found : String) (expected : List String)
  | invalidType
  | invalidValue
  | invalidLength
  | invalidUuid
  deriving DecidableEq

inductive Fault where
  | truncated
  /-- The text is no JSON, or more than one value. -/
  | malformed
  | misfit (m : Misfit)
  deriving DecidableEq

private def quoted (name : String) : String := "`" ++ name ++ "`"

/-- What was expected: one of two alternatives, or one of a longer list. -/
def Misfit.expectation : List String → String
  | [a, b] => quoted a ++ " or " ++ quoted b
  | names => "one of " ++ ", ".intercalate (names.map quoted)

def Misfit.message : Misfit → String
  | missingField name => "missing field " ++ quoted name
  | duplicateField name => "duplicate field " ++ quoted name
  | unknownVariant found expected =>
    "unknown variant " ++ quoted found ++ ", expected " ++ expectation expected
  | invalidType => "invalid type"
  | invalidValue => "invalid value"
  | invalidLength => "invalid length"
  | invalidUuid => "UUID parsing failed"

def Fault.message : Fault → String
  | truncated => "the text ends too early"
  | malformed => "malformed JSON"
  | misfit m => m.message

end Json

end SharedBoard
