import QueryCompiler.Document.Basic
import QueryCompiler.Json.Basic

/-!
# Argument values as JSON

Literals become the JSON values they stand for, enum values their names, and a variable an object
that names it. An integer that 64 bits do not hold becomes a double.
-/

namespace QueryCompiler.Document

/-- A text is none of those that have a value as numbers. -/
inductive RangeError
  /-- It does not start with a number. -/
  | notNumber (text : Text)
  /-- Its number is out of the range of doubles. -/
  | outOfRange (literal : Text)
  deriving DecidableEq

/-- The double that a literal stands for. -/
def doubleOfLiteral (literal : Text) : Except RangeError Json :=
  match Number.Decimal.read? literal with
  | none => .error (.notNumber literal)
  | some d =>
    match Number.Binary64.read? d with
    | some x => .ok (.float x)
    | none => .error (.outOfRange literal)

/-- The number that an integer literal stands for. -/
def numberOfLiteral (literal : Text) : Except RangeError Json :=
  match Number.integer? literal with
  | none => .error (.notNumber literal)
  | some n =>
    if -Number.signedLimit ≤ n ∧ n < Number.signedLimit then .ok (.int n)
    else doubleOfLiteral literal

namespace Value

mutual

/-- The JSON value of an argument value. -/
def toJson : Value → Except RangeError Json
  | .variable name =>
    .ok (.ofMembers [("kind", .string "Variable"), ("variableName", .string name)])
  | .int literal => numberOfLiteral literal
  | .float literal => doubleOfLiteral literal
  | .string text => .ok (.string text)
  | .boolean b => .ok (.bool b)
  | .null => .ok .null
  | .enum name => .ok (.string name)
  | .list values => return .array (← toJsonList values)
  | .object fields => return .ofMembers (← toJsonFields fields)

/-- The JSON values of the items of a list. -/
def toJsonList : List Value → Except RangeError (List Json)
  | [] => .ok []
  | value :: rest => do
    let j ← value.toJson
    return j :: (← toJsonList rest)

/-- The members that the fields of an object become. -/
def toJsonFields : List (Text × Value) → Except RangeError (List (Text × Json))
  | [] => .ok []
  | (name, value) :: rest => do
    let j ← value.toJson
    return (name, j) :: (← toJsonFields rest)

end

end Value

end QueryCompiler.Document
