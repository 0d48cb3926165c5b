import QueryCompiler.Source.Location

/-!
# Faults of a source

What can be wrong with the text of a document or of a schema, and how it is said.
-/

namespace QueryCompiler

/-- What is wrong with a source. -/
inductive SyntaxFault
  /-- The source ends where a definition or a value should start. -/
  | unexpectedEnd
  /-- Nothing that may stand here starts with this octet. -/
  | unexpectedOctet (octet : UInt8)
  /-- No definition starts with this name. -/
  | unexpectedName (name : Text)
  /-- Another octet was expected than the one found, or than the end. -/
  | expectedOctet (octet : UInt8) (found : Option UInt8)
  /-- A name was expected. -/
  | expectedName (found : Option UInt8)
  /-- A certain name was expected. -/
  | expectedKeyword (keyword : Text)
  /-- A string literal does not end. -/
  | unterminatedString
  /-- A string literal holds an unknown escape. -/
  | unknownEscape (octet : UInt8)
  /-- A string literal holds a Unicode escape that is none. -/
  | badUnicodeEscape
  /-- A number has no digit where one must stand. -/
  | expectedDigit
  /-- A number starts with a zero that is not alone. -/
  | digitAfterZero
  /-- A number runs into a name or a point. -/
  | badNumber
  /-- A variable stands in a constant value. -/
  | variableInConstant
  /-- More constructs are nested than the limit allows. -/
  | nestingExceeded (limit : Nat)
  /-- A type extension, which schemas here do not have. -/
  | typeExtension
  /-- A schema definition names an operation that is none. -/
  | unexpectedOperationType (name : Text)
  /-- An enum value has a name that stands for another value. -/
  | reservedEnumValue (name : Text)
  deriving DecidableEq

/-- A fault and its place. -/
structure SyntaxError where
  /-- What is wrong. -/
  fault : SyntaxFault
  /-- Where. -/
  location : Location
  deriving DecidableEq

namespace SyntaxFault

/-- How an octet that was found is named. -/
def foundText : Option UInt8 → Text
  | none => "<EOF>"
  | some c => "'" ++ [c] ++ "'"

/-- The wording of a fault. -/
def message : SyntaxFault → Text
  | .unexpectedEnd => "Unexpected <EOF>"
  | .unexpectedOctet c => "Unexpected character '" ++ [c] ++ "'"
  | .unexpectedName name => "Unexpected Name \"" ++ name ++ "\""
  | .expectedOctet c found => "Expected '" ++ [c] ++ "', found " ++ foundText found
  | .expectedName found => "Expected Name, found " ++ foundText found
  | .expectedKeyword keyword => "Expected \"" ++ keyword ++ "\""
  | .unterminatedString => "Unterminated string"
  | .unknownEscape c => "Invalid character escape sequence: \\" ++ [c]
  | .badUnicodeEscape => "Invalid Unicode escape sequence"
  | .expectedDigit => "Invalid number, expected digit"
  | .digitAfterZero => "Invalid number, unexpected digit after 0"
  | .badNumber => "Invalid number"
  | .variableInConstant => "Unexpected variable in constant value"
  | .nestingExceeded limit => "Nesting exceeds " ++ Text.ofNat limit ++ " levels"
  | .typeExtension => "Type extensions are not supported"
  | .unexpectedOperationType name => "Unexpected operation type \"" ++ name ++ "\""
  | .reservedEnumValue name =>
    "Name \"" ++ name ++ "\" is reserved and cannot be used for an enum value"

end SyntaxFault

/-- The wording of an error, which ends with its place. -/
def SyntaxError.message (e : SyntaxError) : Text :=
  "Syntax Error: " ++ e.fault.message ++ e.location.text

end QueryCompiler
