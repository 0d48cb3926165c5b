import QueryCompiler.Source.Location

/-!
# Tokens

The tokens of documents and schemas: punctuators, the spread mark, names, numbers, and strings,
which are told apart by their value and not by how they were quoted. Blanks, line terminators,
commas, comments and byte order marks stand between tokens and are none.
-/

namespace QueryCompiler

/-- A punctuator of one octet. -/
inductive Punctuator
  | bang
  | dollar
  | ampersand
  | openParen
  | closeParen
  | colon
  | equals
  | at
  | openBracket
  | closeBracket
  | openBrace
  | bar
  | closeBrace
  deriving DecidableEq

namespace Punctuator

/-- The octet of a punctuator. -/
def octet : Punctuator → UInt8
  | .bang => 0x21
  | .dollar => 0x24
  | .ampersand => 0x26
  | .openParen => 0x28
  | .closeParen => 0x29
  | .colon => 0x3A
  | .equals => 0x3D
  | .at => 0x40
  | .openBracket => 0x5B
  | .closeBracket => 0x5D
  | .openBrace => 0x7B
  | .bar => 0x7C
  | .closeBrace => 0x7D

/-- All punctuators. -/
def all : List Punctuator :=
  [.bang, .dollar, .ampersand, .openParen, .closeParen, .colon, .equals, .at, .openBracket,
   .closeBracket, .openBrace, .bar, .closeBrace]

/-- The punctuator of an octet. -/
def ofOctet? (c : UInt8) : Option Punctuator := all.find? fun p => p.octet == c

theorem ofOctet?_octet (p : Punctuator) : ofOctet? p.octet = some p := by cases p <;> rfl

theorem octet_of_ofOctet? {c : UInt8} {p : Punctuator} (h : ofOctet? c = some p) : p.octet = c := by
  simpa using List.find?_some h

end Punctuator

/-- A token. -/
inductive Token
  | punctuator (p : Punctuator)
  | spread
  | name (text : Text)
  | int (literal : Text)
  | float (literal : Text)
  | string (value : Text)
  deriving DecidableEq

/-- The octet that a token starts with. -/
def Token.first : Token → UInt8
  | .punctuator p => p.octet
  | .spread => Octet.dot
  | .name text => text.headD 0
  | .int literal => literal.headD 0
  | .float literal => literal.headD 0
  | .string _ => Octet.quote

/-- A token and its place in the source. -/
structure Lexeme where
  /-- The token. -/
  token : Token
  /-- The place of its first octet. -/
  start : Location
  /-- The place after its last octet. -/
  stop : Location
  deriving DecidableEq

end QueryCompiler
