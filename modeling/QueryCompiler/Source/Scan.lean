import QueryCompiler.Number.Literal
import QueryCompiler.Source.Fault
import QueryCompiler.Source.Token
import QueryCompiler.Text.Block
import QueryCompiler.Text.Literal

/-!
# The tokens of a source

A source is cut into tokens from left to right, each as long as it can be. The scan ends at the end
of the source or at the first octet where no token can be read; what is wrong there is kept, and
matters only to a parser that gets so far.

* `Scan.ignored`: how many octets at the front of a text are between tokens.
* `Scan.readToken`: the token at the front of a text.
* `Scan.scan`: the lexemes of a source, and why the scan has ended.
-/

namespace QueryCompiler

/-- Why a scan has ended. -/
inductive Ending
  /-- At the end of the source. -/
  | finished (location : Location)
  /-- At an octet where no token can be read, for a reason. -/
  | stuck (octet : UInt8) (location : Location) (error : SyntaxError)
  deriving DecidableEq

/-- The result of a scan. -/
structure Scan where
  /-- The lexemes in order. -/
  lexemes : List Lexeme
  /-- Why there are no more of them. -/
  ending : Ending
  deriving DecidableEq

namespace Scan

/-- The byte order mark. -/
def byteOrderMark : Text := [0xEF, 0xBB, 0xBF]

/-- The octet stands between tokens whatever follows it. -/
def isSeparator (c : UInt8) : Bool :=
  Octet.isBlank c || Octet.isLineTerminator c || c == Octet.comma

/-- The number of octets at the front of a text that belong to no token: a separator, a comment
without its line terminator, or a byte order mark. -/
def ignored (c : UInt8) (rest : Text) : Nat :=
  if isSeparator c then 1
  else if c = Octet.hash then 1 + (rest.takeWhile fun d => !Octet.isLineTerminator d).length
  else if byteOrderMark.isPrefixOf (c :: rest) then 3
  else 0

/-- A token and its length, or a fault and the number of octets before it. -/
inductive Reading
  | token (token : Token) (length : Nat)
  | fault (fault : SyntaxFault) (offset : Nat)
  deriving DecidableEq

/-- The fault of a document for a fault of a string literal. -/
def faultOfText : Text.LiteralFault → SyntaxFault
  | .unterminated => .unterminatedString
  | .unknownEscape c => .unknownEscape c
  | .badCodeUnit => .badUnicodeEscape

/-- The fault of a document for a fault of a numeric literal. -/
def faultOfNumber : Number.LiteralFault → SyntaxFault
  | .expectedDigit => .expectedDigit
  | .digitAfterZero => .digitAfterZero

/-- A string, quoted or block, at the front of a text that starts with a quote. -/
def readString (t : Text) : Reading :=
  if Text.blockQuote.isPrefixOf t then
    match Text.readBlock (t.drop 3) with
    | .ok r => .token (.string r.meaning.dedent) (3 + r.length)
    | .error (fault, n) => .fault (faultOfText fault) (3 + n)
  else
    match Text.readQuoted Octet.isLineTerminator (t.drop 1) with
    | .ok r => .token (.string r.meaning) (1 + r.length)
    | .error (fault, n) => .fault (faultOfText fault) (1 + n)

/-- A number at the front of a text. It must not run into a name or a point. -/
def readNumber (t : Text) : Reading :=
  match Number.literalExtent t with
  | .error (fault, n) => .fault (faultOfNumber fault) n
  | .ok extent =>
    if (t.drop extent.length).head?.any fun c => c == Octet.dot || Octet.isNameStart c then
      .fault .badNumber extent.length
    else if extent.isFloat then .token (.float (t.take extent.length)) extent.length
    else .token (.int (t.take extent.length)) extent.length

/-- The mark of a spread. -/
def spreadMark : Text := [Octet.dot, Octet.dot, Octet.dot]

/-- The token at the front of the text `c :: rest`. -/
def readToken (c : UInt8) (rest : Text) : Reading :=
  match Punctuator.ofOctet? c with
  | some p => .token (.punctuator p) 1
  | none =>
    if Octet.isNameStart c then
      let text := c :: rest.takeWhile Octet.isNameContinue
      .token (.name text) text.length
    else if c = Octet.quote then readString (c :: rest)
    else if c = Octet.minus ∨ Octet.isDigit c then readNumber (c :: rest)
    else if spreadMark.isPrefixOf (c :: rest) then .token .spread 3
    else .fault (.unexpectedOctet c) 0

/-- The scan of a text that starts at a place, after lexemes that are given the last one first. -/
def scanFrom (place : Location) (lexemes : List Lexeme) : Text → Scan
  | [] => ⟨lexemes.reverse, .finished place⟩
  | c :: rest =>
    match ignored c rest with
    | n + 1 => scanFrom (place.advance (n + 1) (c :: rest)) lexemes (rest.drop n)
    | 0 =>
      match readToken c rest with
      | .token token n =>
        let stop := place.advance n (c :: rest)
        scanFrom stop (⟨token, place, stop⟩ :: lexemes) (rest.drop (n - 1))
      | .fault fault n =>
        ⟨lexemes.reverse, .stuck c place ⟨fault, place.advance n (c :: rest)⟩⟩
termination_by t => t.length
decreasing_by all_goals simp only [List.length_drop, List.length_cons]; omega

/-- The scan of a source. -/
def scan (source : Text) : Scan := scanFrom {} [] source

/-- The tokens in order. -/
def tokens (s : Scan) : List Token := s.lexemes.map Lexeme.token

/-- The whole source was cut into tokens. -/
def isComplete (s : Scan) : Bool :=
  match s.ending with
  | .finished _ => true
  | .stuck .. => false

end Scan

end QueryCompiler
