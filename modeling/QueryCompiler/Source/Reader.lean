import QueryCompiler.Parser
import QueryCompiler.Source.Scan

/-!
# Reading tokens

Parsers on the lexemes of a source. Each of them looks at the next token only, and a failure names
the place of the token where it happened, or the place after a token that was taken.
-/

namespace QueryCompiler

/-- The lexemes that are left, and what ends them. -/
instance : Sized Scan := ⟨fun s => s.lexemes.length⟩

/-- A parser on the lexemes of a source. -/
abbrev Reader (consumes : Bool) (α : Type) := Parser Scan SyntaxError consumes α

namespace Scan

/-- The next token. -/
def next? (s : Scan) : Option Token := s.lexemes.head?.map Lexeme.token

/-- The place of the next token, or where the scan has ended. -/
def here (s : Scan) : Location :=
  match s.lexemes, s.ending with
  | lexeme :: _, _ => lexeme.start
  | [], .finished location => location
  | [], .stuck _ location _ => location

/-- The octet at that place; none at the end of the source. -/
def octet? (s : Scan) : Option UInt8 :=
  match s.lexemes, s.ending with
  | lexeme :: _, _ => some lexeme.token.first
  | [], .finished _ => none
  | [], .stuck octet _ _ => some octet

/-- Nothing is left of the source. -/
def atEnd (s : Scan) : Bool :=
  match s.lexemes, s.ending with
  | [], .finished _ => true
  | _, _ => false

/-- The next token is the punctuator. -/
def startsWith (p : Punctuator) (s : Scan) : Bool := s.next? == some (.punctuator p)

/-- The next token is the name. -/
def startsWithName (name : Text) (s : Scan) : Bool := s.next? == some (.name name)

/-- A fault at the next token. -/
def errorHere (fault : SyntaxFault) (s : Scan) : SyntaxError := ⟨fault, s.here⟩

/-- The error of a scan that goes on with nothing that may stand there. -/
def unexpected (s : Scan) : SyntaxError :=
  match s.octet? with
  | none => s.errorHere .unexpectedEnd
  | some c => s.errorHere (.unexpectedOctet c)

/-- The error of a scan that goes on with no value: a token that could not be read says why. -/
def unexpectedValue (s : Scan) : SyntaxError :=
  match s.lexemes, s.ending with
  | [], .stuck _ _ error => error
  | _, _ => s.unexpected

end Scan

namespace Reader

variable {b : Bool} {α : Type}

/-- Fails at the next token. -/
def fail (fault : SyntaxFault) : Reader b α := Parser.failWith fun s => s.errorHere fault

/-- Fails at a place. -/
def failAt (location : Location) (fault : SyntaxFault) : Reader b α :=
  Parser.failWith fun _ => ⟨fault, location⟩

/-- The next token. -/
def next? : Reader false (Option Token) := Parser.look Scan.next?

/-- The place of the next token. -/
def here : Reader false Location := Parser.look Scan.here

/-- Takes the next token if a function has a value for it. -/
def token (accept : Token → Option α) (otherwise : Scan → SyntaxError) :
    Reader true (α × Lexeme) where
  run s := match s.lexemes with
    | [] => .error (otherwise s)
    | lexeme :: rest =>
      match accept lexeme.token with
      | some a => .ok ((a, lexeme), { s with lexemes := rest })
      | none => .error (otherwise s)
  size_le {s a r} h := by
    split at h
    · cases h
    · rename_i hs
      split at h
      · cases h
        simp [Sized.size, hs]
      · cases h

/-- Takes a punctuator. -/
def punctuator (p : Punctuator) : Reader true Lexeme :=
  (token (fun t => if t = .punctuator p then some () else none)
    fun s => s.errorHere (.expectedOctet p.octet s.octet?)).map Prod.snd

/-- Takes a punctuator if it comes next, and says whether it did. -/
def optional (p : Punctuator) : Reader false Bool :=
  Parser.bind (b := false) (c := false) (Parser.look (Scan.startsWith p)) fun found =>
    if found then ((punctuator p).map fun _ => true).relax else Parser.pure false

/-- The text of a name. -/
def nameText? : Token → Option Text
  | .name text => some text
  | _ => none

/-- Takes a name and gives it with its place. -/
def nameLexeme : Reader true (Text × Lexeme) :=
  token nameText? fun s => s.errorHere (.expectedName s.octet?)

/-- Takes a name. -/
def name : Reader true Text := nameLexeme.map Prod.fst

/-- Takes a certain name. -/
def keyword (k : Text) : Reader true Unit :=
  (token (fun t => if t = .name k then some () else none)
    fun s => s.errorHere (.expectedKeyword k)).map fun _ => ()

/-- The items up to a punctuator, which is taken. -/
def manyUntil (close : Punctuator) (item : Reader true α) : Reader true (List α) :=
  Parser.bind (b := false) (c := true) (Parser.whileM (fun s => !s.startsWith close) item)
    fun items => (punctuator close).map fun _ => items

/-- One item or more up to a punctuator, which is taken. -/
def someUntil (close : Punctuator) (item : Reader true α) : Reader true (List α) :=
  item.bind fun first => (manyUntil close item).map (first :: ·)

/-- One item or more, with a punctuator between any two. -/
def separatedBy (separator : Punctuator) (item : Reader true α) : Reader true (List α) :=
  item.bind fun first =>
    (Parser.whileM (Scan.startsWith separator) ((punctuator separator).bind fun _ => item)).map
      (first :: ·)

end Reader

end QueryCompiler
