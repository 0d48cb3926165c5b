import QueryCompiler.Json.Basic
import QueryCompiler.Number.Literal
import QueryCompiler.Parser
import QueryCompiler.Text.Literal

/-!
# Reading JSON text

`Json.parse?` accepts the JSON grammar: one value, with blanks around any token. Strings must be
well-formed UTF-8 without raw control characters and without lone surrogates. A number without
fraction and exponent is an integer if it fits 64 bits, signed or unsigned, and a double otherwise;
a number that rounds to infinity is refused.
-/

namespace QueryCompiler.Json

instance : Sized Text := ⟨List.length⟩

/-- A parser on octets that does not say why it fails. -/
abbrev Reader (consumes : Bool) (α : Type) := Parser Text Unit consumes α

namespace Reader

/-- Fails. -/
def fail {b : Bool} {α : Type} : Reader b α := Parser.failWith fun _ => ()

/-- Takes one octet of a class. -/
def octet (allowed : UInt8 → Bool) : Reader true UInt8 where
  run
    | [] => .error ()
    | c :: rest => if allowed c then .ok (c, rest) else .error ()
  size_le {s a r} h := by
    cases s with
    | nil => cases h
    | cons c rest =>
      dsimp only at h
      split at h
      · cases h; simp [Sized.size]
      · cases h

/-- Takes a number of octets. -/
def skip (n : Nat) : Reader false Unit where
  run s := .ok ((), s.drop n)
  size_le h := by cases h; simp [Sized.size]

/-- A space, a tab or a line terminator. -/
def isBlank (c : UInt8) : Bool := Octet.isBlank c || Octet.isLineTerminator c

/-- The input starts with an octet of a class. -/
def startsWith (allowed : UInt8 → Bool) (s : Text) : Bool := s.head?.any allowed

/-- Takes the blanks at the front. -/
def blanks : Reader false Unit :=
  (Parser.whileM (startsWith isBlank) (octet isBlank)).map fun _ => ()

/-- Takes an octet and the blanks after it. -/
def symbol (c : UInt8) : Reader true Unit := (octet (· == c)).bind fun _ => blanks

/-- Takes a word whose first octet has been taken, and gives a value. -/
def word (rest : Text) (value : Json) : Reader false Json :=
  (Parser.look rest.isPrefixOf).bind fun found =>
    if found then (skip rest.length).map fun _ => value else fail

/-- The value of a numeric literal. -/
def numberValue? (literal : Text) (isFloat : Bool) : Option Json := do
  let n ← Number.integer? literal
  if !isFloat && -Number.signedLimit ≤ n && n < Number.unsignedLimit then return .int n
  let x ← Number.Binary64.nearest? (← Number.Decimal.read? literal)
  return .float x

/-- A number whose first octet has been taken. -/
def numberAfter (first : UInt8) : Reader false Json :=
  (Parser.look fun s => (Number.literalExtent (first :: s), s)).bind fun
    | (.error _, _) => fail
    | (.ok extent, s) =>
      match numberValue? ((first :: s).take extent.length) extent.isFloat with
      | none => fail
      | some value => (skip (extent.length - 1)).map fun _ => value

/-- A control character, which no string holds unescaped. -/
def isControl (c : UInt8) : Bool := c < 0x20

/-- A string whose opening quote has been taken. -/
def stringAfter : Reader false Text :=
  (Parser.look (Text.readQuoted isControl)).bind fun
    | .error _ => fail
    | .ok r => if Utf8.wellFormed r.meaning then (skip r.length).map fun _ => r.meaning else fail

/-- The items up to a closing octet, separated by commas. -/
def items {α : Type} (close : UInt8) (item : Reader true α) : Reader true (List α) :=
  Parser.bind (b := false) (c := true) (Parser.look (startsWith (· == close))) fun empty =>
    if empty then (symbol close).map fun _ => []
    else item.bind fun first =>
      (Parser.whileM (startsWith (· == Octet.comma))
        ((symbol Octet.comma).bind fun _ => item)).bind fun more =>
      (symbol close).map fun _ => first :: more

/-- A value and the blanks after it, with at most `levels` nested arrays and objects. -/
def value : (levels : Nat) → Reader true Json
  | 0 => fail
  | levels + 1 =>
    (octet fun _ => true).bind fun first =>
    Parser.bind (b := false) (c := false)
      (if first = 0x5B then
        blanks.bind fun _ => ((items 0x5D (value levels)).map .array).relax
      else if first = 0x7B then
        blanks.bind fun _ => ((items 0x7D (member (value levels))).map ofMembers).relax
      else if first = Octet.quote then stringAfter.map .string
      else if first = 0x6E then word "ull" .null
      else if first = 0x74 then word "rue" (.bool true)
      else if first = 0x66 then word "alse" (.bool false)
      else numberAfter first) fun v =>
    blanks.map fun _ => v
where
  /-- A key, a colon and a value. -/
  member (value : Reader true Json) : Reader true (Text × Json) :=
    (octet (· == Octet.quote)).bind fun _ => stringAfter.bind fun key => blanks.bind fun _ =>
      (symbol Octet.colon).bind fun _ => value.map fun v => (key, v)

end Reader

/-- The value that a JSON text stands for; nothing if the text is not JSON. -/
def parse? (t : Text) : Option Json :=
  match (Reader.blanks.bind fun _ => Reader.value (t.length + 1)).run t with
  | .ok (value, []) => some value
  | _ => none

end QueryCompiler.Json
