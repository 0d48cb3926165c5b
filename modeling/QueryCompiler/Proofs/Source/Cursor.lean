import QueryCompiler.Parser
import QueryCompiler.Source.Scan

/-!
# Reading a source octet by octet

A source is also read without being cut into tokens first: a cursor stands at an offset, looks at the
octets that follow, and is moved over what it has recognized. All moves but `advance` are made without
looking for the end of the source. So a move that would pass the end is a failure of its own,
`Halt.overrun`; every other failure is a fault of the source at the cursor. No cursor stands behind the
end, so that a comparison with the octets at a cursor always starts inside the source.

* `OctetReader.move`, `take`, `advance`: the moves.
* `OctetReader.skipIgnored`: everything up to the next token.
* `OctetReader.name`, `string`, `number`: the tokens that are longer than their mark.

Whole documents are read in this way in `QueryCompiler.Proofs.Document.Octets`.
-/

namespace QueryCompiler

/-- An offset of a source. -/
@[ext]
structure Cursor (source : Text) where
  /-- The number of octets in front of it. -/
  offset : Nat
  /-- It is not behind the end. -/
  offset_le : offset ≤ source.length

/-- Why reading stops. -/
inductive Halt (source : Text)
  /-- The source is at fault, at a cursor. -/
  | fault (fault : SyntaxFault) (c : Cursor source)
  /-- The cursor was to be moved past the end. -/
  | overrun

namespace Cursor

variable {source : Text}

/-- The start of a source. -/
def start (source : Text) : Cursor source := ⟨0, Nat.zero_le _⟩

/-- What is left of the source. -/
def rest (c : Cursor source) : Text := source.drop c.offset

/-- The place of the cursor. -/
def place (c : Cursor source) : Location := Location.ofOffset source c.offset

/-- Nothing is left of the source. -/
def atEnd (c : Cursor source) : Bool := c.offset == source.length

/-- The octet at the cursor; none at the end. -/
def octet? (c : Cursor source) : Option UInt8 := c.rest.head?

/-- The octet so many octets after the cursor, zero from the end on. -/
def peek (c : Cursor source) (ahead : Nat) : UInt8 := c.rest[ahead]?.getD 0

/-- The octets at the cursor, up to the end at most, are those of the text. -/
def startsWith (t : Text) (c : Cursor source) : Bool := c.rest.take t.length == t

/-- The three octets at the cursor are quotes. -/
def quotesAt (c : Cursor source) (ahead : Nat) : Bool :=
  c.peek ahead == Octet.quote && c.peek (ahead + 1) == Octet.quote &&
    c.peek (ahead + 2) == Octet.quote

/-- The octet at the cursor is of a class. -/
def isIn (isIn : UInt8 → Bool) (c : Cursor source) : Bool := !c.atEnd && isIn (c.peek 0)

theorem length_rest (c : Cursor source) : c.rest.length = source.length - c.offset :=
  List.length_drop

instance : Sized (Cursor source) := ⟨fun c => c.rest.length⟩

end Cursor

namespace Parser

variable {σ ε : Type} [Sized σ] {α : Type}

/-- The rounds of a repetition that is asked before each whether it ends. -/
def untilFrom (stop : Parser σ ε false Bool) (item : Parser σ ε true α) (s : σ) :
    Except ε (List α × σ) :=
  match _hs : stop.run s with
  | .error e => .error e
  | .ok (true, r) => .ok ([], r)
  | .ok (false, r) =>
    match _hi : item.run r with
    | .error e => .error e
    | .ok (a, r') =>
      match untilFrom stop item r' with
      | .error e => .error e
      | .ok (as, s') => .ok (a :: as, s')
termination_by Sized.size s
decreasing_by
  have := stop.size_le ‹_›
  have := item.size_le ‹_›
  simp at *
  omega

theorem size_untilFrom_le {stop : Parser σ ε false Bool} {item : Parser σ ε true α} {as : List α}
    {s r : σ} (h : untilFrom stop item s = .ok (as, r)) : Sized.size r ≤ Sized.size s := by
  fun_induction untilFrom stop item s generalizing as with
  | case1 => cases h
  | case2 s r' hs => cases h; exact stop.size_le hs
  | case3 => cases h
  | case4 => cases h
  | case5 s r₁ hs a r₂ hi as' r₃ hr ih =>
    cases h
    have h₁ := stop.size_le hs
    have h₂ := item.size_le hi
    have h₃ := ih hr
    simp at *
    omega

/-- The items that follow one another until `stop` ends them. -/
def untilM (stop : Parser σ ε false Bool) (item : Parser σ ε true α) :
    Parser σ ε false (List α) where
  run s := untilFrom stop item s
  size_le h := by simpa using size_untilFrom_le h

/-- One round of such a repetition. -/
theorem run_untilM (stop : Parser σ ε false Bool) (item : Parser σ ε true α) (s : σ) :
    (untilM stop item).run s = (stop.run s).bind fun x =>
      if x.1 then .ok ([], x.2)
      else (item.run x.2).bind fun y =>
        ((untilM stop item).run y.2).map fun z => (y.1 :: z.1, z.2) := by
  show untilFrom stop item s = _
  rw [untilFrom]
  split
  · rename_i hs
    rw [hs]
    rfl
  · rename_i hs
    rw [hs]
    rfl
  · rename_i r hs
    rw [hs]
    simp only [Except.bind, Bool.false_eq_true, if_false]
    split
    · rename_i hi
      rw [hi]
    · rename_i a r' hi
      rw [hi]
      show _ = Except.map _ (untilFrom stop item r')
      cases untilFrom stop item r' <;> rfl

variable {β : Type} {stop : Parser σ ε false Bool} {item : Parser σ ε true α} {f : List α → β}
  {s m r : σ} {a : α} {e : ε}

theorem run_untilM_step (hs : stop.run s = .ok (false, m)) (hi : item.run m = .ok (a, r)) :
    ((untilM stop item).map f).run s = ((untilM stop item).map fun as => f (a :: as)).run r := by
  rw [run_map, run_untilM, hs, run_map]
  simp only [Except.bind, Bool.false_eq_true, if_false, hi]
  cases (untilM stop item).run r <;> rfl

theorem run_untilM_error (hs : stop.run s = .ok (false, m)) (hi : item.run m = .error e) :
    ((untilM stop item).map f).run s = .error e := by
  rw [run_map, run_untilM, hs]
  simp only [Except.bind, Bool.false_eq_true, if_false, hi]
  rfl

end Parser

/-- A parser on the octets of a source. -/
abbrev OctetReader (source : Text) (consumes : Bool) (α : Type) :=
  Parser (Cursor source) (Halt source) consumes α

namespace OctetReader

open QueryCompiler.Parser

variable {source : Text} {b : Bool} {α : Type}

/-! ### Moves -/

/-- Fails at the cursor. -/
def fail (fault : SyntaxFault) : OctetReader source b α := failWith fun c => .fault fault c

/-- Moves the cursor over so many octets. -/
def move (n : Nat) : OctetReader source (n != 0) Unit where
  run c :=
    if h : c.offset + n ≤ source.length then .ok ((), ⟨c.offset + n, h⟩) else .error .overrun
  size_le {c a r} h := by
    split at h
    · rename_i hn
      cases h
      show (Cursor.rest _).length + _ ≤ _
      simp only [Cursor.length_rest, Sized.size]
      cases n with
      | zero => exact Nat.le_refl _
      | succ n =>
        show _ + 1 ≤ _
        omega
    · cases h

/-- A parser that depends on the octet at the cursor. -/
def peeking (f : UInt8 → OctetReader source b α) : OctetReader source b α :=
  Parser.bind (b := false) (c := b) (look fun c => c.peek 0) f

/-- Takes the octet at the cursor. -/
def take : OctetReader source true UInt8 := peeking fun o => (move 1).map fun _ => o

/-- Takes the octet at the cursor if there is one. At the end it gives zero and stays. -/
def advance : OctetReader source false UInt8 where
  run c := if h : c.offset < source.length then .ok (c.peek 0, ⟨c.offset + 1, h⟩) else .ok (0, c)
  size_le {c a r} h := by
    split at h <;> cases h <;> simp [Sized.size, Cursor.length_rest]
    omega

/-- Moves the cursor over all octets of a class. -/
def skipWhile (isIn : UInt8 → Bool) : OctetReader source false Unit :=
  (whileM (Cursor.isIn isIn) take).map fun _ => ()

/-- What a parser gives, and the octets that it was moved over. -/
def spanned (p : OctetReader source b α) : OctetReader source b (α × Text) where
  run c := match p.run c with
    | .error e => .error e
    | .ok (a, r) => .ok ((a, c.rest.take (r.offset - c.offset)), r)
  size_le {c x r} h := by
    split at h
    · cases h
    · rename_i hp
      cases h
      exact p.size_le hp

/-! ### Between tokens -/

/-- A comment up to the end of its line. -/
def comment : OctetReader source true Unit :=
  take.bind fun _ => skipWhile fun o => !Octet.isLineTerminator o

/-- Something that stands between tokens comes next. -/
def startsGap (c : Cursor source) : Bool :=
  !c.atEnd && (Scan.isSeparator (c.peek 0) || c.peek 0 == Octet.hash ||
    c.startsWith Scan.byteOrderMark)

/-- Something that stands between tokens. -/
def gap : OctetReader source true Unit :=
  peeking fun o =>
    if Scan.isSeparator o then take.map fun _ => ()
    else if o = Octet.hash then comment
    else move 3

/-- Moves the cursor to the next token, or to the end. -/
def skipIgnored : OctetReader source false Unit := (whileM startsGap gap).map fun _ => ()

/-- Whether no token is left. -/
def ended : OctetReader source false Bool := skipIgnored.bind fun _ => look Cursor.atEnd

/-! ### Punctuators and names -/

/-- Takes a punctuator. -/
def expect (p : Punctuator) : OctetReader source true Unit :=
  Parser.bind (b := false) (c := true) skipIgnored fun _ => peeking fun o =>
    if o = p.octet then take.map fun _ => ()
    else failWith fun c => .fault (.expectedOctet p.octet c.octet?) c

/-- Takes a punctuator if it comes next, and says whether it did. -/
def optional (p : Punctuator) : OctetReader source false Bool :=
  skipIgnored.bind fun _ => peeking fun o =>
    if o = p.octet then (take.map fun _ => true).relax else pure false

/-- The items up to a punctuator, which is taken. -/
def manyUntil (close : Punctuator) (item : OctetReader source true α) :
    OctetReader source false (List α) := untilM (optional close) item

/-- One item or more up to a punctuator, which is taken. -/
def someUntil (close : Punctuator) (item : OctetReader source true α) :
    OctetReader source true (List α) :=
  Parser.bind (b := true) (c := false) item fun first =>
    (manyUntil close item).map (first :: ·)

/-- Takes the mark of a spread if it comes next, and says whether it did. -/
def spread : OctetReader source false Bool :=
  skipIgnored.bind fun _ =>
    Parser.bind (b := false) (c := false)
      (look fun c => c.peek 0 == Octet.dot && c.peek 1 == Octet.dot && c.peek 2 == Octet.dot)
      fun found => if found then ((move 3).map fun _ => true).relax else pure false

/-- Whether a certain name comes next. -/
def startsName (k : Text) : OctetReader source false Bool :=
  skipIgnored.bind fun _ =>
    look fun c => c.startsWith k && !Octet.isNameContinue (c.peek k.length)

/-- Takes a certain name. -/
def keyword (k : Text) : OctetReader source false Unit :=
  (startsName k).bind fun found =>
    if found then (move k.length).relax else fail (.expectedKeyword k)

/-- Takes a name. -/
def name : OctetReader source true Text :=
  Parser.bind (b := false) (c := true) skipIgnored fun _ => peeking fun o =>
    if Octet.isNameStart o then
      (spanned (take.bind fun _ => skipWhile Octet.isNameContinue)).map Prod.snd
    else failWith fun c => .fault (.expectedName c.octet?) c

/-! ### Strings -/

/-- The code unit that `n` hexadecimal digits spell after the digits of `value`. -/
def codeUnit : (n : Nat) → (value : Nat) → OctetReader source false Nat
  | 0, value => pure value
  | n + 1, value => peeking fun o =>
    match Octet.hexValue? o with
    | none => fail .badUnicodeEscape
    | some digit => (take.bind fun _ => codeUnit n (16 * value + digit)).relax

/-- A Unicode escape, after `\u`: a code unit, and the other half of a pair after the first. -/
def unicodeEscape : OctetReader source false Text :=
  (codeUnit 4 0).bind fun unit =>
    Parser.bind (b := false) (c := false)
      (look fun c => Text.isHighSurrogate unit && c.peek 0 == Octet.backslash && c.peek 1 == 0x75)
      fun paired =>
        if paired then
          (Parser.bind (b := true) (c := false) (move 2) fun _ => (codeUnit 4 0).bind fun low =>
            if Text.isLowSurrogate low then pure (Utf8.encode (Text.ofSurrogates unit low))
            else fail .badUnicodeEscape).relax
        else pure (Utf8.encode unit)

/-- An escape, after the backslash. -/
def escape : OctetReader source false Text :=
  advance.bind fun o =>
    match Text.simpleEscape? o with
    | some octet => pure [octet]
    | none => if o = 0x75 then unicodeEscape else fail (.unknownEscape o)

/-- Takes the quote that ends a string if it comes next, and says whether it did. The string must
end on its line. -/
def closesQuoted : OctetReader source false Bool :=
  Parser.bind (b := false) (c := false)
    (look fun c => c.atEnd || Octet.isLineTerminator (c.peek 0)) fun broken =>
      if broken then fail .unterminatedString
      else peeking fun o =>
        if o = Octet.quote then (take.map fun _ => true).relax else pure false

/-- An octet or an escape of a string. -/
def quotedPart : OctetReader source true Text :=
  Parser.bind (b := true) (c := false) take fun o =>
    if o = Octet.backslash then escape else pure [o]

/-- A string between quotes. -/
def quoted : OctetReader source true Text :=
  Parser.bind (b := true) (c := false) take fun _ =>
    (untilM closesQuoted quotedPart).map List.flatten

/-- Takes the quotes that end a block if they come next, and says whether they did. -/
def closesBlock : OctetReader source false Bool :=
  Parser.bind (b := false) (c := false) (look Cursor.atEnd) fun broken =>
    if broken then fail .unterminatedString
    else Parser.bind (b := false) (c := false) (look fun c => c.quotesAt 0) fun found =>
      if found then ((move 3).map fun _ => true).relax else pure false

/-- An octet of a block, or quotes after a backslash. -/
def blockPart : OctetReader source true Text :=
  Parser.bind (b := false) (c := true)
    (look fun c => c.peek 0 == Octet.backslash && c.quotesAt 1) fun escaped =>
      if escaped then (move 4).map fun _ => Text.blockQuote else take.map fun o => [o]

/-- A block string. -/
def block : OctetReader source true Text :=
  Parser.bind (b := true) (c := false) (move 3) fun _ =>
    (untilM closesBlock blockPart).map fun parts => Text.dedent parts.flatten

/-- A string that starts at the cursor. -/
def string : OctetReader source true Text :=
  Parser.bind (b := false) (c := true) (look fun c => c.quotesAt 0) fun isBlock =>
    if isBlock then block else quoted

/-! ### Numbers -/

/-- One digit or more. -/
def digits : OctetReader source true Unit :=
  peeking fun o =>
    if Octet.isDigit o then
      Parser.bind (b := true) (c := false) take fun _ => skipWhile Octet.isDigit
    else fail .expectedDigit

/-- Takes an octet of a class if it comes next, and says whether it did. -/
def takeIf (isIn : UInt8 → Bool) : OctetReader source false Bool :=
  peeking fun o => if isIn o then (take.map fun _ => true).relax else pure false

/-- The digits in front of the point: a zero alone, or digits. -/
def whole : OctetReader source true Unit :=
  peeking fun o =>
    if o = Octet.zero then
      Parser.bind (b := true) (c := false) take fun _ => peeking fun next =>
        if Octet.isDigit next then fail .digitAfterZero else pure ()
    else digits

/-- A mark, a sign if one of those that are allowed comes next, and digits; nothing without the
mark. It says whether the mark was there. -/
def part (isMark isSign : UInt8 → Bool) : OctetReader source false Bool :=
  (takeIf isMark).bind fun found =>
    if found then
      ((takeIf isSign).bind fun _ => digits.map fun _ => true).relax
    else pure false

/-- The octets of a number, and whether it has a fraction or an exponent. -/
def numberParts : OctetReader source true Bool :=
  Parser.bind (b := false) (c := true) (takeIf (· == Octet.minus)) fun _ =>
    Parser.bind (b := true) (c := false) whole fun _ =>
      (part (· == Octet.dot) fun _ => false).bind fun hasFraction =>
      (part Octet.isExponentMark fun o => o == Octet.plus || o == Octet.minus).bind fun hasScale =>
      peeking fun o =>
        if o == Octet.dot || Octet.isNameStart o then fail .badNumber
        else pure (hasFraction || hasScale)

/-- A number that starts at the cursor, with its octets. -/
def number : OctetReader source true (Bool × Text) := spanned numberParts

end OctetReader

end QueryCompiler
