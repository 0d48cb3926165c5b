import QueryCompiler.Text.Utf8
import QueryCompiler.Text.Octet

/-!
# Reading quoted text

The body of a quoted literal runs up to the closing quote. A backslash opens an escape: a letter, a
quote, a solidus or a backslash, or `u` and four hexadecimal digits for a code unit. Two escaped
units are one code point if the first is a high surrogate; the second must then be a low one. A
surrogate that stands alone is encoded by itself.

* `Text.readEscape`: one escape, after its backslash.
* `Text.readQuoted`: the body of a literal, after its opening quote.

Both count the octets they have read, and a fault comes with the number of octets before it.
-/

namespace QueryCompiler.Text

/-- Why a quoted literal cannot be read. -/
inductive LiteralFault
  /-- The literal does not end. -/
  | unterminated
  /-- No escape starts with this octet. -/
  | unknownEscape (octet : UInt8)
  /-- A code unit is not four hexadecimal digits, or a high surrogate is followed by an escape that
  is no low one. -/
  | badCodeUnit
  deriving DecidableEq

/-- What was read, and the number of octets it took. -/
structure Read where
  /-- The octets that were meant. -/
  meaning : Text
  /-- The number of octets that were read. -/
  length : Nat
  deriving DecidableEq

/-- The code unit that `n` hexadecimal digits spell after the digits of `value`, or the number of
digits before the first octet that is none. -/
def codeUnitFrom : (n : Nat) → (value : Nat) → (before : Nat) → Text → Except Nat Nat
  | 0, value, _, _ => .ok value
  | _ + 1, _, before, [] => .error before
  | n + 1, value, before, c :: rest =>
    match Octet.hexValue? c with
    | none => .error before
    | some digit => codeUnitFrom n (16 * value + digit) (before + 1) rest

/-- The code unit that four hexadecimal digits spell. -/
def codeUnit (t : Text) : Except Nat Nat := codeUnitFrom 4 0 0 t

/-- The code unit is the first half of a pair. -/
def isHighSurrogate (unit : Nat) : Bool := 0xD800 ≤ unit && unit ≤ 0xDBFF

/-- The code unit is the second half of a pair. -/
def isLowSurrogate (unit : Nat) : Bool := 0xDC00 ≤ unit && unit ≤ 0xDFFF

/-- The code point of a pair of surrogates. -/
def ofSurrogates (high low : Nat) : Nat := 0x10000 + (high - 0xD800) * 0x400 + (low - 0xDC00)

/-- A Unicode escape, after `\u`. -/
def readUnicodeEscape (t : Text) : Except (LiteralFault × Nat) Read :=
  match codeUnit t with
  | .error n => .error (.badCodeUnit, n)
  | .ok unit =>
    if isHighSurrogate unit && ("\\u" : Text).isPrefixOf (t.drop 4) then
      match codeUnit (t.drop 6) with
      | .error n => .error (.badCodeUnit, 6 + n)
      | .ok low =>
        if isLowSurrogate low then .ok ⟨Utf8.encode (ofSurrogates unit low), 10⟩
        else .error (.badCodeUnit, 10)
    else .ok ⟨Utf8.encode unit, 4⟩

/-- The octet that an escape of one octet stands for. -/
def simpleEscape? (c : UInt8) : Option UInt8 :=
  if c = Octet.quote ∨ c = Octet.backslash ∨ c = Octet.slash then some c
  else if c = 0x62 then some 0x08
  else if c = 0x66 then some 0x0C
  else if c = 0x6E then some Octet.lf
  else if c = 0x72 then some Octet.cr
  else if c = 0x74 then some Octet.tab
  else none

/-- An escape, after the backslash. At the end of the text the octet that is missing counts as
zero. -/
def readEscape : Text → Except (LiteralFault × Nat) Read
  | [] => .error (.unknownEscape 0, 0)
  | c :: rest =>
    match simpleEscape? c with
    | some octet => .ok ⟨[octet], 1⟩
    | none =>
      if c = 0x75 then
        match readUnicodeEscape rest with
        | .error (fault, n) => .error (fault, 1 + n)
        | .ok r => .ok ⟨r.meaning, 1 + r.length⟩
      else .error (.unknownEscape c, 1)

/-- The body of a quoted literal up to and with its closing quote; `done` is what was read before,
the last octet first, and `n` its length. An octet that `ends` refuses leaves it unterminated. -/
def readQuotedFrom (ends : UInt8 → Bool) (done : Text) (n : Nat) :
    Text → Except (LiteralFault × Nat) Read
  | [] => .error (.unterminated, n)
  | c :: rest =>
    if ends c then .error (.unterminated, n)
    else if c = Octet.quote then .ok ⟨done.reverse, n + 1⟩
    else if c = Octet.backslash then
      match readEscape rest with
      | .error (fault, k) => .error (fault, n + 1 + k)
      | .ok r =>
        readQuotedFrom ends (r.meaning.reverse ++ done) (n + 1 + r.length) (rest.drop r.length)
    else readQuotedFrom ends (c :: done) (n + 1) rest
termination_by t => t.length
decreasing_by
  · simp only [List.length_drop, List.length_cons]; omega
  · simp

/-- The body of a quoted literal, after its opening quote. -/
def readQuoted (ends : UInt8 → Bool) (t : Text) : Except (LiteralFault × Nat) Read :=
  readQuotedFrom ends [] 0 t

/-- Three quotes, which open and close a block literal. -/
def blockQuote : Text := [Octet.quote, Octet.quote, Octet.quote]

/-- The raw octets of a block literal up to and with its closing quotes, where a backslash in front
of three quotes stands for the three quotes; `done` and `n` as in `readQuotedFrom`. -/
def readBlockFrom (done : Text) (n : Nat) : Text → Except (LiteralFault × Nat) Read
  | [] => .error (.unterminated, n)
  | c :: rest =>
    if blockQuote.isPrefixOf (c :: rest) then .ok ⟨done.reverse, n + 3⟩
    else if (Octet.backslash :: blockQuote).isPrefixOf (c :: rest) then
      readBlockFrom (blockQuote ++ done) (n + 4) (rest.drop 3)
    else readBlockFrom (c :: done) (n + 1) rest
termination_by t => t.length
decreasing_by
  · simp only [List.length_drop, List.length_cons]; omega
  · simp

/-- The raw octets of a block literal, after its opening quotes. -/
def readBlock (t : Text) : Except (LiteralFault × Nat) Read := readBlockFrom [] 0 t

end QueryCompiler.Text
