import QueryCompiler.Text.Basic
import QueryCompiler.Text.Octet

/-!
# Decimal numbers

Numbers are read at the front of a text: after blanks and a sign, as many digits as there are, and for
a decimal number a fraction and an exponent. What comes after is not looked at, and a text without
digits stands for no number; numbers in hexadecimal and the words for infinity are not read. A decimal
number is `± digits · 10 ^ exponent`, read without any rounding.

* `integer?`: the integer at the front of a text.
* `Decimal.read?`: the decimal number at the front of a text.
-/

namespace QueryCompiler.Number

/-- The exact value of a decimal number. The sign of zero is kept. -/
structure Decimal where
  /-- Whether the number starts with a minus sign. -/
  negative : Bool
  /-- The digits, of the fraction too, as one number. -/
  digits : Nat
  /-- The power of ten the digits are scaled by. -/
  exponent : Int
  deriving DecidableEq

/-- The number that a row of decimal digits stands for. -/
def ofDigits (t : Text) : Nat := t.foldl (fun n c => 10 * n + Octet.digitValue c) 0

/-- A space, or one of the controls from tab to carriage return. -/
def isSpace (c : UInt8) : Bool := c == Octet.space || (Octet.tab ≤ c && c ≤ Octet.cr)

/-- The text starts with a minus sign. -/
def hasMinus (t : Text) : Bool := t.head? == some Octet.minus

/-- The text after a sign, if it starts with one. -/
def unsigned (t : Text) : Text :=
  if t.head?.any fun c => c == Octet.minus || c == Octet.plus then t.tail else t

/-- The integer that digits after an optional sign stand for; none if there is no digit. -/
def signedDigits? (t : Text) : Option Int :=
  let digits := (unsigned t).takeWhile Octet.isDigit
  if digits.isEmpty then none
  else some (if hasMinus t then -(ofDigits digits : Int) else ofDigits digits)

/-- The integer at the front of a text, after blanks. -/
def integer? (t : Text) : Option Int := signedDigits? (t.dropWhile isSpace)

/-- The digits after a point, if the text starts with one. -/
def fractionDigits (t : Text) : Text :=
  if t.head? == some Octet.dot then t.tail.takeWhile Octet.isDigit else []

/-- The power of ten that an exponent at the front of a text stands for; zero if there is none, or no
digits in it. -/
def scale (t : Text) : Int :=
  if t.head?.any Octet.isExponentMark then (signedDigits? t.tail).getD 0 else 0

/-- The decimal number at the front of a text, after blanks. There is none without a digit in front of
the exponent. -/
def Decimal.read? (t : Text) : Option Decimal :=
  let signed := t.dropWhile isSpace
  let digits := (unsigned signed).takeWhile Octet.isDigit
  let afterDigits := (unsigned signed).drop digits.length
  let fraction := fractionDigits afterDigits
  let afterFraction :=
    if afterDigits.head? == some Octet.dot then afterDigits.tail.drop fraction.length else afterDigits
  if digits.isEmpty && fraction.isEmpty then none
  else some
    { negative := hasMinus signed
      digits := ofDigits (digits ++ fraction)
      exponent := scale afterFraction - fraction.length }

/-- The least integer beyond signed words, `2 ^ 63`. -/
abbrev signedLimit : Int := 0x8000000000000000

/-- The least integer beyond unsigned words, `2 ^ 64`. -/
abbrev unsignedLimit : Int := 0x10000000000000000

end QueryCompiler.Number
