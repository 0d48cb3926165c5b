import QueryCompiler.Number.Binary64

/-!
# Six significant digits

A double is shown with six significant digits, rounded from its exact value, and without trailing
zeros: positional when its decimal exponent lies between -4 and 5, and otherwise with one digit
before the point and an exponent of at least two digits.
-/

namespace QueryCompiler.Number

/-- The exponent `x` with `10 ^ x ≤ num / den < 10 ^ (x + 1)`, for a positive quotient. -/
def decimalExponent (num den : Nat) : Int :=
  if den ≤ num then decimalLength (num / den) - 1
  else -(decimalLength ((den + num - 1) / num - 1) : Int)

/-- Six digits and the exponent of the first one. -/
def sixDigits (num den : Nat) : Nat × Int :=
  let x := decimalExponent num den
  let n := if x ≤ 5 then roundHalfEven (num * power 10 (5 - x).toNat) den
    else roundHalfEven num (den * power 10 (x - 5).toNat)
  if n = 1000000 then (100000, x + 1) else (n, x)

/-- Digits before a point and digits after it, if any are left without the trailing zeros. -/
def withPoint (whole fraction : Text) : Text :=
  let kept := (fraction.reverse.dropWhile (· == Octet.zero)).reverse
  if kept.isEmpty then whole else whole ++ Octet.dot :: kept

/-- An exponent mark, a sign and at least two digits. -/
def exponentText (x : Int) : Text :=
  let digits := Text.ofNat x.natAbs
  "e" ++ (if x < 0 then [Octet.minus] else [Octet.plus]) ++
    (if digits.length < 2 then Octet.zero :: digits else digits)

/-- A finite double in six significant digits. -/
def Binary64.text (x : Binary64) : Text :=
  let sign : Text := if x.isNegative then [Octet.minus] else []
  if x.ratio.num = 0 then sign ++ [Octet.zero]
  else
    let (n, e) := sixDigits x.ratio.num x.ratio.den
    let digits := Text.ofNat n
    if e < -4 ∨ 5 < e then
      sign ++ withPoint (digits.take 1) (digits.drop 1) ++ exponentText e
    else if e < 0 then
      sign ++ withPoint [Octet.zero] (List.replicate (-e - 1).toNat Octet.zero ++ digits)
    else
      sign ++ withPoint (digits.take (e.toNat + 1)) (digits.drop (e.toNat + 1))

end QueryCompiler.Number
