/-!
# Powers and rounded quotients

Quotients of natural numbers are rounded to the nearest natural number, a tie to the even neighbour.
-/

namespace QueryCompiler.Number

/-- The product of `n` factors `base`. -/
def power (base n : Nat) : Nat := Nat.pow base n

theorem power_pos {base : Nat} (h : 0 < base) (n : Nat) : 0 < power base n := Nat.pow_pos h

/-- The natural number nearest to `num / den`, and of two the even one. -/
def roundHalfEven (num den : Nat) : Nat :=
  let q := num / den
  let r := num % den
  if 2 * r < den then q
  else if den < 2 * r then q + 1
  else if q % 2 = 0 then q else q + 1

/-- The number of decimal digits of a number; one for zero. -/
def decimalLength (n : Nat) : Nat := (Nat.toDigits 10 n).length

end QueryCompiler.Number
