import QueryCompiler.Text.Basic
import QueryCompiler.Text.Octet

/-!
# Numeric literals

At the front of a text a numeric literal is an optional minus sign, a whole part without a leading
zero, an optional fraction and an optional exponent, each as long as it can be. Reading one gives
its length, or what is wrong and at which octet.
-/

namespace QueryCompiler.Number

/-- Why a text does not start with a numeric literal. -/
inductive LiteralFault
  /-- A digit must stand here. -/
  | expectedDigit
  /-- A whole part that starts with zero goes on. -/
  | digitAfterZero
  deriving DecidableEq

/-- The number of digits at the front of a text. -/
def digitCount (t : Text) : Nat := (t.takeWhile Octet.isDigit).length

/-- The length of the sign at the front of a text, of those that are allowed. -/
def signLength (allowed : UInt8 → Bool) (t : Text) : Nat := if t.head?.any allowed then 1 else 0

/-- The length of a mark and the part it opens: none if the mark is missing, a fault if no digit
follows. -/
def partLength (isMark : UInt8 → Bool) (isSign : UInt8 → Bool) (t : Text) :
    Except (LiteralFault × Nat) Nat :=
  if t.head?.any isMark then
    let sign := signLength isSign t.tail
    let digits := digitCount (t.tail.drop sign)
    if digits = 0 then .error (.expectedDigit, 1 + sign) else .ok (1 + sign + digits)
  else .ok 0

/-- The length of the sign and the whole part. -/
def wholeLength (t : Text) : Except (LiteralFault × Nat) Nat :=
  let sign := signLength (· == Octet.minus) t
  let digits := digitCount (t.drop sign)
  if digits = 0 then .error (.expectedDigit, sign)
  else if 1 < digits ∧ (t.drop sign).head? = some Octet.zero then .error (.digitAfterZero, sign + 1)
  else .ok (sign + digits)

/-- The measure of a numeric literal. -/
structure LiteralExtent where
  /-- The number of octets. -/
  length : Nat
  /-- Whether there is a fraction or an exponent. -/
  isFloat : Bool
  deriving DecidableEq

/-- The fault of a part that starts at an offset. -/
def atOffset (offset : Nat) (r : Except (LiteralFault × Nat) Nat) :
    Except (LiteralFault × Nat) Nat :=
  r.mapError fun (fault, n) => (fault, offset + n)

/-- The literal at the front of a text. -/
def literalExtent (t : Text) : Except (LiteralFault × Nat) LiteralExtent := do
  let whole ← wholeLength t
  let fraction ← atOffset whole (partLength (· == Octet.dot) (fun _ => false) (t.drop whole))
  let start := whole + fraction
  let scale ← atOffset start
    (partLength Octet.isExponentMark (fun c => c == Octet.plus || c == Octet.minus) (t.drop start))
  return ⟨start + scale, fraction + scale != 0⟩

end QueryCompiler.Number
