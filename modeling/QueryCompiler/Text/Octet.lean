/-!
# Octets

The octets and classes of octets that sources, numbers and string literals are made of. Only ASCII
octets have a class: an octet from `0x80` on belongs to none.
-/

namespace QueryCompiler.Octet

/-- Horizontal tab. -/
abbrev tab : UInt8 := 0x09
/-- Line feed. -/
abbrev lf : UInt8 := 0x0A
/-- Carriage return. -/
abbrev cr : UInt8 := 0x0D
/-- Space. -/
abbrev space : UInt8 := 0x20
/-- The double quote. -/
abbrev quote : UInt8 := 0x22
/-- The number sign, which opens a comment. -/
abbrev hash : UInt8 := 0x23
/-- The plus sign. -/
abbrev plus : UInt8 := 0x2B
/-- The comma. -/
abbrev comma : UInt8 := 0x2C
/-- The minus sign. -/
abbrev minus : UInt8 := 0x2D
/-- The full stop. -/
abbrev dot : UInt8 := 0x2E
/-- The solidus. -/
abbrev slash : UInt8 := 0x2F
/-- The digit zero. -/
abbrev zero : UInt8 := 0x30
/-- The colon. -/
abbrev colon : UInt8 := 0x3A
/-- The reverse solidus. -/
abbrev backslash : UInt8 := 0x5C
/-- The low line. -/
abbrev underscore : UInt8 := 0x5F

/-- A decimal digit. -/
def isDigit (c : UInt8) : Bool := 0x30 ≤ c && c ≤ 0x39

/-- An ASCII letter. -/
def isLetter (c : UInt8) : Bool := (0x61 ≤ c && c ≤ 0x7A) || (0x41 ≤ c && c ≤ 0x5A)

/-- An octet a name may start with. -/
def isNameStart (c : UInt8) : Bool := isLetter c || c == underscore

/-- An octet a name may go on with. -/
def isNameContinue (c : UInt8) : Bool := isNameStart c || isDigit c

/-- A line terminator. -/
def isLineTerminator (c : UInt8) : Bool := c == lf || c == cr

/-- A space or a tab. -/
def isBlank (c : UInt8) : Bool := c == space || c == tab

/-- The exponent mark of a number. -/
def isExponentMark (c : UInt8) : Bool := c == 0x65 || c == 0x45

/-- The value of a decimal digit. -/
def digitValue (c : UInt8) : Nat := c.toNat - 0x30

/-- The value of a hexadecimal digit of either case. -/
def hexValue? (c : UInt8) : Option Nat :=
  if isDigit c then some (c.toNat - 0x30)
  else if 0x61 ≤ c && c ≤ 0x66 then some (c.toNat - 0x61 + 10)
  else if 0x41 ≤ c && c ≤ 0x46 then some (c.toNat - 0x41 + 10)
  else none

/-- What holds of the octets of all numbers below 256 holds of all octets. -/
theorem forall_octet {p : UInt8 → Prop} (h : ∀ n < 256, p (UInt8.ofNat n)) (c : UInt8) :
    p c := by
  have hc := h c.toNat c.toNat_lt
  rwa [UInt8.ofNat_toNat] at hc

theorem isNameContinue_of_isNameStart {c : UInt8} (h : isNameStart c = true) :
    isNameContinue c = true := by
  simp [isNameContinue, h]

theorem hexValue?_lt {c : UInt8} {n : Nat} (h : hexValue? c = some n) : n < 16 := by
  unfold hexValue? isDigit at h
  split at h
  · rename_i hd
    simp only [Bool.and_eq_true, decide_eq_true_eq, UInt8.le_iff_toNat_le] at hd
    obtain rfl := Option.some.inj h
    have : (0x39 : UInt8).toNat = 57 := rfl
    omega
  · split at h
    · rename_i hd
      simp only [Bool.and_eq_true, decide_eq_true_eq, UInt8.le_iff_toNat_le] at hd
      obtain rfl := Option.some.inj h
      have : (0x66 : UInt8).toNat = 102 := rfl
      omega
    · split at h
      · rename_i hd
        simp only [Bool.and_eq_true, decide_eq_true_eq, UInt8.le_iff_toNat_le] at hd
        obtain rfl := Option.some.inj h
        have : (0x46 : UInt8).toNat = 70 := rfl
        omega
      · exact absurd h (by simp)

end QueryCompiler.Octet
