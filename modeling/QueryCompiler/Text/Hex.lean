import QueryCompiler.Text.Basic
import QueryCompiler.Text.Octet

/-!
# Hexadecimal text

Each octet is written as two lowercase digits, the high half first.
-/

namespace QueryCompiler.Text

/-- The lowercase hexadecimal digit of a number below sixteen. -/
def hexDigit (n : Nat) : UInt8 := if n < 10 then (0x30 + n).toUInt8 else (0x57 + n).toUInt8

/-- The two hexadecimal digits of an octet. -/
def hexOctet (c : UInt8) : Text := [hexDigit (c.toNat / 16), hexDigit (c.toNat % 16)]

/-- The octets of a text in hexadecimal. -/
def hex (t : Text) : Text := t.flatMap hexOctet

/-- The octets that hexadecimal text stands for; nothing if its length is odd or it holds an octet
that is no hexadecimal digit. -/
def ofHex? : Text → Option Text
  | [] => some []
  | [_] => none
  | high :: low :: rest => do
    let h ← Octet.hexValue? high
    let l ← Octet.hexValue? low
    let octets ← ofHex? rest
    return (16 * h + l).toUInt8 :: octets

theorem hexValue?_hexDigit : ∀ n < 16, Octet.hexValue? (hexDigit n) = some n := by decide

/-- Hexadecimal text stands for the octets that it is written for. -/
@[simp] theorem ofHex?_hex (t : Text) : ofHex? (hex t) = some t := by
  induction t with
  | nil => rfl
  | cons c t ih =>
    have hhigh : Octet.hexValue? (hexDigit (c.toNat / 16)) = some (c.toNat / 16) :=
      hexValue?_hexDigit _ (Nat.div_lt_of_lt_mul c.toNat_lt)
    have hlow : Octet.hexValue? (hexDigit (c.toNat % 16)) = some (c.toNat % 16) :=
      hexValue?_hexDigit _ (Nat.mod_lt _ (by decide))
    have hoctet : (16 * (c.toNat / 16) + c.toNat % 16).toUInt8 = c := by
      rw [Nat.div_add_mod]
      exact UInt8.ofNat_toNat
    show ofHex? (hexDigit (c.toNat / 16) :: hexDigit (c.toNat % 16) :: hex t) = some (c :: t)
    simp only [ofHex?, hhigh, hlow, ih, Option.bind_eq_bind, Option.bind_some, Option.pure_def,
      hoctet]

theorem hex_injective {s t : Text} (h : hex s = hex t) : s = t := by
  have hread : some s = some t := by rw [← ofHex?_hex s, h, ofHex?_hex]
  exact Option.some.inj hread

end QueryCompiler.Text
