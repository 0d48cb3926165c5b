import QueryCompiler.Text.Hex
import QueryCompiler.Text.Utf8

/-!
# Quoted text

The literal of a text: between two quotes every character stands for itself, except that a quote, a
backslash and a control character are escaped, the common controls by a letter and the others by
`\u00` and two lowercase hexadecimal digits. An ill-formed run is written as U+FFFD.
-/

namespace QueryCompiler.Text

/-- The spelling of one octet inside a literal. -/
def escapeOctet (c : UInt8) : Text :=
  if c = Octet.quote then [Octet.backslash, Octet.quote]
  else if c = Octet.backslash then [Octet.backslash, Octet.backslash]
  else if c = 0x08 then "\\b"
  else if c = 0x0C then "\\f"
  else if c = Octet.lf then "\\n"
  else if c = Octet.cr then "\\r"
  else if c = Octet.tab then "\\t"
  else if c < 0x20 then "\\u00" ++ hexOctet c
  else [c]

/-- The literal of a text. -/
def quoted (t : Text) : Text :=
  Octet.quote :: ((Utf8.sanitise t).flatMap escapeOctet ++ [Octet.quote])

end QueryCompiler.Text
