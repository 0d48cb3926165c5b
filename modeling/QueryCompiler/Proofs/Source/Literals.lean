import QueryCompiler.Proofs.Document.Indentation
import QueryCompiler.Proofs.Source.Splitting
import QueryCompiler.Proofs.Text.Strays

/-!
# Literals of any octets

Quoting and reading are inverse to each other up to ill-formed runs: the literal of any text is one
token, whatever follows it but a quote, and its value is the sanitised text (`isRead_quoted`). A
literal stands on one line (`isLine_quoted`), so that indenting the text around it leaves it as it is
(`indent_quoted`).
-/

namespace QueryCompiler

namespace Text

/-- Indenting a text leaves the literals in it as they are. -/
theorem indent_quoted (before t after : Text) : (before ++ (t.quoted ++ after)).indent =
    "  " ++ (before.indentLines ++ (t.quoted ++ after.indentLines)) := by
  have hlf : Octet.lf ∉ t.quoted := (isLine_quoted t).not_mem rfl
  have hne : (before ++ (t.quoted ++ after)).isEmpty = false := by
    rw [List.isEmpty_eq_false_iff]
    simp [quoted]
  rw [indent, hne, indentLines_append, indentLines_append, indentLines_eq_self hlf]
  rfl

end Text

namespace Scan

/-- **The literal of a text is read as the sanitised text**, up to its end. -/
theorem isRead_quoted (t : Text) {rest : Text} (h : rest.head? ≠ some Octet.quote) :
    IsRead (t.quoted ++ rest) (.string (Utf8.sanitise t)) rest := by
  have hread := readString_quoted t h
  obtain ⟨body, hbody⟩ : ∃ body, t.quoted = Octet.quote :: body := ⟨_, rfl⟩
  rw [hbody] at hread ⊢
  exact ⟨Octet.quote, body ++ rest, body.length, rfl, ignored_quote _,
    (readToken_quote _).trans hread, List.drop_left⟩

/-- **Literals are a codec for all texts.** In front of anything but a quote the literal of a text is
read up to its end. Its value is the text with every maximal ill-formed run replaced, the text itself
if it is well-formed; and the literal of this value is the same. No line terminator stands in a
literal, so indenting what is printed changes none. -/
theorem isRead_literal (t rest : Text) (h : rest.head? ≠ some Octet.quote) :
    IsRead (t.quoted ++ rest) (.string (Utf8.sanitise t)) rest ∧
      Utf8.Sanitises t (Utf8.sanitise t) ∧
      (Utf8.IsEncoded t → Utf8.sanitise t = t) ∧
      t.quoted.IsLine ∧
      (∀ before after : Text, (before ++ (t.quoted ++ after)).indent =
        "  " ++ (before.indentLines ++ (t.quoted ++ after.indentLines))) ∧
      (Utf8.sanitise t).quoted = t.quoted :=
  ⟨isRead_quoted t h, Utf8.sanitises_iff.mpr rfl,
    fun ht => Utf8.sanitise_of_wellFormed (Utf8.wellFormed_iff_isEncoded.mpr ht),
    Text.isLine_quoted t, fun before after => Text.indent_quoted before t after,
    Text.quoted_sanitise t⟩

/-- A quote, a backslash, a line feed, a control character, a character without its last octet, a
letter and a surrogate. -/
def mixedText : Text := [0x22, 0x5C, 0x0A, 0x01, 0xE2, 0x82, 0x61, 0xED, 0xA0, 0x80]

theorem isRead_literal_mixed : ("\x7d" : Text).head? ≠ some Octet.quote ∧
    IsRead ("\"\\\"\\\\\\n\\u0001\uFFFDa\uFFFD\uFFFD\uFFFD\"\x7d" : Text)
      (.string ("\"\\\n\x01\uFFFDa\uFFFD\uFFFD\uFFFD" : Text)) "\x7d" := by
  have hrest : ("\x7d" : Text).head? ≠ some Octet.quote := by decide
  have hliteral : mixedText.quoted ++ "\x7d" =
      "\"\\\"\\\\\\n\\u0001\uFFFDa\uFFFD\uFFFD\uFFFD\"\x7d" := by decide +kernel
  have hvalue : Utf8.sanitise mixedText = "\"\\\n\x01\uFFFDa\uFFFD\uFFFD\uFFFD" := by
    decide +kernel
  have hread := (isRead_literal mixedText "\x7d" hrest).1
  rw [hliteral, hvalue] at hread
  exact ⟨hrest, hread⟩

end Scan

end QueryCompiler
