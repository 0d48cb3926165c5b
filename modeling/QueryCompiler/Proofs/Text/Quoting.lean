import QueryCompiler.Text.Literal
import QueryCompiler.Text.Quoted
import Mathlib.Tactic.SplitIfs

/-!
# Quoted literals are read back

A sanitised text has no strays, so sanitising it again changes nothing (`sanitise_sanitise`). The
spelling of an octet inside a literal is read as that octet, whatever follows it
(`readQuotedFrom_escapeOctet`), and so a literal is read as the sanitised text that it quotes
(`readQuoted_quoted`).
-/

namespace QueryCompiler

namespace Utf8

/-! ### Sanitised texts -/

theorem continuation_append : ∀ {n : Nat} {low high : UInt8} {t : Text},
    (continuation n low high t).length = n → ∀ rest,
      continuation n low high (continuation n low high t ++ rest) = continuation n low high t
  | 0, _, _, _, _, rest => by simp only [continuation]
  | n + 1, low, high, [], h, _ => by cases h
  | n + 1, low, high, c :: t, h, rest => by
    rw [continuation] at h ⊢
    split_ifs at h ⊢ with hc
    rw [List.cons_append, continuation, if_pos hc, continuation_append (by simpa using h)]

/-- A character is cut off the same way, whatever follows it. -/
theorem pieceAt_append {c : UInt8} {t more : Text} (h : pieceAt c t = .character (c :: more))
    (rest : Text) : pieceAt c (more ++ rest) = .character (c :: more) := by
  unfold pieceAt at h ⊢
  cases hl : lead? c with
  | none => rw [hl] at h; cases h
  | some l =>
    obtain ⟨n, low, high⟩ := l
    rw [hl] at h
    simp only at h ⊢
    split_ifs at h with hlen
    obtain rfl : continuation n low high t = more := by simpa using h
    rw [continuation_append hlen, if_pos hlen]

/-- The character is cut off at the front of every text that starts with it. -/
def IsCharacter (octets : Text) : Prop :=
  ∃ c more, octets = c :: more ∧ ∀ rest, pieceAt c (more ++ rest) = .character octets

theorem isCharacter_of_pieceAt {c : UInt8} {t octets : Text}
    (h : pieceAt c t = .character octets) : IsCharacter octets := by
  obtain ⟨more, hm, -⟩ := octets_pieceAt c t
  rw [h] at hm
  obtain rfl : octets = c :: more := hm
  exact ⟨c, more, rfl, fun rest => pieceAt_append h rest⟩

theorem isCharacter_replacement : IsCharacter replacement :=
  ⟨0xEF, [0xBF, 0xBD], rfl, fun rest => by
    cases rest with
    | nil => rfl
    | cons c rest => rfl⟩

theorem sanitise_character {octets : Text} (h : IsCharacter octets) (rest : Text) :
    sanitise (octets ++ rest) = octets ++ sanitise rest := by
  obtain ⟨c, more, rfl, hp⟩ := h
  unfold sanitise
  rw [List.cons_append, pieces, hp, List.flatMap_cons]
  show (c :: more) ++ _ = _
  rw [show (Piece.character (c :: more)).octets.length - 1 = more.length from rfl, List.drop_left]

theorem sanitise_cons (c : UInt8) (t : Text) : ∃ octets, IsCharacter octets ∧
    sanitise (c :: t) = octets ++ sanitise (t.drop ((pieceAt c t).octets.length - 1)) := by
  unfold sanitise
  rw [pieces, List.flatMap_cons]
  cases h : pieceAt c t with
  | character octets => exact ⟨octets, isCharacter_of_pieceAt h, rfl⟩
  | stray octets => exact ⟨replacement, isCharacter_replacement, rfl⟩

/-- **Sanitising twice is sanitising once.** -/
@[simp] theorem sanitise_sanitise (t : Text) : sanitise (sanitise t) = sanitise t := by
  fun_induction pieces t with
  | case1 => simp [sanitise, pieces]
  | case2 c rest ih =>
    obtain ⟨octets, ho, hs⟩ := sanitise_cons c rest
    rw [hs, sanitise_character ho, ih]

/-- **Sanitising changes nothing in well-formed text.** -/
theorem sanitise_of_wellFormed {t : Text} (h : wellFormed t = true) : sanitise t = t := by
  refine Eq.trans ?_ (flatten_pieces t)
  unfold wellFormed at h
  unfold sanitise
  generalize pieces t = ps at h ⊢
  induction ps with
  | nil => rfl
  | cons p ps ih =>
    rw [List.all_cons, Bool.and_eq_true] at h
    rw [List.flatMap_cons, List.flatMap_cons, ih h.2]
    cases p with
    | character octets => rfl
    | stray octets => exact absurd h.1 Bool.false_ne_true

end Utf8

namespace Text

/-! ### Reading a literal back -/

theorem codeUnitFrom_hexDigit (k value before : Nat) {n : Nat} (hn : n < 16) (t : Text) :
    codeUnitFrom (k + 1) value before (hexDigit n :: t) =
      codeUnitFrom k (16 * value + n) (before + 1) t := by
  rw [codeUnitFrom, hexValue?_hexDigit n hn]

/-- The code unit of a control character. -/
theorem codeUnit_control {c : UInt8} (h : c < 0x20) (t : Text) :
    codeUnit ("00" ++ (hexOctet c ++ t)) = .ok c.toNat := by
  have hc : c.toNat < 32 := by simpa [UInt8.lt_iff_toNat_lt] using h
  show codeUnitFrom (3 + 1) 0 0 (hexDigit 0 :: hexDigit 0 :: hexDigit (c.toNat / 16) ::
    hexDigit (c.toNat % 16) :: t) = _
  rw [codeUnitFrom_hexDigit _ _ _ (by omega), codeUnitFrom_hexDigit _ _ _ (by omega),
    codeUnitFrom_hexDigit _ _ _ (by omega), codeUnitFrom_hexDigit _ _ _ (by omega), codeUnitFrom]
  congr 1
  omega

theorem readUnicodeEscape_control {c : UInt8} (h : c < 0x20) (t : Text) :
    readUnicodeEscape ("00" ++ (hexOctet c ++ t)) = .ok ⟨[c], 4⟩ := by
  have hc : c.toNat < 32 := by simpa [UInt8.lt_iff_toNat_lt] using h
  have hhigh : isHighSurrogate c.toNat = false := by
    unfold isHighSurrogate
    rw [decide_eq_false (by omega : ¬ 0xD800 ≤ c.toNat), Bool.false_and]
  have hencode : Utf8.encode c.toNat = [c] := by
    rw [Utf8.encode, if_pos (by omega)]
    simp
  unfold readUnicodeEscape
  rw [codeUnit_control h]
  simp only [hhigh, Bool.false_and, Bool.false_eq_true, if_false, hencode]

/-- **The spelling of an octet is read as the octet**, in literals that line terminators end. -/
theorem readQuotedFrom_escapeOctet (c : UInt8) (done : Text) (n : Nat) (t : Text) :
    readQuotedFrom Octet.isLineTerminator done n (escapeOctet c ++ t) =
      readQuotedFrom Octet.isLineTerminator (c :: done) (n + (escapeOctet c).length) t := by
  -- An escape of two octets stands for the octet of its letter.
  have hsimple : ∀ letter : UInt8, simpleEscape? letter = some c →
      escapeOctet c = [Octet.backslash, letter] →
      readQuotedFrom Octet.isLineTerminator done n (escapeOctet c ++ t) =
        readQuotedFrom Octet.isLineTerminator (c :: done) (n + (escapeOctet c).length) t := by
    intro letter hl he
    rw [he, List.cons_append, List.cons_append, List.nil_append, readQuotedFrom, readEscape, hl]
    rfl
  by_cases h1 : c = Octet.quote
  · subst h1; exact hsimple Octet.quote rfl rfl
  by_cases h2 : c = Octet.backslash
  · subst h2; exact hsimple Octet.backslash rfl rfl
  by_cases h3 : c = 0x08
  · subst h3; exact hsimple 0x62 rfl rfl
  by_cases h4 : c = 0x0C
  · subst h4; exact hsimple 0x66 rfl rfl
  by_cases h5 : c = Octet.lf
  · subst h5; exact hsimple 0x6E rfl rfl
  by_cases h6 : c = Octet.cr
  · subst h6; exact hsimple 0x72 rfl rfl
  by_cases h7 : c = Octet.tab
  · subst h7; exact hsimple 0x74 rfl rfl
  unfold escapeOctet
  rw [if_neg h1, if_neg h2, if_neg h3, if_neg h4, if_neg h5, if_neg h6, if_neg h7]
  by_cases h8 : c < 0x20
  · rw [if_pos h8]
    show readQuotedFrom _ _ _ (Octet.backslash :: 0x75 :: ("00" ++ (hexOctet c ++ t))) = _
    have he : readEscape (0x75 :: ("00" ++ (hexOctet c ++ t))) = .ok ⟨[c], 1 + 4⟩ := by
      rw [readEscape, show simpleEscape? 0x75 = none from rfl]
      simp only [if_true, readUnicodeEscape_control h8]
    rw [readQuotedFrom, if_neg (by decide), if_neg (by decide), if_pos rfl, he]
    rfl
  · rw [if_neg h8, List.singleton_append, readQuotedFrom, if_neg, if_neg h1, if_neg h2]
    · rfl
    · simp [Octet.isLineTerminator, h5, h6]

theorem readQuotedFrom_flatMap (t : Text) (done : Text) (n : Nat) (rest : Text) :
    readQuotedFrom Octet.isLineTerminator done n (t.flatMap escapeOctet ++ Octet.quote :: rest) =
      .ok ⟨done.reverse ++ t, n + (t.flatMap escapeOctet).length + 1⟩ := by
  induction t generalizing done n with
  | nil =>
    rw [List.flatMap_nil, List.nil_append, readQuotedFrom, if_neg (by decide), if_pos rfl,
      List.append_nil]
    rfl
  | cons c t ih =>
    rw [List.flatMap_cons, List.append_assoc, readQuotedFrom_escapeOctet, ih, List.reverse_cons,
      List.append_assoc, List.singleton_append, List.length_append, Nat.add_assoc n]

/-- **A literal is read as the sanitised text that it quotes.** -/
theorem readQuoted_quoted (t rest : Text) :
    readQuoted Octet.isLineTerminator ((quoted t ++ rest).drop 1) =
      .ok ⟨Utf8.sanitise t, (quoted t).length - 1⟩ := by
  have h := readQuotedFrom_flatMap (Utf8.sanitise t) [] 0 rest
  rw [quoted, List.cons_append, List.drop_one, List.tail_cons, List.append_assoc,
    List.singleton_append, readQuoted, h]
  simp

theorem head?_escapeOctet (c : UInt8) (rest : Text) :
    (escapeOctet c ++ rest).head? ≠ some Octet.quote := by
  unfold escapeOctet
  split_ifs with h1 h2 h3 h4 h5 h6 h7 h8
  case neg => exact fun h => h1 (Option.some.inj h)
  all_goals exact fun h => absurd (Option.some.inj h) (by decide)

@[simp] theorem quoted_sanitise (t : Text) : quoted (Utf8.sanitise t) = quoted t := by
  rw [quoted, Utf8.sanitise_sanitise, quoted]

end Text

end QueryCompiler
