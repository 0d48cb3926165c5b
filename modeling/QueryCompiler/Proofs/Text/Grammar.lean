import QueryCompiler.Text.Literal
import Mathlib.Tactic.SplitIfs

/-!
# The grammar of string literals

What stands between the quotes of a literal and what it means, as relations of a text, a meaning and
the text that is left: `Escape` after a backslash, `QuotedBody` after a quote and `BlockBody` after
three. The readers find what these relations allow (`Escape.readEscape`, `QuotedBody.readQuotedFrom`,
`BlockBody.readBlockFrom`) and nothing else (`escape_of_readEscape`, `quotedBody_of_readQuotedFrom`,
`blockBody_of_readBlockFrom`).
-/

namespace QueryCompiler.Text

/-! ### Escapes -/

/-- Four hexadecimal digits of a code unit. -/
def IsCodeUnit (digits : Text) (unit : Nat) : Prop :=
  ∃ c₁ c₂ c₃ c₄ d₁ d₂ d₃ d₄, digits = [c₁, c₂, c₃, c₄] ∧ Octet.hexValue? c₁ = some d₁ ∧
    Octet.hexValue? c₂ = some d₂ ∧ Octet.hexValue? c₃ = some d₃ ∧ Octet.hexValue? c₄ = some d₄ ∧
    unit = 16 * (16 * (16 * d₁ + d₂) + d₃) + d₄

/-- An escape after its backslash, what it means, and what is left. A high surrogate in front of
another Unicode escape must make a pair with it. -/
inductive Escape : Text → Text → Text → Prop
  | octet {c octet : UInt8} (rest : Text) : simpleEscape? c = some octet →
      Escape (c :: rest) [octet] rest
  | unit {digits : Text} {unit : Nat} (rest : Text) : IsCodeUnit digits unit →
      (isHighSurrogate unit = true → ¬ ("\\u" : Text) <+: rest) →
      Escape (0x75 :: (digits ++ rest)) (Utf8.encode unit) rest
  | pair {digits digits' : Text} {high low : Nat} (rest : Text) : IsCodeUnit digits high →
      isHighSurrogate high = true → IsCodeUnit digits' low → isLowSurrogate low = true →
      Escape (0x75 :: (digits ++ ("\\u" ++ (digits' ++ rest))))
        (Utf8.encode (ofSurrogates high low)) rest

theorem IsCodeUnit.length {digits : Text} {unit : Nat} (h : IsCodeUnit digits unit) :
    digits.length = 4 := by
  obtain ⟨_, _, _, _, _, _, _, _, rfl, -⟩ := h
  rfl

theorem codeUnit_append {digits : Text} {unit : Nat} (h : IsCodeUnit digits unit) (rest : Text) :
    codeUnit (digits ++ rest) = .ok unit := by
  obtain ⟨c₁, c₂, c₃, c₄, d₁, d₂, d₃, d₄, rfl, h₁, h₂, h₃, h₄, rfl⟩ := h
  simp [codeUnit, codeUnitFrom, h₁, h₂, h₃, h₄]

theorem codeUnitFrom_succ_ok {k value before unit : Nat} {t : Text}
    (h : codeUnitFrom (k + 1) value before t = .ok unit) : ∃ c rest digit, t = c :: rest ∧
      Octet.hexValue? c = some digit ∧
      codeUnitFrom k (16 * value + digit) (before + 1) rest = .ok unit := by
  cases t with
  | nil => cases h
  | cons c rest =>
    rw [codeUnitFrom] at h
    cases hc : Octet.hexValue? c with
    | none => rw [hc] at h; cases h
    | some digit => rw [hc] at h; exact ⟨c, rest, digit, rfl, hc, h⟩

theorem isCodeUnit_of_codeUnit {t : Text} {unit : Nat} (h : codeUnit t = .ok unit) :
    ∃ digits rest, t = digits ++ rest ∧ IsCodeUnit digits unit := by
  obtain ⟨c₁, r₁, d₁, rfl, h₁, h⟩ := codeUnitFrom_succ_ok h
  obtain ⟨c₂, r₂, d₂, rfl, h₂, h⟩ := codeUnitFrom_succ_ok h
  obtain ⟨c₃, r₃, d₃, rfl, h₃, h⟩ := codeUnitFrom_succ_ok h
  obtain ⟨c₄, r₄, d₄, rfl, h₄, h⟩ := codeUnitFrom_succ_ok h
  rw [codeUnitFrom] at h
  exact ⟨[c₁, c₂, c₃, c₄], r₄, rfl, c₁, c₂, c₃, c₄, d₁, d₂, d₃, d₄, rfl, h₁, h₂, h₃, h₄,
    by simpa using (Except.ok.inj h).symm⟩

theorem drop_codeUnit {digits : Text} {unit : Nat} (h : IsCodeUnit digits unit) (rest : Text) :
    (digits ++ rest).drop 4 = rest := by
  rw [← h.length, List.drop_left]

theorem drop_mark {digits : Text} {unit : Nat} (h : IsCodeUnit digits unit) (rest : Text) :
    (digits ++ ("\\u" ++ rest)).drop 6 = rest := by
  rw [show 6 = 4 + 2 from rfl, ← List.drop_drop, drop_codeUnit h]
  rfl

theorem readEscape_unit {t meaning : Text} {n : Nat} (h : readUnicodeEscape t = .ok ⟨meaning, n⟩) :
    readEscape (0x75 :: t) = .ok ⟨meaning, 1 + n⟩ := by
  rw [readEscape, show simpleEscape? 0x75 = none from rfl]
  simp only [if_true, h]

/-- **An escape is read** where there is one. -/
theorem Escape.readEscape {t meaning rest : Text} (h : Escape t meaning rest) :
    ∃ n, readEscape t = .ok ⟨meaning, n⟩ ∧ t.drop n = rest := by
  cases h with
  | octet rest ho =>
    refine ⟨1, ?_, rfl⟩
    rw [Text.readEscape, ho]
  | @unit digits unit rest hu hlone =>
    refine ⟨5, ?_, drop_codeUnit hu rest⟩
    have hpair : (isHighSurrogate unit && ("\\u" : Text).isPrefixOf rest) = false := by
      rw [Bool.and_eq_false_iff]
      cases hh : isHighSurrogate unit with
      | false => exact Or.inl rfl
      | true => exact Or.inr (Bool.eq_false_iff.mpr fun hp =>
          hlone hh (List.isPrefixOf_iff_prefix.mp hp))
    have hread : readUnicodeEscape (digits ++ rest) = .ok ⟨Utf8.encode unit, 4⟩ := by
      rw [readUnicodeEscape, codeUnit_append hu]
      simp only [drop_codeUnit hu, hpair, Bool.false_eq_true, if_false]
    exact readEscape_unit hread
  | @pair digits digits' high low rest hu hhigh hl hlow =>
    have hmark : ("\\u" : Text).isPrefixOf ("\\u" ++ (digits' ++ rest)) = true :=
      List.isPrefixOf_iff_prefix.mpr (List.prefix_append _ _)
    have hread : readUnicodeEscape (digits ++ ("\\u" ++ (digits' ++ rest))) =
        .ok ⟨Utf8.encode (ofSurrogates high low), 10⟩ := by
      rw [readUnicodeEscape, codeUnit_append hu]
      simp only [drop_codeUnit hu, hhigh, hmark, Bool.and_self, if_true, drop_mark hu,
        codeUnit_append hl, hlow]
    refine ⟨11, readEscape_unit hread, ?_⟩
    · show (digits ++ ("\\u" ++ (digits' ++ rest))).drop 10 = rest
      rw [show 10 = 6 + 4 from rfl, ← List.drop_drop, drop_mark hu, drop_codeUnit hl]

theorem escape_of_readUnicodeEscape {t : Text} {r : Read} (h : readUnicodeEscape t = .ok r) :
    Escape (0x75 :: t) r.meaning (t.drop r.length) := by
  unfold readUnicodeEscape at h
  cases hunit : codeUnit t with
  | error n => rw [hunit] at h; cases h
  | ok unit =>
    obtain ⟨digits, after, rfl, hdigits⟩ := isCodeUnit_of_codeUnit hunit
    rw [hunit] at h
    simp only [drop_codeUnit hdigits] at h
    by_cases hpair : (isHighSurrogate unit && ("\\u" : Text).isPrefixOf after) = true
    · rw [if_pos hpair] at h
      obtain ⟨hhigh, hmark⟩ := Bool.and_eq_true_iff.mp hpair
      obtain ⟨after', rfl⟩ := List.isPrefixOf_iff_prefix.mp hmark
      rw [drop_mark hdigits] at h
      cases hlow : codeUnit after' with
      | error n => rw [hlow] at h; cases h
      | ok low =>
        obtain ⟨digits', rest, rfl, hdigits'⟩ := isCodeUnit_of_codeUnit hlow
        rw [hlow] at h
        simp only at h
        by_cases hl : isLowSurrogate low = true
        · simp only [hl, if_true] at h
          obtain rfl := Except.ok.inj h
          have hrest : (digits ++ ("\\u" ++ (digits' ++ rest))).drop 10 = rest := by
            rw [show 10 = 6 + 4 from rfl, ← List.drop_drop, drop_mark hdigits,
              drop_codeUnit hdigits']
          simp only [hrest]
          exact .pair rest hdigits hhigh hdigits' hl
        · rw [if_neg hl] at h
          cases h
    · rw [if_neg hpair] at h
      obtain rfl := Except.ok.inj h
      refine (drop_codeUnit hdigits after).symm ▸ .unit after hdigits fun hhigh hmark => hpair ?_
      rw [hhigh, List.isPrefixOf_iff_prefix.mpr hmark]
      rfl

/-- **What is read as an escape is one.** -/
theorem escape_of_readEscape {t : Text} {r : Read} (h : readEscape t = .ok r) :
    Escape t r.meaning (t.drop r.length) := by
  cases t with
  | nil => cases h
  | cons c rest =>
    cases hc : simpleEscape? c with
    | some octet =>
      rw [readEscape, hc] at h
      obtain rfl := Except.ok.inj h
      exact .octet rest hc
    | none =>
      rw [readEscape, hc] at h
      simp only at h
      split_ifs at h with hu
      subst hu
      cases hr : readUnicodeEscape rest with
      | error e => rw [hr] at h; cases h
      | ok r' =>
        rw [hr] at h
        obtain rfl := Except.ok.inj h
        show Escape _ r'.meaning ((0x75 :: rest).drop (1 + r'.length))
        rw [Nat.add_comm, List.drop_succ_cons]
        exact escape_of_readUnicodeEscape hr

/-! ### Quoted literals -/

/-- A quoted literal after its first quote, what it means, and what is left after its last one. -/
inductive QuotedBody : Text → Text → Text → Prop
  | close (rest : Text) : QuotedBody (Octet.quote :: rest) [] rest
  | octet {c : UInt8} {t value rest : Text} : c ≠ Octet.quote → c ≠ Octet.backslash →
      Octet.isLineTerminator c = false → QuotedBody t value rest →
      QuotedBody (c :: t) (c :: value) rest
  | escape {t meaning t' value rest : Text} : Escape t meaning t' → QuotedBody t' value rest →
      QuotedBody (Octet.backslash :: t) (meaning ++ value) rest

/-- **A quoted literal is read** where there is one. -/
theorem QuotedBody.readQuotedFrom {t value rest : Text} (h : QuotedBody t value rest) :
    ∃ k, t.drop k = rest ∧ ∀ done n, readQuotedFrom Octet.isLineTerminator done n t =
      .ok ⟨done.reverse ++ value, n + k⟩ := by
  induction h with
  | close rest =>
    refine ⟨1, rfl, fun done n => ?_⟩
    rw [Text.readQuotedFrom, if_neg (by decide), if_pos rfl, List.append_nil]
  | @octet c t value rest hq hb hl _ ih =>
    obtain ⟨k, hk, hread⟩ := ih
    refine ⟨k + 1, hk, fun done n => ?_⟩
    rw [Text.readQuotedFrom, if_neg (by rw [hl]; exact Bool.false_ne_true), if_neg hq, if_neg hb,
      hread, List.reverse_cons, List.append_assoc, List.singleton_append, Nat.add_assoc,
      Nat.add_comm 1]
  | @escape t meaning t' value rest he _ ih =>
    obtain ⟨m, hm, rfl⟩ := he.readEscape
    obtain ⟨k, hk, hread⟩ := ih
    refine ⟨1 + m + k, ?_, fun done n => ?_⟩
    · rw [Nat.add_assoc, Nat.add_comm 1, List.drop_succ_cons, ← List.drop_drop, hk]
    · rw [Text.readQuotedFrom, if_neg (by decide), if_neg (by decide), if_pos rfl, hm]
      simp only [hread]
      rw [List.reverse_append, List.reverse_reverse, List.append_assoc]
      congr 2
      omega

/-- **What is read as a quoted literal is one.** -/
theorem quotedBody_of_readQuotedFrom {done : Text} {n : Nat} {t : Text} {r : Read}
    (h : readQuotedFrom Octet.isLineTerminator done n t = .ok r) :
    ∃ value k, QuotedBody t value (t.drop k) ∧ r = ⟨done.reverse ++ value, n + k⟩ := by
  fun_induction readQuotedFrom Octet.isLineTerminator done n t with
  | case1 => cases h
  | case2 => cases h
  | case3 done n rest hl =>
    cases h
    exact ⟨[], 1, .close rest, by rw [List.append_nil]⟩
  | case4 => cases h
  | case5 done n rest e he hl hq ih =>
    obtain ⟨value, k, hbody, rfl⟩ := ih h
    rw [List.drop_drop] at hbody
    refine ⟨e.meaning ++ value, 1 + e.length + k, ?_, ?_⟩
    · rw [Nat.add_assoc, Nat.add_comm 1, List.drop_succ_cons]
      exact .escape (escape_of_readEscape he) hbody
    · rw [List.reverse_append, List.reverse_reverse, List.append_assoc]
      congr 1
      omega
  | case6 done n c rest hl hq hb ih =>
    obtain ⟨value, k, hbody, rfl⟩ := ih h
    refine ⟨c :: value, k + 1, .octet hq hb (Bool.eq_false_iff.mpr hl) hbody, ?_⟩
    rw [List.reverse_cons, List.append_assoc, List.singleton_append, Nat.add_assoc, Nat.add_comm 1]

/-! ### Block literals -/

/-- A block literal after its first quotes, its raw octets, and what is left after its last quotes,
which are the first three in a row without a backslash in front of them. -/
inductive BlockBody : Text → Text → Text → Prop
  | close (rest : Text) : BlockBody (blockQuote ++ rest) [] rest
  | escaped {t raw rest : Text} : BlockBody t raw rest →
      BlockBody (Octet.backslash :: (blockQuote ++ t)) (blockQuote ++ raw) rest
  | octet {c : UInt8} {t raw rest : Text} : ¬ blockQuote <+: c :: t →
      ¬ Octet.backslash :: blockQuote <+: c :: t → BlockBody t raw rest →
      BlockBody (c :: t) (c :: raw) rest

/-- **A block literal is read** where there is one. -/
theorem BlockBody.readBlockFrom {t raw rest : Text} (h : BlockBody t raw rest) :
    ∃ k, t.drop k = rest ∧ ∀ done n, readBlockFrom done n t = .ok ⟨done.reverse ++ raw, n + k⟩ := by
  induction h with
  | close rest =>
    refine ⟨3, rfl, fun done n => ?_⟩
    have hq : blockQuote.isPrefixOf (blockQuote ++ rest) = true :=
      List.isPrefixOf_iff_prefix.mpr (List.prefix_append _ _)
    rw [show blockQuote ++ rest = Octet.quote :: ([Octet.quote, Octet.quote] ++ rest) from rfl] at hq ⊢
    rw [Text.readBlockFrom, if_pos hq, List.append_nil]
  | @escaped t raw rest _ ih =>
    obtain ⟨k, hk, hread⟩ := ih
    refine ⟨k + 4, ?_, fun done n => ?_⟩
    · rw [Nat.add_comm, ← List.drop_drop]
      exact hk
    · have hq : ¬ blockQuote.isPrefixOf (Octet.backslash :: (blockQuote ++ t)) = true := by
        intro h
        cases h
      have hb : (Octet.backslash :: blockQuote).isPrefixOf
          (Octet.backslash :: (blockQuote ++ t)) = true :=
        List.isPrefixOf_iff_prefix.mpr ⟨t, rfl⟩
      rw [Text.readBlockFrom, if_neg hq, if_pos hb]
      show Text.readBlockFrom (blockQuote ++ done) (n + 4) t = _
      rw [hread, List.reverse_append, List.append_assoc]
      congr 2
      omega
  | @octet c t raw rest hq hb _ ih =>
    obtain ⟨k, hk, hread⟩ := ih
    refine ⟨k + 1, hk, fun done n => ?_⟩
    rw [Text.readBlockFrom, if_neg fun h => hq (List.isPrefixOf_iff_prefix.mp h),
      if_neg fun h => hb (List.isPrefixOf_iff_prefix.mp h), hread, List.reverse_cons,
      List.append_assoc, List.singleton_append, Nat.add_assoc, Nat.add_comm 1]

/-- **What is read as a block literal is one.** -/
theorem blockBody_of_readBlockFrom {done : Text} {n : Nat} {t : Text} {r : Read}
    (h : readBlockFrom done n t = .ok r) :
    ∃ raw k, BlockBody t raw (t.drop k) ∧ r = ⟨done.reverse ++ raw, n + k⟩ := by
  fun_induction readBlockFrom done n t with
  | case1 => cases h
  | case2 done n c rest hq =>
    cases h
    obtain ⟨after, hafter⟩ := List.isPrefixOf_iff_prefix.mp hq
    rw [← hafter]
    exact ⟨[], 3, .close after, by rw [List.append_nil]⟩
  | case3 done n c rest hq hb ih =>
    obtain ⟨raw, k, hbody, rfl⟩ := ih h
    obtain ⟨after, hafter⟩ := List.isPrefixOf_iff_prefix.mp hb
    rw [List.cons_append] at hafter
    obtain ⟨rfl, rfl⟩ := List.cons.inj hafter
    refine ⟨blockQuote ++ raw, k + 4, ?_, ?_⟩
    · rw [Nat.add_comm, ← List.drop_drop]
      exact .escaped hbody
    · rw [List.reverse_append, List.append_assoc]
      congr 1
      omega
  | case4 done n c rest hq hb ih =>
    obtain ⟨raw, k, hbody, rfl⟩ := ih h
    refine ⟨c :: raw, k + 1, .octet (fun h => hq (List.isPrefixOf_iff_prefix.mpr h))
      (fun h => hb (List.isPrefixOf_iff_prefix.mpr h)) hbody, ?_⟩
    rw [List.reverse_cons, List.append_assoc, List.singleton_append, Nat.add_assoc, Nat.add_comm 1]

end QueryCompiler.Text
