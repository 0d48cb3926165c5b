import QueryCompiler.Proofs.Number.Grammar
import QueryCompiler.Proofs.Source.Reading
import QueryCompiler.Proofs.Text.Grammar

/-!
# The lexical grammar

Sources split into gaps and tokens. The grammar says so as relations of a text and the text that is
left: `Gap` for what stands between tokens, `Lexes` for one token that is as long as it can be, and
`Splits` for a whole text. A scan finds the split of a text if there is one (`splits_iff`), so a text
has at most one, and it goes through exactly if there is one (`splits_of_isComplete`).
-/

namespace QueryCompiler

namespace Number

/-- The octet may not follow a numeric literal: a digit, a point, or the start of a name. -/
def mayNotFollow (c : UInt8) : Bool := Octet.isDigit c || c == Octet.dot || Octet.isNameStart c

theorem ends_of_avoids {t : Text} (h : Avoids mayNotFollow t) : Ends t := by
  have hclass : ∀ c, mayNotFollow c = false → Octet.isDigit c = false ∧ (c == Octet.dot) = false ∧
      Octet.isExponentMark c = false := Octet.forall_octet (by decide +kernel)
  exact ⟨fun c hc => (hclass c (h c hc)).1, fun c hc => (hclass c (h c hc)).2.1,
    fun c hc => (hclass c (h c hc)).2.2⟩

theorem IsLiteral.start {isFloat : Bool} {t : Text} (h : IsLiteral isFloat t) :
    ∃ c more, t = c :: more ∧ (c = Octet.minus ∨ Octet.isDigit c = true) := by
  obtain ⟨_, fraction, scale, rfl, ⟨sign, digits, rfl, hs, hd, -⟩, -, -, -⟩ := h
  rcases hs with rfl | ⟨c, hc, rfl⟩
  · obtain ⟨c, digits, rfl⟩ := List.exists_cons_of_ne_nil hd.1
    exact ⟨c, digits ++ (fraction ++ scale), rfl, Or.inr (hd.2 c List.mem_cons_self)⟩
  · exact ⟨c, digits ++ (fraction ++ scale), rfl, Or.inl (by simpa using hc)⟩

/-- A text that is read as a number is a literal. -/
theorem isLiteral_of_isNumber {isFloat : Bool} {t : Text} (h : t.IsNumber isFloat) :
    IsLiteral isFloat t := by
  have hends : Ends [] := ends_of_avoids fun c hc => by cases hc
  have hextent := h.extent [] hends
  rw [List.append_nil] at hextent
  obtain ⟨literal, rest, rfl, hlen, hliteral, -⟩ := isLiteral_of_literalExtent hextent
  obtain rfl : rest = [] := by simpa using hlen
  rwa [List.append_nil]

end Number

namespace Scan

open Number (Avoids IsLiteral mayNotFollow)

/-! ### The grammar -/

/-- A gap at the front of a text, and what is left: a space, tab, line terminator or comma, a comment
up to the end of its line, or a byte order mark. -/
inductive Gap : Text → Text → Prop
  | separator {c : UInt8} (rest : Text) : isSeparator c = true → Gap (c :: rest) rest
  | comment {line rest : Text} : (∀ c ∈ line, Octet.isLineTerminator c = false) →
      (∀ c, rest.head? = some c → Octet.isLineTerminator c = true) →
      Gap (Octet.hash :: (line ++ rest)) rest
  | mark (rest : Text) : Gap (byteOrderMark ++ rest) rest

/-- A token at the front of a text, as long as it can be, and what is left. Strings are known by
their value. -/
inductive Lexes : Text → Token → Text → Prop
  | punctuator (p : Punctuator) (rest : Text) : Lexes (p.octet :: rest) (.punctuator p) rest
  | spread (rest : Text) : Lexes (spreadMark ++ rest) .spread rest
  | name {text rest : Text} : text.IsName → Avoids Octet.isNameContinue rest →
      Lexes (text ++ rest) (.name text) rest
  | int {literal rest : Text} : IsLiteral false literal → Avoids mayNotFollow rest →
      Lexes (literal ++ rest) (.int literal) rest
  | float {literal rest : Text} : IsLiteral true literal → Avoids mayNotFollow rest →
      Lexes (literal ++ rest) (.float literal) rest
  | quoted {t value rest : Text} : ¬ [Octet.quote, Octet.quote] <+: t → t.QuotedBody value rest →
      Lexes (Octet.quote :: t) (.string value) rest
  | block {t raw rest : Text} : t.BlockBody raw rest →
      Lexes (Text.blockQuote ++ t) (.string raw.dedent) rest

/-- The text consists of the tokens, with gaps before, between and after them. -/
inductive Splits : Text → List Token → Prop
  | nil : Splits [] []
  | gap {t rest : Text} {tokens : List Token} : Gap t rest → Splits rest tokens → Splits t tokens
  | token {t rest : Text} {token : Token} {tokens : List Token} : Lexes t token rest →
      Splits rest tokens → Splits t (token :: tokens)

/-! ### Gaps -/

theorem Gap.ignored {t rest : Text} (h : Gap t rest) : ∃ c more n, t = c :: more ∧
    ignored c more = n + 1 ∧ more.drop n = rest := by
  cases h with
  | @separator c rest hc => exact ⟨c, rest, 0, rfl, by rw [Scan.ignored, if_pos hc], rfl⟩
  | @comment line rest hline hrest =>
    refine ⟨Octet.hash, line ++ rest, line.length, rfl, ?_, List.drop_left⟩
    have hrun : (line ++ rest).takeWhile (fun d => !Octet.isLineTerminator d) = line :=
      Number.takeWhile_append (fun d hd => by rw [hline d hd]; rfl)
        fun d hd => by rw [hrest d hd]; rfl
    rw [Scan.ignored, if_neg (by decide), if_pos rfl, hrun, Nat.add_comm]
  | mark =>
    have hmark : byteOrderMark.isPrefixOf (0xEF :: ([0xBB, 0xBF] ++ rest)) = true :=
      List.isPrefixOf_iff_prefix.mpr ⟨rest, rfl⟩
    refine ⟨0xEF, [0xBB, 0xBF] ++ rest, 2, rfl, ?_, rfl⟩
    rw [Scan.ignored, if_neg (by decide), if_neg (by decide), if_pos hmark]

theorem gap_of_ignored {c : UInt8} {more : Text} {n : Nat} (h : ignored c more = n + 1) :
    Gap (c :: more) (more.drop n) := by
  unfold ignored at h
  split_ifs at h with hc hh hm
  · obtain rfl := Nat.succ.inj h
    exact .separator more hc
  · obtain rfl : (more.takeWhile fun d => !Octet.isLineTerminator d).length = n := by omega
    subst hh
    have hsplit := List.takeWhile_append_dropWhile (p := fun d => !Octet.isLineTerminator d) (l := more)
    have hdrop : more.drop (more.takeWhile fun d => !Octet.isLineTerminator d).length =
        more.dropWhile fun d => !Octet.isLineTerminator d := by
      conv_lhs => rw [← hsplit]
      rw [List.drop_left' (by rw [hsplit])]
    rw [hdrop]
    conv => arg 1; rw [← hsplit]
    refine .comment (fun d hd => ?_) fun d hd => ?_
    · have := List.all_eq_true.mp List.all_takeWhile d hd
      simpa using this
    · have := List.head?_dropWhile_not (fun d => !Octet.isLineTerminator d) more
      rw [hd] at this
      simpa using this
  · obtain rfl : 2 = n := by omega
    obtain ⟨after, hafter⟩ := List.isPrefixOf_iff_prefix.mp hm
    rw [← hafter]
    obtain ⟨-, rfl⟩ := List.cons.inj hafter
    exact .mark after

/-! ### Tokens -/

/-- The token is read at the front of a text, of which some is left. -/
def IsRead (t : Text) (token : Token) (rest : Text) : Prop :=
  ∃ c more n, t = c :: more ∧ ignored c more = 0 ∧ readToken c more = .token token (n + 1) ∧
    more.drop n = rest

theorem isRead_name {text rest : Text} (h : text.IsName) (hr : Avoids Octet.isNameContinue rest) :
    IsRead (text ++ rest) (.name text) rest := by
  obtain ⟨c, more, rfl, hc, hm⟩ := h
  have hclass : ∀ c, Octet.isNameStart c = true → isSeparator c = false ∧ c ≠ Octet.hash ∧
      c ≠ 0xEF ∧ Punctuator.ofOctet? c = none := Octet.forall_octet (by decide +kernel)
  obtain ⟨hs, hh, hmark, hp⟩ := hclass c hc
  have hrun : (more ++ rest).takeWhile Octet.isNameContinue = more :=
    Number.takeWhile_append hm hr
  refine ⟨c, more ++ rest, more.length, rfl, ignored_eq_zero _ hs hh hmark, ?_, List.drop_left⟩
  rw [readToken, hp]
  simp only [hc, if_true, hrun, List.length_cons]

theorem isRead_number {isFloat : Bool} {literal rest : Text} (h : IsLiteral isFloat literal)
    (hr : Avoids mayNotFollow rest) :
    IsRead (literal ++ rest) (if isFloat then .float literal else .int literal) rest := by
  obtain ⟨c, more, rfl, hc⟩ := h.start
  have hclass : ∀ c, (c = Octet.minus ∨ Octet.isDigit c = true) → isSeparator c = false ∧
      c ≠ Octet.hash ∧ c ≠ 0xEF := Octet.forall_octet (by decide +kernel)
  obtain ⟨hs, hh, hmark⟩ := hclass c hc
  refine ⟨c, more ++ rest, more.length, rfl, ignored_eq_zero _ hs hh hmark, ?_, List.drop_left⟩
  have hrun : (rest.head?.any fun c => c == Octet.dot || Octet.isNameStart c) = false := by
    refine Avoids.any_head? fun c hc => ?_
    have := hr c hc
    unfold mayNotFollow at this
    rw [Bool.or_assoc, Bool.or_eq_false_iff] at this
    exact this.2
  rw [readToken_number hc, ← List.cons_append, readNumber,
    Number.literalExtent_append h (Number.ends_of_avoids hr)]
  simp only [List.drop_left, hrun, Bool.false_eq_true, if_false, List.take_left]
  cases isFloat <;> rfl

theorem readToken_quote (rest : Text) :
    readToken Octet.quote rest = readString (Octet.quote :: rest) := rfl

theorem ignored_quote (rest : Text) : ignored Octet.quote rest = 0 :=
  ignored_eq_zero rest rfl (by decide) (by decide)

/-- **A token of the grammar is read.** -/
theorem Lexes.isRead {t rest : Text} {token : Token} (h : Lexes t token rest) :
    IsRead t token rest := by
  cases h with
  | punctuator p =>
    refine ⟨p.octet, rest, 0, rfl, ?_, ?_, rfl⟩
    · exact ignored_eq_zero rest (by cases p <;> rfl) (by cases p <;> decide) (by cases p <;> decide)
    · rw [readToken, Punctuator.ofOctet?_octet]
  | spread =>
    refine ⟨Octet.dot, [Octet.dot, Octet.dot] ++ rest, 2, rfl, ?_, ?_, rfl⟩
    · exact ignored_eq_zero _ rfl (by decide) (by decide)
    · cases rest <;> rfl
  | name hn hr => exact isRead_name hn hr
  | int hl hr => exact isRead_number hl hr
  | float hl hr => exact isRead_number hl hr
  | @quoted t value _ hne hbody =>
    obtain ⟨k, hk, hread⟩ := hbody.readQuotedFrom
    refine ⟨Octet.quote, t, k, rfl, ignored_quote t, ?_, hk⟩
    have hblock : Text.blockQuote.isPrefixOf (Octet.quote :: t) = false := by
      rw [Bool.eq_false_iff]
      intro hp
      exact hne ((List.prefix_cons_inj Octet.quote).mp (List.isPrefixOf_iff_prefix.mp hp))
    rw [readToken_quote, readString, hblock]
    simp only [Bool.false_eq_true, if_false, List.drop_one, List.tail_cons, Text.readQuoted,
      hread, List.reverse_nil, List.nil_append]
    congr 1
    omega
  | @block t raw _ hbody =>
    obtain ⟨k, hk, hread⟩ := hbody.readBlockFrom
    refine ⟨Octet.quote, [Octet.quote, Octet.quote] ++ t, k + 2, rfl, ignored_quote _, ?_, ?_⟩
    · have hblock : Text.blockQuote.isPrefixOf (Octet.quote :: ([Octet.quote, Octet.quote] ++ t)) =
          true := List.isPrefixOf_iff_prefix.mpr ⟨t, rfl⟩
      have hdrop : (Octet.quote :: ([Octet.quote, Octet.quote] ++ t)).drop 3 = t := rfl
      rw [readToken_quote, readString, if_pos hblock, hdrop, Text.readBlock, hread]
      simp only [List.reverse_nil, List.nil_append]
      congr 1
      omega
    · rw [Nat.add_comm, ← List.drop_drop]
      exact hk

theorem lexes_of_readNumber {t : Text} {token : Token} {n : Nat}
    (h : readNumber t = .token token n) : Lexes t token (t.drop n) := by
  unfold readNumber at h
  cases he : Number.literalExtent t with
  | error e => rw [he] at h; cases h
  | ok extent =>
    obtain ⟨literal, rest, rfl, hlen, hliteral, hdigit⟩ := Number.isLiteral_of_literalExtent he
    rw [he] at h
    simp only [← hlen, List.drop_left, List.take_left] at h
    by_cases hrun : (rest.head?.any fun c => c == Octet.dot || Octet.isNameStart c) = true
    · rw [if_pos hrun] at h
      cases h
    rw [if_neg hrun] at h
    have havoids : Avoids mayNotFollow rest := by
      intro c hc
      rw [hc, Option.any_some, Bool.not_eq_true] at hrun
      rw [mayNotFollow, Bool.or_assoc, hdigit c hc, hrun]
      rfl
    cases hfloat : extent.isFloat with
    | true =>
      rw [hfloat] at h hliteral
      cases h
      rw [List.drop_left]
      exact .float hliteral havoids
    | false =>
      rw [hfloat] at h hliteral
      cases h
      rw [List.drop_left]
      exact .int hliteral havoids

theorem lexes_of_readString {t : Text} {token : Token} {n : Nat}
    (h : readString (Octet.quote :: t) = .token token n) :
    Lexes (Octet.quote :: t) token ((Octet.quote :: t).drop n) := by
  unfold readString at h
  split_ifs at h with hblock
  · obtain ⟨after, hafter⟩ := List.isPrefixOf_iff_prefix.mp hblock
    have hdrop : (Octet.quote :: t).drop 3 = after := by rw [← hafter]; rfl
    rw [hdrop] at h
    cases hr : Text.readBlock after with
    | error e => rw [hr] at h; cases h
    | ok r =>
      rw [hr] at h
      obtain ⟨raw, k, hbody, rfl⟩ := Text.blockBody_of_readBlockFrom hr
      cases h
      rw [← List.drop_drop, hdrop, Nat.zero_add, ← hafter]
      exact .block hbody
  · rw [List.drop_one, List.tail_cons] at h
    cases hr : Text.readQuoted Octet.isLineTerminator t with
    | error e => rw [hr] at h; cases h
    | ok r =>
      rw [hr] at h
      obtain ⟨value, k, hbody, rfl⟩ := Text.quotedBody_of_readQuotedFrom hr
      cases h
      rw [Nat.zero_add, Nat.add_comm, List.drop_succ_cons]
      refine .quoted (fun hp => hblock ?_) hbody
      exact List.isPrefixOf_iff_prefix.mpr ((List.prefix_cons_inj Octet.quote).mpr hp)

/-- **What is read is a token of the grammar.** -/
theorem lexes_of_readToken {c : UInt8} {more : Text} {token : Token} {n : Nat}
    (h : readToken c more = .token token n) : Lexes (c :: more) token ((c :: more).drop n) := by
  unfold readToken at h
  cases hp : Punctuator.ofOctet? c with
  | some p =>
    rw [hp] at h
    cases h
    rw [← Punctuator.octet_of_ofOctet? hp]
    exact .punctuator p more
  | none =>
    rw [hp] at h
    simp only at h
    split_ifs at h with hname hquote hnumber hspread
    · cases h
      have hsplit := List.takeWhile_append_dropWhile (p := Octet.isNameContinue) (l := more)
      have htext : c :: more = (c :: more.takeWhile Octet.isNameContinue) ++
          more.dropWhile Octet.isNameContinue := by rw [List.cons_append, hsplit]
      have hdrop : (c :: more).drop (c :: more.takeWhile Octet.isNameContinue).length =
          more.dropWhile Octet.isNameContinue := by
        conv_lhs => rw [htext]
        rw [List.drop_left]
      rw [hdrop]
      conv => arg 1; rw [htext]
      refine .name ⟨c, _, rfl, hname, List.all_eq_true.mp List.all_takeWhile⟩ fun d hd => ?_
      have := List.head?_dropWhile_not Octet.isNameContinue more
      rw [hd] at this
      exact this
    · subst hquote
      exact lexes_of_readString h
    · exact lexes_of_readNumber h
    · cases h
      obtain ⟨after, hafter⟩ := List.isPrefixOf_iff_prefix.mp hspread
      have hdrop : (c :: more).drop 3 = after := by rw [← hafter]; rfl
      rw [hdrop, ← hafter]
      exact .spread after

/-- **The tokens that are read are those of the grammar.** -/
theorem isRead_iff {t rest : Text} {token : Token} : IsRead t token rest ↔ Lexes t token rest := by
  refine ⟨?_, Lexes.isRead⟩
  rintro ⟨c, more, n, rfl, -, hr, rfl⟩
  exact lexes_of_readToken hr

/-- A token takes something. -/
theorem Lexes.length_ne_zero {t : Text} {token : Token} {n : Nat} (h : Lexes t token (t.drop n)) :
    n ≠ 0 := by
  rintro rfl
  obtain ⟨c, more, k, rfl, -, -, hrest⟩ := h.isRead
  have := congrArg List.length hrest
  rw [List.length_drop, List.drop_zero, List.length_cons] at this
  omega

/-! ### Splits -/

/-- **A text is cut into tokens exactly as the grammar splits it.** -/
theorem splits_iff {t : Text} {tokens : List Token} : Splits t tokens ↔ lex t = some tokens := by
  constructor
  · intro h
    induction h with
    | nil => exact lex_nil
    | gap hgap _ ih =>
      obtain ⟨c, more, n, rfl, hi, rfl⟩ := hgap.ignored
      rw [lex_ignored hi, ih]
    | token htoken _ ih =>
      obtain ⟨c, more, n, rfl, hi, hr, rfl⟩ := htoken.isRead
      rw [lex_token hi hr, Nat.add_sub_cancel, ih]
      rfl
  · intro h
    fun_induction lex t generalizing tokens with
    | case1 =>
      obtain rfl := Option.some.inj h
      exact .nil
    | case2 c rest n hi ih => exact .gap (gap_of_ignored hi) (ih h)
    | case3 c rest hi token n hr ih =>
      obtain ⟨tokens', ht, rfl⟩ := Option.map_eq_some_iff.mp h
      have hlexes := lexes_of_readToken hr
      obtain ⟨k, rfl⟩ := Nat.exists_eq_succ_of_ne_zero hlexes.length_ne_zero
      exact .token hlexes (ih ht)
    | case4 => cases h

theorem exists_lex_of_isComplete (place : Location) (lexemes : List Lexeme) (t : Text)
    (h : (scanFrom place lexemes t).isComplete = true) : ∃ tokens, lex t = some tokens := by
  fun_induction scanFrom place lexemes t with
  | case1 => exact ⟨[], lex_nil⟩
  | case2 place lexemes c rest n hi ih => rw [lex_ignored hi]; exact ih h
  | case3 place lexemes c rest hi token n hr stop ih =>
    obtain ⟨tokens, ht⟩ := ih h
    exact ⟨token :: tokens, by rw [lex_token hi hr, ht]; rfl⟩
  | case4 => cases h

/-- **A scan that goes through splits its source.** -/
theorem splits_of_isComplete {t : Text} (h : (scan t).isComplete = true) :
    Splits t (scan t).tokens := by
  obtain ⟨tokens, ht⟩ := exists_lex_of_isComplete {} [] t h
  rw [(scan_holds ht).tokens_eq]
  exact splits_iff.mpr ht

theorem Splits.holds {t : Text} {tokens : List Token} (h : Splits t tokens) :
    (scan t).Holds tokens :=
  scan_holds (splits_iff.mp h)

end Scan

end QueryCompiler
