import QueryCompiler.Source.Reader
import QueryCompiler.Proofs.Number.Literals
import QueryCompiler.Proofs.Text.Quoting

/-!
# The tokens of a text

A text is cut into tokens in the same way wherever it starts (`lex`, `scan_holds`). Names and numbers
among the tokens are spelled as names and numbers (`isSpelled_of_mem`), and what is spelled so is
read back in front of a break, like a string that is quoted (`spells_string`).

`Spells` says this of texts that are put together from tokens and gaps: it composes along `++`
(`Spells.append`, `Closed.append`) and along separators (`spells_joinNonEmpty`).
-/

namespace QueryCompiler

namespace Scan

/-! ### Tokens without their places -/

/-- The tokens of a text, if it can be cut into tokens up to its end. -/
def lex : Text → Option (List Token)
  | [] => some []
  | c :: rest =>
    match ignored c rest with
    | n + 1 => lex (rest.drop n)
    | 0 =>
      match readToken c rest with
      | .token token n => (lex (rest.drop (n - 1))).map (token :: ·)
      | .fault .. => none
termination_by t => t.length
decreasing_by all_goals simp only [List.length_drop, List.length_cons]; omega

theorem lex_nil : lex [] = some [] := by rw [lex]

theorem lex_ignored {c : UInt8} {rest : Text} {n : Nat} (h : ignored c rest = n + 1) :
    lex (c :: rest) = lex (rest.drop n) := by
  rw [lex, h]

theorem lex_token {c : UInt8} {rest : Text} {token : Token} {n : Nat} (hi : ignored c rest = 0)
    (hr : readToken c rest = .token token n) :
    lex (c :: rest) = (lex (rest.drop (n - 1))).map (token :: ·) := by
  rw [lex, hi]
  simp only [hr]

/-- The scan has gone through, with these tokens. -/
structure Holds (s : Scan) (tokens : List Token) : Prop where
  tokens_eq : s.tokens = tokens
  isComplete : s.isComplete = true

theorem scanFrom_holds {t : Text} {tokens : List Token} (h : lex t = some tokens)
    (place : Location) (lexemes : List Lexeme) :
    (scanFrom place lexemes t).Holds (lexemes.reverse.map Lexeme.token ++ tokens) := by
  fun_induction lex t generalizing place lexemes tokens with
  | case1 =>
    obtain rfl := Option.some.inj h
    rw [scanFrom, List.append_nil]
    exact ⟨rfl, rfl⟩
  | case2 c rest n hi ih =>
    rw [scanFrom, hi]
    exact ih h _ _
  | case3 c rest hi token n hr ih =>
    obtain ⟨tokens', ht, rfl⟩ := Option.map_eq_some_iff.mp h
    rw [scanFrom, hi]
    simp only [hr]
    have hs := ih ht (place.advance n (c :: rest))
      (⟨token, place, place.advance n (c :: rest)⟩ :: lexemes)
    rw [List.reverse_cons, List.map_append, List.append_assoc] at hs
    exact hs
  | case4 => cases h

/-- **The scan of a text that is cut into tokens has these tokens.** -/
theorem scan_holds {t : Text} {tokens : List Token} (h : lex t = some tokens) :
    (scan t).Holds tokens :=
  scanFrom_holds h {} []

end Scan

/-! ### Tokens as they are spelled -/

/-- The octet stops a name and a number, and is no quote. -/
def Octet.isBreak (c : UInt8) : Bool :=
  !Octet.isNameContinue c && c != Octet.dot && c != Octet.quote

/-- The text is empty or starts with a break. -/
def Text.Breaks (t : Text) : Prop := ∀ c, t.head? = some c → Octet.isBreak c = true

/-- The text is a name. -/
def Text.IsName (t : Text) : Prop :=
  ∃ c more, t = c :: more ∧ Octet.isNameStart c = true ∧ ∀ d ∈ more, Octet.isNameContinue d = true

/-- Whether the text is a name. -/
def Text.isName : Text → Bool
  | [] => false
  | c :: more => Octet.isNameStart c && more.all Octet.isNameContinue

theorem Text.isName_iff {t : Text} : t.isName = true ↔ t.IsName := by
  cases t with
  | nil =>
    constructor
    · intro h
      cases h
    · rintro ⟨c, more, h, -⟩
      cases h
  | cons c more =>
    rw [isName, Bool.and_eq_true, List.all_eq_true]
    constructor
    · exact fun h => ⟨c, more, rfl, h⟩
    · rintro ⟨c', more', he, h⟩
      obtain ⟨rfl, rfl⟩ := List.cons.inj he
      exact h

theorem Text.IsName.ne_nil {t : Text} (h : t.IsName) : t ≠ [] := by
  obtain ⟨c, more, rfl, -⟩ := h
  exact List.cons_ne_nil c more

theorem Text.IsName.forall_mem {t : Text} (h : t.IsName) :
    ∀ c ∈ t, Octet.isNameContinue c = true := by
  obtain ⟨c, more, rfl, hc, hmore⟩ := h
  exact List.forall_mem_cons.mpr ⟨Octet.isNameContinue_of_isNameStart hc, hmore⟩

instance (t : Text) : Decidable t.IsName := decidable_of_iff _ Text.isName_iff

/-- The text is a numeric literal, with a fraction or an exponent or without. -/
structure Text.IsNumber (isFloat : Bool) (t : Text) : Prop where
  start : ∃ c more, t = c :: more ∧ (c = Octet.minus ∨ Octet.isDigit c = true)
  extent : ∀ after, Number.Ends after → Number.literalExtent (t ++ after) = .ok ⟨t.length, isFloat⟩

namespace Token

/-- Names and numbers are spelled as such. -/
def IsSpelled : Token → Prop
  | .name text => text.IsName
  | .int literal => literal.IsNumber false
  | .float literal => literal.IsNumber true
  | _ => True

end Token

/-- The tokens are spelled as such. -/
def AreSpelled (tokens : List Token) : Prop := ∀ t ∈ tokens, t.IsSpelled

theorem areSpelled_cons {t : Token} {tokens : List Token} :
    AreSpelled (t :: tokens) ↔ t.IsSpelled ∧ AreSpelled tokens := List.forall_mem_cons

theorem areSpelled_append {tokens tokens' : List Token} :
    AreSpelled (tokens ++ tokens') ↔ AreSpelled tokens ∧ AreSpelled tokens' :=
  List.forall_mem_append

/-- Each of several parts is spelled as such. -/
theorem areSpelled_of_mem {α : Type} {source : α → List Token} {as : List α}
    (h : AreSpelled (as.map source).flatten) {a : α} (ha : a ∈ as) : AreSpelled (source a) :=
  fun t ht => h t (List.mem_flatten.mpr ⟨source a, List.mem_map_of_mem ha, ht⟩)

theorem Text.Breaks.ends {t : Text} (h : t.Breaks) : Number.Ends t := by
  have hc : ∀ c, Octet.isBreak c = true → Octet.isDigit c = false ∧ (c == Octet.dot) = false ∧
      Octet.isExponentMark c = false := Octet.forall_octet (by decide +kernel)
  exact ⟨fun c ht => (hc c (h c ht)).1, fun c ht => (hc c (h c ht)).2.1,
    fun c ht => (hc c (h c ht)).2.2⟩

theorem Text.Breaks.avoids {t : Text} (h : t.Breaks) : Number.Avoids Octet.isNameContinue t := by
  have hc : ∀ c, Octet.isBreak c = true → Octet.isNameContinue c = false :=
    Octet.forall_octet (by decide +kernel)
  exact fun c ht => hc c (h c ht)

theorem Text.Breaks.append {t after : Text} (h : t.Breaks) (ha : after.Breaks) :
    (t ++ after).Breaks := by
  intro c hc
  cases t with
  | nil => exact ha c hc
  | cons d t => exact h c hc

theorem Text.Breaks.head?_ne_quote {t : Text} (h : t.Breaks) : t.head? ≠ some Octet.quote := by
  intro hquote
  have hbreak := h Octet.quote hquote
  exact absurd hbreak (by decide)

theorem Text.breaks_nil : Text.Breaks [] := fun c hc => by cases hc

theorem Text.breaks_cons {c : UInt8} {t : Text} (h : Octet.isBreak c = true) :
    Text.Breaks (c :: t) := by
  intro d hd
  obtain rfl := Option.some.inj hd
  exact h

namespace Scan

theorem isNumber_of_extent {c : UInt8} {rest : Text} (hc : c = Octet.minus ∨ Octet.isDigit c = true)
    {extent : Number.LiteralExtent} (h : Number.literalExtent (c :: rest) = .ok extent) :
    Text.IsNumber extent.isFloat ((c :: rest).take extent.length) := by
  obtain ⟨literal, after, ht, hlen, hext⟩ := Number.literalExtent_ok h
  have htake : (c :: rest).take extent.length = literal := by
    rw [ht, ← hlen, List.take_left]
  rw [htake]
  refine ⟨?_, fun after' he => by rw [hext after' he, hlen]⟩
  cases literal with
  | nil =>
    -- No literal is empty: the empty text is read as none.
    have hnil := hext [] ⟨fun c h => (by cases h), fun c h => (by cases h), fun c h => (by cases h)⟩
    cases hnil
  | cons d literal =>
    obtain rfl : c = d := (List.cons.inj ht).1
    exact ⟨c, literal, rfl, hc⟩

theorem isSpelled_of_readToken {c : UInt8} {rest : Text} {token : Token} {n : Nat}
    (h : readToken c rest = .token token n) : token.IsSpelled := by
  unfold readToken at h
  split at h
  · cases h; trivial
  · split_ifs at h with hname hquote hnumber hspread
    · cases h
      exact ⟨c, rest.takeWhile Octet.isNameContinue, rfl, hname,
        List.all_eq_true.mp List.all_takeWhile⟩
    · unfold readString at h
      split_ifs at h
      · split at h <;> cases h
        trivial
      · split at h <;> cases h
        trivial
    · unfold readNumber at h
      split at h
      · cases h
      · rename_i extent hext
        have hnum := isNumber_of_extent hnumber hext
        split_ifs at h with hrun hfloat
        · cases h
          rw [hfloat] at hnum
          exact hnum
        · cases h
          rw [Bool.not_eq_true] at hfloat
          rw [hfloat] at hnum
          exact hnum
    · cases h; trivial

theorem isSpelled_of_mem_scanFrom (place : Location) (lexemes : List Lexeme) (t : Text)
    (h : ∀ l ∈ lexemes, l.token.IsSpelled) :
    ∀ l ∈ (scanFrom place lexemes t).lexemes, l.token.IsSpelled := by
  fun_induction scanFrom place lexemes t with
  | case1 place lexemes => exact fun l hl => h l (List.mem_reverse.mp hl)
  | case2 place lexemes c rest n hi ih => exact ih h
  | case3 place lexemes c rest hi token n hr stop ih =>
    refine ih fun l hl => ?_
    rcases List.mem_cons.mp hl with rfl | hl
    · exact isSpelled_of_readToken hr
    · exact h l hl
  | case4 place lexemes c rest hi fault n hr => exact fun l hl => h l (List.mem_reverse.mp hl)

/-- **The names and numbers of a scan are spelled as such.** -/
theorem isSpelled_of_mem {source : Text} {token : Token} (h : token ∈ (scan source).tokens) :
    token.IsSpelled := by
  obtain ⟨l, hl, rfl⟩ := List.mem_map.mp h
  exact isSpelled_of_mem_scanFrom {} [] source (fun l h => by cases h) l hl

/-! ### Texts that spell tokens -/

/-- In front of a break, the text is cut into the tokens. -/
def Spells (t : Text) (tokens : List Token) : Prop :=
  ∀ after : Text, after.Breaks → lex (t ++ after) = (lex after).map (tokens ++ ·)

/-- In front of any text, the text is cut into the tokens. -/
def Closed (t : Text) (tokens : List Token) : Prop :=
  ∀ after : Text, lex (t ++ after) = (lex after).map (tokens ++ ·)

theorem Closed.spells {t : Text} {tokens : List Token} (h : Closed t tokens) : Spells t tokens :=
  fun after _ => h after

theorem closed_nil : Closed [] [] := fun after => by
  rw [List.nil_append]
  cases lex after <;> rfl

theorem map_append_map (tokens tokens' : List Token) (o : Option (List Token)) :
    (o.map (tokens' ++ ·)).map (tokens ++ ·) = o.map (tokens ++ tokens' ++ ·) := by
  cases o with
  | none => rfl
  | some l => exact congrArg some (List.append_assoc tokens tokens' l).symm

theorem Closed.append {t t' : Text} {tokens tokens' : List Token} (h : Closed t tokens)
    (h' : Spells t' tokens') : Spells (t ++ t') (tokens ++ tokens') := fun after ha => by
  rw [List.append_assoc, h, h' after ha, map_append_map]

theorem Closed.append_closed {t t' : Text} {tokens tokens' : List Token} (h : Closed t tokens)
    (h' : Closed t' tokens') : Closed (t ++ t') (tokens ++ tokens') := fun after => by
  rw [List.append_assoc, h, h' after, map_append_map]

theorem Spells.append {t t' : Text} {tokens tokens' : List Token} (h : Spells t tokens)
    (h' : Spells t' tokens') (hb : t'.Breaks) : Spells (t ++ t') (tokens ++ tokens') :=
  fun after ha => by
    rw [List.append_assoc, h _ (hb.append ha), h' after ha, map_append_map]

theorem Spells.append_closed {t t' : Text} {tokens tokens' : List Token} (h : Spells t tokens)
    (h' : Closed t' tokens') (hb : t'.Breaks) (hne : t' ≠ []) :
    Closed (t ++ t') (tokens ++ tokens') := fun after => by
  have hbreaks : (t' ++ after).Breaks := by
    obtain ⟨c, more, rfl⟩ := List.exists_cons_of_ne_nil hne
    exact Text.breaks_cons (hb c rfl)
  rw [List.append_assoc, h _ hbreaks, h' after, map_append_map]

theorem Spells.eq_nil {tokens : List Token} (h : Spells [] tokens) : tokens = [] := by
  have h0 := h [] Text.breaks_nil
  rw [List.nil_append, lex_nil] at h0
  simpa using Option.some.inj h0

/-! ### Gaps and single tokens -/

/-- The octet starts a token: nothing is left out in front of it. -/
theorem ignored_eq_zero {c : UInt8} (rest : Text) (hs : isSeparator c = false)
    (hh : c ≠ Octet.hash) (hm : c ≠ 0xEF) : ignored c rest = 0 := by
  have hmark : byteOrderMark.isPrefixOf (c :: rest) = false := by
    rw [byteOrderMark, List.isPrefixOf_cons_cons]
    rw [beq_false_of_ne fun h => hm h.symm, Bool.false_and]
  rw [ignored, hs, hmark]
  simp [hh]

theorem closed_separator {c : UInt8} (h : isSeparator c = true) : Closed [c] [] := fun after => by
  rw [List.singleton_append, lex_ignored (n := 0) (by rw [ignored, if_pos h]), List.drop_zero]
  cases lex after <;> rfl

theorem closed_gap : ∀ {t : Text}, (∀ c ∈ t, isSeparator c = true) → Closed t []
  | [], _ => closed_nil
  | c :: _, h => (closed_separator (h c List.mem_cons_self)).append_closed
      (closed_gap fun d hd => h d (List.mem_cons_of_mem c hd))

theorem closed_punctuator (p : Punctuator) : Closed [p.octet] [.punctuator p] := fun after => by
  have hi : ignored p.octet after = 0 :=
    ignored_eq_zero after (by cases p <;> rfl) (by cases p <;> decide) (by cases p <;> decide)
  have hr : readToken p.octet after = .token (.punctuator p) 1 := by
    rw [readToken, Punctuator.ofOctet?_octet]
  rw [List.singleton_append, lex_token hi hr]
  rfl

theorem closed_spread : Closed spreadMark [.spread] := fun after => by
  have hi : ignored Octet.dot (Octet.dot :: Octet.dot :: after) = 0 :=
    ignored_eq_zero _ rfl (by decide) (by decide)
  have hr : readToken Octet.dot (Octet.dot :: Octet.dot :: after) = .token .spread 3 := by
    cases after <;> rfl
  show lex (Octet.dot :: Octet.dot :: Octet.dot :: after) = _
  rw [lex_token hi hr]
  rfl

theorem spells_name {t : Text} (h : t.IsName) : Spells t [.name t] := fun after ha => by
  obtain ⟨c, more, rfl, hc, hm⟩ := h
  have hclass : ∀ c, Octet.isNameStart c = true → isSeparator c = false ∧ c ≠ Octet.hash ∧
      c ≠ 0xEF ∧ Punctuator.ofOctet? c = none := Octet.forall_octet (by decide +kernel)
  obtain ⟨hs, hh, hm', hp⟩ := hclass c hc
  have hrun : (more ++ after).takeWhile Octet.isNameContinue = more :=
    Number.takeWhile_append hm ha.avoids
  have hr : readToken c (more ++ after) = .token (.name (c :: more)) (more.length + 1) := by
    rw [readToken, hp]
    simp only [hc, if_true, hrun, List.length_cons]
  rw [List.cons_append, lex_token (ignored_eq_zero _ hs hh hm') hr, Nat.add_sub_cancel,
    List.drop_left]
  rfl

theorem readToken_number {c : UInt8} {rest : Text} (hc : c = Octet.minus ∨ Octet.isDigit c = true) :
    readToken c rest = readNumber (c :: rest) := by
  have hclass : ∀ c, (c = Octet.minus ∨ Octet.isDigit c = true) → Punctuator.ofOctet? c = none ∧
      Octet.isNameStart c = false ∧ c ≠ Octet.quote := Octet.forall_octet (by decide +kernel)
  obtain ⟨hp, hn, hq⟩ := hclass c hc
  rw [readToken, hp]
  simp only [hn, Bool.false_eq_true, if_false, if_neg hq, if_pos hc]

theorem readNumber_append {isFloat : Bool} {t after : Text} (h : t.IsNumber isFloat)
    (ha : after.Breaks) : readNumber (t ++ after) =
      .token (if isFloat then .float t else .int t) t.length := by
  have hrun : (after.head?.any fun c => c == Octet.dot || Octet.isNameStart c) = false := by
    have hclass : ∀ c, Octet.isBreak c = true → (c == Octet.dot || Octet.isNameStart c) = false :=
      Octet.forall_octet (by decide +kernel)
    cases after with
    | nil => rfl
    | cons c after => exact hclass c (ha c rfl)
  rw [readNumber, h.extent after ha.ends]
  simp only [List.drop_left, hrun, Bool.false_eq_true, if_false, List.take_left]
  cases isFloat <;> rfl

theorem spells_number {isFloat : Bool} {t : Text} (h : t.IsNumber isFloat) :
    Spells t [if isFloat then .float t else .int t] := fun after ha => by
  obtain ⟨c, more, rfl, hc⟩ := h.start
  have hr : readToken c (more ++ after) = _ :=
    (readToken_number hc).trans (readNumber_append h ha)
  have hclass : ∀ c, (c = Octet.minus ∨ Octet.isDigit c = true) → isSeparator c = false ∧
      c ≠ Octet.hash ∧ c ≠ 0xEF := Octet.forall_octet (by decide +kernel)
  obtain ⟨hs, hh, hm⟩ := hclass c hc
  rw [List.cons_append, lex_token (ignored_eq_zero _ hs hh hm) hr, List.length_cons,
    Nat.add_sub_cancel, List.drop_left]
  rfl

theorem readString_quoted (t : Text) {after : Text} (ha : after.head? ≠ some Octet.quote) :
    readString (t.quoted ++ after) = .token (.string (Utf8.sanitise t)) t.quoted.length := by
  have hblock : Text.blockQuote.isPrefixOf (t.quoted ++ after) = false := by
    rw [Text.quoted, List.cons_append, List.append_assoc, Text.blockQuote, List.isPrefixOf_cons_cons,
      beq_self_eq_true, Bool.true_and]
    cases Utf8.sanitise t with
    | nil =>
      cases after with
      | nil => rfl
      | cons c after =>
        have hc : c ≠ Octet.quote := fun h => ha (congrArg some h)
        rw [List.flatMap_nil, List.nil_append, List.singleton_append, List.isPrefixOf_cons_cons,
          List.isPrefixOf_cons_cons, beq_false_of_ne fun h => hc h.symm, Bool.false_and, Bool.and_false]
    | cons c rest =>
      rw [List.flatMap_cons, List.append_assoc]
      have hhead := Text.head?_escapeOctet c (rest.flatMap Text.escapeOctet ++ ([Octet.quote] ++ after))
      cases hl : Text.escapeOctet c ++ (rest.flatMap Text.escapeOctet ++ ([Octet.quote] ++ after)) with
      | nil => rfl
      | cons d more =>
        rw [hl] at hhead
        have hd : Octet.quote ≠ d := fun h => hhead (congrArg some h.symm)
        rw [List.isPrefixOf_cons_cons, beq_false_of_ne hd, Bool.false_and]
  rw [readString, hblock]
  simp only [Bool.false_eq_true, if_false, Text.readQuoted_quoted]
  congr 1
  rw [Text.quoted, List.length_cons]
  omega

theorem spells_string (t : Text) : Spells t.quoted [.string (Utf8.sanitise t)] := fun after ha => by
  have hread := readString_quoted t ha.head?_ne_quote
  rw [Text.quoted, List.cons_append] at hread ⊢
  have hr : ∀ rest, readToken Octet.quote rest = readString (Octet.quote :: rest) := fun _ => rfl
  rw [lex_token (ignored_eq_zero _ rfl (by decide) (by decide)) ((hr _).trans hread),
    List.length_cons, Nat.add_sub_cancel, List.drop_left]
  rfl

/-! ### Parts put together -/

theorem joinNonEmpty_cons_nil (separator : Text) (parts : List Text) :
    Text.joinNonEmpty separator ([] :: parts) = Text.joinNonEmpty separator parts := rfl

/-- A part that is not empty stands alone or in front of a separator. -/
theorem joinNonEmpty_cons {part : Text} (h : part ≠ []) (separator : Text) (parts : List Text) :
    (Text.joinNonEmpty separator parts = [] ∧ Text.joinNonEmpty separator (part :: parts) = part) ∨
      Text.joinNonEmpty separator (part :: parts) =
        part ++ (separator ++ Text.joinNonEmpty separator parts) := by
  have hp : (!part.isEmpty) = true := by
    rw [List.isEmpty_eq_false_iff.mpr h]; rfl
  unfold Text.joinNonEmpty
  rw [List.filter_cons_of_pos (by exact hp)]
  cases parts.filter fun part => !part.isEmpty with
  | nil => exact Or.inl ⟨rfl, rfl⟩
  | cons p ps => exact Or.inr rfl

/-- **Parts with a gap between any two** spell the tokens of the parts. -/
theorem spells_joinNonEmpty {separator : Text} (hs : Closed separator []) (hb : separator.Breaks)
    (hne : separator ≠ []) {parts : List Text} {tokens : List (List Token)}
    (h : List.Forall₂ Spells parts tokens) :
    Spells (Text.joinNonEmpty separator parts) tokens.flatten := by
  induction h with
  | nil => exact closed_nil.spells
  | @cons part ts parts tss hp _ ih =>
    rw [List.flatten_cons]
    by_cases hpart : part = []
    · subst hpart
      rw [hp.eq_nil, joinNonEmpty_cons_nil]
      exact ih
    rcases joinNonEmpty_cons hpart separator parts with ⟨hnil, he⟩ | he
    · rw [hnil] at ih
      rw [he, ih.eq_nil, List.append_nil]
      exact hp
    · rw [he]
      have hbreaks : (separator ++ Text.joinNonEmpty separator parts).Breaks := by
        obtain ⟨c, more, rfl⟩ := List.exists_cons_of_ne_nil hne
        exact Text.breaks_cons (hb c rfl)
      exact hp.append (hs.append ih) hbreaks

end Scan

end QueryCompiler
