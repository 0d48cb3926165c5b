import QueryCompiler.Proofs.Source.Splitting
import QueryCompiler.Proofs.Text.WellFormed

/-!
# String values of a source

Whatever gaps and tokens are taken from the front of well-formed text, what is left is well-formed
(`Gap.wellFormed`, `Lexes.wellFormed`). So every token of a well-formed source stands at the front of
well-formed text (`exists_lexes`), and the value of a string is well-formed unless a surrogate is
escaped in its literal that stands alone (`Lexes.wellFormed_iff`).
-/

namespace QueryCompiler.Scan

open Utf8 (wellFormed IsAscii)

/-- What is left of a source in front of one of its gaps or tokens, or at its end. -/
inductive Remains (source : Text) : Text → Prop
  | all : Remains source source
  | gap {t rest : Text} : Remains source t → Gap t rest → Remains source rest
  | token {t rest : Text} {token : Token} : Remains source t → Lexes t token rest →
    Remains source rest

/-- **Every token of a source is one of what is left of it.** -/
theorem exists_lexes {source t : Text} {tokens : List Token} {token : Token}
    (h : Splits t tokens) (hremains : Remains source t) (hm : token ∈ tokens) :
    ∃ left rest, Remains source left ∧ Lexes left token rest := by
  induction h with
  | nil => cases hm
  | gap hgap _ ih => exact ih (.gap hremains hgap) hm
  | @token t rest first tokens htoken _ ih =>
    obtain rfl | hm := List.mem_cons.mp hm
    · exact ⟨t, rest, hremains, htoken⟩
    · exact ih (.token hremains htoken) hm

/-! ### What is left -/

theorem Gap.wellFormed {t rest : Text} (h : Gap t rest) (ht : Utf8.wellFormed t = true) :
    Utf8.wellFormed rest = true := by
  cases h with
  | @separator c _ hc =>
    have hascii : ∀ c : UInt8, isSeparator c = true → c.toNat < 0x80 :=
      Octet.forall_octet (by decide +kernel)
    rwa [Utf8.wellFormed_ascii (hascii c hc)] at ht
  | @comment line _ hline hrest =>
    rw [Utf8.wellFormed_ascii (by decide)] at ht
    cases rest with
    | nil => exact Utf8.wellFormed_nil
    | cons c rest =>
      have hc : c.toNat < 0x80 := Text.isLineTerminator_ascii c (hrest c rfl)
      rw [Utf8.wellFormed_ascii hc]
      exact ((Utf8.wellFormed_split hc).mp ht).2
  | mark =>
    have hmark : Utf8.IsCharacter byteOrderMark := Utf8.isCharacter_iff.mpr
      ⟨0xFEFF, ⟨by decide, by unfold Utf8.IsSurrogate; omega⟩, rfl⟩
    rwa [Utf8.wellFormed_character hmark] at ht

theorem isAscii_name {t : Text} (h : t.IsName) : IsAscii t := by
  have hascii : ∀ c : UInt8, Octet.isNameContinue c = true → c.toNat < 0x80 :=
    Octet.forall_octet (by decide +kernel)
  exact fun c hc => hascii c (h.forall_mem c hc)

theorem isAscii_number {isFloat : Bool} {t : Text} (h : Number.IsLiteral isFloat t) :
    IsAscii t := by
  have hascii : ∀ c : UInt8, Number.isNumeric c = true → c.toNat < 0x80 :=
    Octet.forall_octet (by decide +kernel)
  exact fun c hc => hascii c (h.forall_mem c hc)

theorem Lexes.wellFormed {t rest : Text} {token : Token} (h : Lexes t token rest)
    (ht : Utf8.wellFormed t = true) : Utf8.wellFormed rest = true := by
  cases h with
  | punctuator p =>
    rwa [Utf8.wellFormed_ascii (by cases p <;> decide)] at ht
  | spread =>
    have hmark : IsAscii spreadMark := by decide +kernel
    rwa [hmark.wellFormed_append] at ht
  | name hname _ => rwa [(isAscii_name hname).wellFormed_append] at ht
  | int hliteral _ => rwa [(isAscii_number hliteral).wellFormed_append] at ht
  | float hliteral _ => rwa [(isAscii_number hliteral).wellFormed_append] at ht
  | quoted _ hbody =>
    rw [Utf8.wellFormed_ascii (by decide)] at ht
    exact (hbody.wellFormed_append [] ht).2
  | block hbody =>
    rw [Text.wellFormed_blockQuote] at ht
    exact (hbody.wellFormed_append [] ht).2

/-- **What is left of a well-formed source is well-formed.** -/
theorem Remains.wellFormed {source t : Text} (h : Remains source t)
    (hsource : Utf8.wellFormed source = true) : Utf8.wellFormed t = true := by
  induction h with
  | all => exact hsource
  | gap _ hgap ih => exact hgap.wellFormed ih
  | token _ htoken ih => exact htoken.wellFormed ih

/-! ### Values -/

/-- A quoted literal, which is no block, at the front of the text escapes a surrogate that stands
alone. -/
def HasLoneSurrogate (t : Text) : Prop :=
  ∃ body, t = Octet.quote :: body ∧ ¬ [Octet.quote, Octet.quote] <+: body ∧
    Text.HasLoneSurrogate body

/-- **The value of a string is well-formed exactly if no surrogate stands alone in its literal.** -/
theorem Lexes.wellFormed_iff {t value rest : Text} (h : Lexes t (.string value) rest)
    (ht : Utf8.wellFormed t = true) :
    Utf8.wellFormed value = true ↔ ¬ HasLoneSurrogate t := by
  cases h with
  | @quoted body _ _ hne hbody =>
    rw [Utf8.wellFormed_ascii (by decide)] at ht
    rw [hbody.wellFormed_iff ht, not_iff_not]
    constructor
    · exact fun hlone => ⟨body, rfl, hne, hlone⟩
    · rintro ⟨_, heq, -, hlone⟩
      obtain ⟨-, rfl⟩ := List.cons.inj heq
      exact hlone
  | @block body raw _ hbody =>
    rw [Text.wellFormed_blockQuote] at ht
    refine iff_of_true (Text.wellFormed_dedent (hbody.wellFormed_append [] ht).1) ?_
    rintro ⟨_, heq, hne, -⟩
    obtain ⟨-, rfl⟩ := List.cons.inj heq
    exact hne (List.prefix_append _ _)

end QueryCompiler.Scan
