import QueryCompiler.Proofs.Text.Blocks
import QueryCompiler.Proofs.Text.Characters
import QueryCompiler.Proofs.Text.Grammar

/-!
# Values of literals in well-formed text

In well-formed text a quoted literal has a well-formed value exactly if no surrogate is escaped in it
by itself (`QuotedBody.wellFormed_iff`), and the value of a block literal is always well-formed
(`BlockBody.wellFormed_append`, `wellFormed_dedent`). What is left after a literal is well-formed as
well.

A character may be cut in two by the induction, so that what is shown of the octets that are left is
shown with some octets in front of them.
-/

namespace QueryCompiler.Text

open Utf8 (wellFormed IsAscii IsCharacter IsScalar IsSurrogate wellFormed_split)

/-! ### Escapes -/

theorem IsCodeUnit.isAscii {digits : Text} {unit : Nat} (h : IsCodeUnit digits unit) :
    IsAscii digits := by
  have hdigit : ∀ c : UInt8, (Octet.hexValue? c).isSome = true → c.toNat < 0x80 :=
    Octet.forall_octet (by decide +kernel)
  have hascii {c : UInt8} {d : Nat} (hd : Octet.hexValue? c = some d) : c.toNat < 0x80 :=
    hdigit c (by rw [hd]; rfl)
  obtain ⟨c₁, c₂, c₃, c₄, d₁, d₂, d₃, d₄, rfl, h₁, h₂, h₃, h₄, -⟩ := h
  simp only [IsAscii, List.forall_mem_cons]
  exact ⟨hascii h₁, hascii h₂, hascii h₃, hascii h₄, List.forall_mem_nil _⟩

theorem IsCodeUnit.lt {digits : Text} {unit : Nat} (h : IsCodeUnit digits unit) :
    unit < 0x10000 := by
  obtain ⟨c₁, c₂, c₃, c₄, d₁, d₂, d₃, d₄, -, h₁, h₂, h₃, h₄, rfl⟩ := h
  have := Octet.hexValue?_lt h₁
  have := Octet.hexValue?_lt h₂
  have := Octet.hexValue?_lt h₃
  have := Octet.hexValue?_lt h₄
  omega

/-- An escape is spelled with octets below `0x80`. -/
theorem Escape.exists_isAscii {t meaning rest : Text} (h : Escape t meaning rest) :
    ∃ spelling, IsAscii spelling ∧ t = spelling ++ rest := by
  have hmark : IsAscii "\\u" := by decide +kernel
  cases h with
  | @octet c octet _ hc =>
    have hascii : ∀ c : UInt8, (simpleEscape? c).isSome = true → c.toNat < 0x80 :=
      Octet.forall_octet (by decide +kernel)
    exact ⟨[c], by simpa [IsAscii] using hascii c (by rw [hc]; rfl), rfl⟩
  | @unit digits unit _ hdigits _ =>
    exact ⟨0x75 :: digits, List.forall_mem_cons.mpr ⟨by decide, hdigits.isAscii⟩, rfl⟩
  | @pair digits digits' high low _ hdigits _ hdigits' _ =>
    refine ⟨0x75 :: (digits ++ ("\\u" ++ digits')), List.forall_mem_cons.mpr ⟨by decide, ?_⟩, by simp⟩
    refine List.forall_mem_append.mpr ⟨hdigits.isAscii, ?_⟩
    exact List.forall_mem_append.mpr ⟨hmark, hdigits'.isAscii⟩

/-- An escape of a surrogate that is not half of a pair, after its backslash. -/
inductive IsLone : Text → Prop
  | mk {digits rest : Text} {unit : Nat} : IsCodeUnit digits unit → IsSurrogate unit →
    (isHighSurrogate unit = true → ¬ ("\\u" : Text) <+: rest) → IsLone (0x75 :: (digits ++ rest))

theorem Escape.meaning_unique {t meaning meaning' rest rest' : Text} (h : Escape t meaning rest)
    (h' : Escape t meaning' rest') : meaning = meaning' ∧ rest = rest' := by
  obtain ⟨n, hread, rfl⟩ := h.readEscape
  obtain ⟨n', hread', rfl⟩ := h'.readEscape
  obtain ⟨rfl, rfl⟩ : meaning = meaning' ∧ n = n' := by simpa using hread.symm.trans hread'
  exact ⟨rfl, rfl⟩

/-- An escape that stands alone means a surrogate. -/
theorem Escape.of_isLone {t meaning rest : Text} (h : Escape t meaning rest) (hlone : IsLone t) :
    ∃ unit, IsSurrogate unit ∧ meaning = Utf8.encode unit := by
  obtain ⟨hdigits, hunit, hpair⟩ := hlone
  exact ⟨_, hunit, (h.meaning_unique (.unit _ hdigits hpair)).1⟩

theorem isScalar_ofSurrogates {high low : Nat} (hhigh : isHighSurrogate high = true)
    (hlow : isLowSurrogate low = true) : IsScalar (ofSurrogates high low) := by
  simp only [isHighSurrogate, isLowSurrogate, Bool.and_eq_true, decide_eq_true_eq] at hhigh hlow
  unfold ofSurrogates IsScalar IsSurrogate
  omega

/-- Every other escape means a character. -/
theorem Escape.isCharacter {t meaning rest : Text} (h : Escape t meaning rest)
    (hlone : ¬ IsLone t) : IsCharacter meaning := by
  cases h with
  | @octet c octet _ hc =>
    have hascii : ∀ c : UInt8, ∀ d ∈ simpleEscape? c, d.toNat < 0x80 :=
      Octet.forall_octet (by decide +kernel)
    exact Utf8.isCharacter_ascii (hascii c octet hc)
  | @unit digits unit _ hdigits hpair =>
    have hunit : ¬ IsSurrogate unit := fun hs => hlone ⟨hdigits, hs, hpair⟩
    exact Utf8.isCharacter_iff.mpr ⟨unit, ⟨by have := hdigits.lt; omega, hunit⟩, rfl⟩
  | pair _ _ hhigh _ hlow =>
    exact Utf8.isCharacter_iff.mpr ⟨_, isScalar_ofSurrogates hhigh hlow, rfl⟩

/-! ### Quoted literals -/

/-- A quoted literal, after its first quote, in which a surrogate is escaped that stands alone. -/
inductive HasLoneSurrogate : Text → Prop
  | here {t : Text} : IsLone t → HasLoneSurrogate (Octet.backslash :: t)
  | octet {c : UInt8} {t : Text} : c ≠ Octet.quote → c ≠ Octet.backslash → HasLoneSurrogate t →
    HasLoneSurrogate (c :: t)
  | escape {t meaning rest : Text} : Escape t meaning rest → HasLoneSurrogate rest →
    HasLoneSurrogate (Octet.backslash :: t)

theorem not_hasLoneSurrogate_quote (rest : Text) :
    ¬ HasLoneSurrogate (Octet.quote :: rest) := by
  intro h
  cases h with
  | octet hq _ _ => exact hq rfl

theorem hasLoneSurrogate_cons {c : UInt8} {t : Text} (hq : c ≠ Octet.quote)
    (hb : c ≠ Octet.backslash) : HasLoneSurrogate (c :: t) ↔ HasLoneSurrogate t := by
  refine ⟨fun h => ?_, .octet hq hb⟩
  cases h with
  | here => exact absurd rfl hb
  | octet _ _ h => exact h
  | escape => exact absurd rfl hb

theorem hasLoneSurrogate_escape {t meaning rest : Text} (h : Escape t meaning rest) :
    HasLoneSurrogate (Octet.backslash :: t) ↔ IsLone t ∨ HasLoneSurrogate rest := by
  constructor
  · intro hhas
    cases hhas with
    | here hlone => exact Or.inl hlone
    | octet _ hb _ => exact absurd rfl hb
    | escape h' hrest => exact Or.inr ((h.meaning_unique h').2 ▸ hrest)
  · rintro (hlone | hrest)
    · exact .here hlone
    · exact .escape h hrest

/-- The octets in front are the beginning of a character that goes on in the literal. -/
theorem QuotedBody.wellFormed_append {t value rest : Text} (h : QuotedBody t value rest) :
    ∀ before : Text, wellFormed (before ++ t) = true →
      (wellFormed (before ++ value) = true ↔ ¬ HasLoneSurrogate t) ∧ wellFormed rest = true := by
  induction h with
  | close rest =>
    intro before hbefore
    obtain ⟨hleft, hright⟩ := (wellFormed_split (by decide)).mp hbefore
    rw [List.append_nil]
    exact ⟨iff_of_true hleft (not_hasLoneSurrogate_quote rest), hright⟩
  | @octet c t value rest hq hb hline hbody ih =>
    intro before hbefore
    rw [List.append_cons] at hbefore
    rw [List.append_cons, hasLoneSurrogate_cons hq hb]
    exact ih _ hbefore
  | @escape t meaning t' value rest he hbody ih =>
    intro before hbefore
    obtain ⟨hleft, hright⟩ := (wellFormed_split (by decide)).mp hbefore
    obtain ⟨spelling, hspelling, rfl⟩ := he.exists_isAscii
    rw [hspelling.wellFormed_append] at hright
    obtain ⟨hiff, hrest⟩ := ih [] hright
    rw [List.nil_append] at hiff
    refine ⟨?_, hrest⟩
    rw [hasLoneSurrogate_escape he, Utf8.wellFormed_append hleft]
    by_cases hlone : IsLone (spelling ++ t')
    · obtain ⟨unit, hunit, rfl⟩ := he.of_isLone hlone
      rw [Utf8.wellFormed_encode_surrogate hunit]
      simp [hlone]
    · rw [Utf8.wellFormed_character (he.isCharacter hlone), hiff]
      simp [hlone]

/-- **The value of a quoted literal is well-formed exactly if no surrogate stands alone in it.** -/
theorem QuotedBody.wellFormed_iff {t value rest : Text} (h : QuotedBody t value rest)
    (ht : wellFormed t = true) : wellFormed value = true ↔ ¬ HasLoneSurrogate t :=
  (h.wellFormed_append [] ht).1

/-! ### Block literals -/

theorem wellFormed_blockQuote (t : Text) : wellFormed (blockQuote ++ t) = wellFormed t := by
  have hascii : IsAscii blockQuote := by decide +kernel
  exact hascii.wellFormed_append t

theorem BlockBody.wellFormed_append {t raw rest : Text} (h : BlockBody t raw rest) :
    ∀ before : Text, wellFormed (before ++ t) = true →
      wellFormed (before ++ raw) = true ∧ wellFormed rest = true := by
  induction h with
  | close rest =>
    intro before hbefore
    have hascii : IsAscii [Octet.quote, Octet.quote] := by decide +kernel
    have hquotes : wellFormed (before ++ Octet.quote :: ([Octet.quote, Octet.quote] ++ rest)) =
        true := hbefore
    obtain ⟨hleft, hright⟩ := (wellFormed_split (by decide)).mp hquotes
    rw [hascii.wellFormed_append] at hright
    rw [List.append_nil]
    exact ⟨hleft, hright⟩
  | @escaped t raw rest hbody ih =>
    intro before hbefore
    obtain ⟨hleft, hright⟩ := (wellFormed_split (by decide)).mp hbefore
    rw [wellFormed_blockQuote] at hright
    obtain ⟨hraw, hrest⟩ := ih [] hright
    rw [List.nil_append] at hraw
    rw [Utf8.wellFormed_append hleft, wellFormed_blockQuote]
    exact ⟨hraw, hrest⟩
  | @octet c t raw rest _ _ hbody ih =>
    intro before hbefore
    rw [List.append_cons] at hbefore ⊢
    exact ih _ hbefore

/-! ### The lines of a block -/

theorem wellFormed_dropPairedReturns (t : Text) : ∀ before : Text,
    wellFormed (before ++ t) = true → wellFormed (before ++ dropPairedReturns t) = true := by
  induction t with
  | nil => exact fun before h => h
  | cons c t ih =>
    intro before h
    rw [dropPairedReturns_cons]
    split_ifs with hc
    · obtain ⟨rfl, -⟩ := hc
      obtain ⟨hleft, hright⟩ := (wellFormed_split (by decide)).mp h
      rw [Utf8.wellFormed_append hleft]
      exact ih [] hright
    · rw [List.append_cons] at h ⊢
      exact ih _ h

theorem isLineTerminator_ascii : ∀ c : UInt8, Octet.isLineTerminator c = true → c.toNat < 0x80 :=
  Octet.forall_octet (by decide +kernel)

theorem exists_lines (t : Text) : ∀ before : Text, wellFormed (before ++ t) = true →
    ∃ first rest, t.foldr consToLines [[]] = first :: rest ∧
      wellFormed (before ++ first) = true ∧ ∀ line ∈ rest, wellFormed line = true := by
  induction t with
  | nil => exact fun before h => ⟨[], [], rfl, h, List.forall_mem_nil _⟩
  | cons c t ih =>
    intro before h
    rw [List.foldr_cons]
    by_cases hc : Octet.isLineTerminator c = true
    · obtain ⟨hleft, hright⟩ := (wellFormed_split (isLineTerminator_ascii c hc)).mp h
      obtain ⟨first, rest, heq, hfirst, hrest⟩ := ih [] hright
      refine ⟨[], first :: rest, ?_, ?_, List.forall_mem_cons.mpr ⟨hfirst, hrest⟩⟩
      · rw [heq, consToLines, if_pos hc]
      · rw [List.append_nil]
        exact hleft
    · rw [List.append_cons] at h
      obtain ⟨first, rest, heq, hfirst, hrest⟩ := ih _ h
      refine ⟨c :: first, rest, ?_, ?_, hrest⟩
      · rw [heq, consToLines, if_neg hc]
      · rwa [List.append_cons]

theorem wellFormed_of_mem_lines {t line : Text} (h : wellFormed t = true) (hline : line ∈ lines t) :
    wellFormed line = true := by
  obtain ⟨first, rest, heq, hfirst, hrest⟩ :=
    exists_lines _ [] (wellFormed_dropPairedReturns t [] h)
  have hall : ∀ line ∈ first :: rest, wellFormed line = true :=
    List.forall_mem_cons.mpr ⟨hfirst, hrest⟩
  rw [lines, heq] at hline
  exact hall line hline

/-- Blanks in front may be dropped. -/
theorem wellFormed_drop {n : Nat} {line : Text} (h : wellFormed line = true)
    (hblank : isBlankLine (line.take n) = true) : wellFormed (line.drop n) = true := by
  have hascii : ∀ c : UInt8, Octet.isBlank c = true → c.toNat < 0x80 :=
    Octet.forall_octet (by decide +kernel)
  have htake : IsAscii (line.take n) := fun c hc => hascii c (List.all_eq_true.mp hblank c hc)
  rwa [← List.take_append_drop n line, htake.wellFormed_append] at h

/-- Only blanks stand in front of what the common indentation leaves of a line. -/
theorem isBlankLine_take {rest : List Text} {n : Nat} (h : commonIndentation rest = some n)
    {line : Text} (hline : line ∈ rest) : isBlankLine (line.take n) = true := by
  by_cases hblank : isBlankLine line = true
  · exact List.all_eq_true.mpr fun c hc => List.all_eq_true.mp hblank c (List.mem_of_mem_take hc)
  · have hsize : indentation line ∈
        (rest.filter fun line => !isBlankLine line).map indentation :=
      List.mem_map_of_mem (List.mem_filter.mpr ⟨hline, by simpa using hblank⟩)
    have hle : n ≤ (line.takeWhile Octet.isBlank).length :=
      (List.min?_eq_some_iff.mp h).2 _ hsize
    have htake : line.take n = (line.takeWhile Octet.isBlank).take n := by
      conv_lhs => rw [← List.takeWhile_append_dropWhile (p := Octet.isBlank) (l := line)]
      rw [List.take_append_of_le_length hle]
    rw [htake]
    exact List.all_eq_true.mpr fun c hc =>
      List.all_eq_true.mp List.all_takeWhile c (List.mem_of_mem_take hc)

theorem wellFormed_of_mem_dedentLines {block : List Text}
    (h : ∀ line ∈ block, wellFormed line = true) :
    ∀ line ∈ dedentLines block, wellFormed line = true := by
  cases block with
  | nil => exact h
  | cons first rest =>
    obtain ⟨hfirst, hrest⟩ := List.forall_mem_cons.mp h
    rw [dedentLines]
    cases hc : commonIndentation rest with
    | none => exact h
    | some n =>
      refine List.forall_mem_cons.mpr ⟨hfirst, fun line hline => ?_⟩
      obtain ⟨whole, hwhole, rfl⟩ := List.mem_map.mp hline
      exact wellFormed_drop (hrest whole hwhole) (isBlankLine_take hc hwhole)

theorem wellFormed_join {separator : Text} (hs : wellFormed separator = true) {parts : List Text}
    (h : ∀ part ∈ parts, wellFormed part = true) : wellFormed (join separator parts) = true := by
  cases parts with
  | nil => exact Utf8.wellFormed_nil
  | cons first rest =>
    obtain ⟨hfirst, hrest⟩ := List.forall_mem_cons.mp h
    rw [join_cons, Utf8.wellFormed_append hfirst]
    clear h
    induction rest with
    | nil => exact Utf8.wellFormed_nil
    | cons part rest ih =>
      obtain ⟨hpart, hrest⟩ := List.forall_mem_cons.mp hrest
      rw [List.flatMap_cons, List.append_assoc, Utf8.wellFormed_append hs,
        Utf8.wellFormed_append hpart, ih hrest]

/-- **The value of a well-formed block is well-formed.** -/
theorem wellFormed_dedent {raw : Text} (h : wellFormed raw = true) :
    wellFormed raw.dedent = true := by
  refine wellFormed_join (by decide +kernel) fun line hline => ?_
  exact wellFormed_of_mem_dedentLines (fun _ hl => wellFormed_of_mem_lines h hl) line
    (mem_of_mem_trimBlankLines hline)

end QueryCompiler.Text
