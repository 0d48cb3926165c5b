import QueryCompiler.Proofs.Source.Splitting
import QueryCompiler.Proofs.Text.Blocks

/-!
# The layout of block literals

A block literal may be indented and its lines may end in any way: it is the same token of a source.

* `BlockBody.exists_line`: what a line of a literal stands for, it stands for in front of every line
  terminator, since neither an escape nor the closing quotes go on over one.
* `BlockBody.relaid`: so the raw octets of a literal are laid out as the literal is.
* `Scan.lexes_relaid`: so the literal is the same token in another layout.
-/

namespace QueryCompiler

namespace Text

/-- A block literal of a source, in which some text stands between the quotes. -/
def blockLiteral (t : Text) : Text := blockQuote ++ (t ++ blockQuote)

/-! ### Lines of a literal -/

/-- What stands in front of an octet that is not part of it ends before the octet. -/
theorem prefix_of_prefix_append {mark line : Text} {c : UInt8} {t : Text} (hc : c ∉ mark)
    (h : mark <+: line ++ c :: t) : mark <+: line := by
  rcases List.prefix_or_prefix_of_prefix h (List.prefix_append line (c :: t)) with h' | ⟨more, rfl⟩
  · exact h'
  · rw [List.prefix_append_right_inj] at h
    cases more with
    | nil => exact ⟨[], by rw [List.append_nil, List.append_nil]⟩
    | cons d more =>
      obtain ⟨_, he⟩ := h
      obtain rfl := (List.cons.inj he).1
      exact absurd (List.mem_append_right _ List.mem_cons_self) hc

theorem not_mem_quotes {c : UInt8} (hc : Octet.isLineTerminator c = true) :
    c ∉ blockQuote ∧ c ∉ Octet.backslash :: blockQuote := by
  have hclass : ∀ c, Octet.isLineTerminator c = true →
      c ∉ blockQuote ∧ c ∉ Octet.backslash :: blockQuote := Octet.forall_octet (by decide +kernel)
  exact hclass c hc

/-- A line in a block literal stands for another line, in front of whatever line terminator. -/
structure StandsFor (line raw : Text) : Prop where
  isLine : IsLine raw
  read : ∀ {c t after rest}, Octet.isLineTerminator c = true → BlockBody (c :: t) after rest →
    BlockBody (line ++ c :: t) (raw ++ after) rest

theorem standsFor_nil : StandsFor [] [] := ⟨fun _ h => absurd h List.not_mem_nil, fun _ h => h⟩

theorem StandsFor.escaped {line raw : Text} (h : StandsFor line raw) :
    StandsFor (Octet.backslash :: (blockQuote ++ line)) (blockQuote ++ raw) := by
  refine ⟨IsLine.append (by decide) h.isLine, fun hc hbody => ?_⟩
  rw [List.cons_append, List.append_assoc, List.append_assoc]
  exact .escaped (h.read hc hbody)

theorem StandsFor.octet {line raw : Text} (h : StandsFor line raw) {d : UInt8}
    (hd : Octet.isLineTerminator d = false) (hq : ¬ blockQuote <+: d :: line)
    (hb : ¬ Octet.backslash :: blockQuote <+: d :: line) : StandsFor (d :: line) (d :: raw) := by
  refine ⟨List.forall_mem_cons.mpr ⟨hd, h.isLine⟩, fun hc hbody => ?_⟩
  obtain ⟨hcq, hcb⟩ := not_mem_quotes hc
  refine .octet (fun hp => hq ?_) (fun hp => hb ?_) (h.read hc hbody)
  · exact prefix_of_prefix_append hcq hp
  · exact prefix_of_prefix_append hcb hp

/-- **A line of a literal that does not end in it stands for a line.** The quotes that close the
literal come later, since no more is left after them than after the line. -/
theorem BlockBody.exists_line {c : UInt8} (hc : Octet.isLineTerminator c = true) {t rest : Text}
    (hlen : rest.length ≤ t.length) : ∀ {line raw : Text}, IsLine line →
      BlockBody (line ++ c :: t) raw rest → ∃ first after, StandsFor line first ∧
        raw = first ++ after ∧ BlockBody (c :: t) after rest
  | [], raw, _, h => ⟨[], raw, standsFor_nil, rfl, h⟩
  | d :: line, raw, hline, h => by
    obtain ⟨hcq, hcb⟩ := not_mem_quotes hc
    obtain ⟨hd, hline⟩ := List.forall_mem_cons.mp hline
    generalize hsource : d :: line ++ c :: t = source at h
    cases h with
    | close =>
      have hfront : blockQuote <+: (d :: line) ++ c :: t := ⟨_, hsource.symm⟩
      obtain ⟨inner, hinner⟩ := prefix_of_prefix_append hcq hfront
      rw [← hinner, List.append_assoc] at hsource
      have := congrArg List.length (List.append_cancel_left hsource)
      rw [List.length_append, List.length_cons] at this
      omega
    | @escaped t' raw' _ h =>
      have hfront : Octet.backslash :: blockQuote <+: (d :: line) ++ c :: t :=
        ⟨t', by rw [hsource]; rfl⟩
      obtain ⟨inner, hinner⟩ := prefix_of_prefix_append hcb hfront
      rw [List.cons_append] at hinner
      obtain ⟨rfl, rfl⟩ := List.cons.inj hinner
      rw [List.cons_append, List.append_assoc] at hsource
      have ht' : inner ++ c :: t = t' := List.append_cancel_left (List.cons.inj hsource).2
      rw [← ht'] at h
      have hinnerLine : IsLine inner := fun e he => hline e
        (List.mem_cons_of_mem _ (List.mem_append_right _ he))
      obtain ⟨first, after, hstands, rfl, hafter⟩ := BlockBody.exists_line hc hlen hinnerLine h
      exact ⟨blockQuote ++ first, after, hstands.escaped, (List.append_assoc ..).symm, hafter⟩
    | octet hq hb h =>
      obtain ⟨rfl, rfl⟩ := List.cons.inj hsource
      obtain ⟨first, after, hstands, rfl, hafter⟩ := BlockBody.exists_line hc hlen hline h
      refine ⟨d :: first, after, hstands.octet hd (fun hp => hq ?_) (fun hp => hb ?_), rfl, hafter⟩
      · exact hp.trans (List.prefix_append (d :: line) _)
      · exact hp.trans (List.prefix_append (d :: line) _)
termination_by line => line.length

/-- The raw octets of a literal stand in it. -/
theorem BlockBody.mem_of_mem {t raw rest : Text} (h : BlockBody t raw rest) :
    ∃ used, t = used ++ rest ∧ ∀ c ∈ raw, c ∈ used := by
  induction h with
  | close rest => exact ⟨blockQuote, rfl, fun c hc => absurd hc List.not_mem_nil⟩
  | escaped _ ih =>
    obtain ⟨used, rfl, hused⟩ := ih
    refine ⟨Octet.backslash :: (blockQuote ++ used), by simp, fun c hc => ?_⟩
    refine List.mem_cons_of_mem _ (List.mem_append.mpr ?_)
    exact (List.mem_append.mp hc).imp_right (hused c)
  | octet _ _ _ ih =>
    obtain ⟨used, rfl, hused⟩ := ih
    exact ⟨_ :: used, rfl, fun c hc => List.mem_cons.mpr ((List.mem_cons.mp hc).imp_right (hused c))⟩

/-! ### What stands between lines -/

/-- The octets are raw wherever they stand in a literal. -/
def IsPlain (run : Text) : Prop := ∀ c ∈ run, c ≠ Octet.quote ∧ c ≠ Octet.backslash

/-- The text may stand between two lines of a literal: a line terminator, and what is raw anywhere. -/
structure Separates (separator : Text) : Prop where
  opens : ∃ c more, separator = c :: more ∧ Octet.isLineTerminator c = true
  isPlain : IsPlain separator

theorem separates_append {ending w : Text} (he : ending ∈ lineEndings)
    (hw : isBlankLine w = true) : Separates (ending ++ w) := by
  have hclass : ∀ c, (Octet.isBlank c || Octet.isLineTerminator c) = true →
      c ≠ Octet.quote ∧ c ≠ Octet.backslash := Octet.forall_octet (by decide +kernel)
  have hterminators : ∀ ending ∈ lineEndings, ending ≠ [] ∧
      ending.all Octet.isLineTerminator = true := by decide
  obtain ⟨hne, hending⟩ := hterminators ending he
  rw [List.all_eq_true] at hending
  obtain ⟨c, more, rfl⟩ := List.exists_cons_of_ne_nil hne
  refine ⟨⟨c, more ++ w, rfl, hending c List.mem_cons_self⟩, fun d hd => hclass d ?_⟩
  rw [Bool.or_eq_true]
  exact (List.mem_append.mp hd).symm.imp (List.all_eq_true.mp hw d) (hending d)

theorem blockBody_octet {c : UInt8} (hc : c ≠ Octet.quote ∧ c ≠ Octet.backslash)
    {t raw rest : Text} :
    BlockBody (c :: t) raw rest ↔ ∃ after, raw = c :: after ∧ BlockBody t after rest := by
  constructor
  · intro h
    generalize hsource : c :: t = source at h
    cases h with
    | close => exact absurd (List.cons.inj hsource).1 hc.1
    | escaped => exact absurd (List.cons.inj hsource).1 hc.2
    | octet _ _ h =>
      obtain ⟨rfl, rfl⟩ := List.cons.inj hsource
      exact ⟨_, rfl, h⟩
  · rintro ⟨after, rfl, h⟩
    exact .octet (fun hp => hc.1 ((List.cons_prefix_cons.mp hp).1.symm))
      (fun hp => hc.2 ((List.cons_prefix_cons.mp hp).1.symm)) h

theorem blockBody_plain {run : Text} (hrun : IsPlain run) {t raw rest : Text} :
    BlockBody (run ++ t) raw rest ↔ ∃ after, raw = run ++ after ∧ BlockBody t after rest := by
  induction run generalizing raw with
  | nil =>
    refine ⟨fun h => ⟨raw, rfl, h⟩, ?_⟩
    rintro ⟨after, rfl, h⟩
    exact h
  | cons c run ih =>
    obtain ⟨hc, hrun⟩ := List.forall_mem_cons.mp hrun
    rw [List.cons_append, blockBody_octet hc]
    constructor
    · rintro ⟨_, rfl, h⟩
      obtain ⟨after, rfl, hbody⟩ := (ih hrun).mp h
      exact ⟨after, rfl, hbody⟩
    · rintro ⟨after, rfl, h⟩
      exact ⟨run ++ after, rfl, (ih hrun).mpr ⟨after, rfl, h⟩⟩

/-! ### The literal -/

/-- **The raw octets of a literal are laid out as the literal is.** Its lines stand for lines, and
they do so whatever stands between them. -/
theorem BlockBody.relaid {sep sep' : Text} (hs : Separates sep) (hs' : Separates sep')
    {rest : List Text} {first raw after : Text} (hfirst : IsLine first)
    (hrest : ∀ line ∈ rest, IsLine line)
    (h : BlockBody (join sep (first :: rest) ++ (blockQuote ++ after)) raw after) :
    ∃ block, block ≠ [] ∧ (∀ line ∈ block, IsLine line) ∧ raw = join sep block ∧
      BlockBody (join sep' (first :: rest) ++ (blockQuote ++ after)) (join sep' block) after := by
  induction rest generalizing first raw with
  | nil =>
    refine ⟨[raw], List.cons_ne_nil _ _, List.forall_mem_singleton.mpr fun c hc => ?_, rfl, h⟩
    -- what is raw stands in the line or in the quotes after it
    obtain ⟨used, hsource, hraw⟩ := h.mem_of_mem
    rw [← List.append_assoc] at hsource
    rw [← List.append_cancel_right hsource] at hraw
    have hquotes : IsLine blockQuote := by decide
    exact hfirst.append hquotes c (hraw c hc)
  | cons second rest ih =>
    obtain ⟨hsecond, hrest⟩ := List.forall_mem_cons.mp hrest
    obtain ⟨c, more, rfl, hc⟩ := hs.opens
    obtain ⟨c', more', rfl, hc'⟩ := hs'.opens
    rw [join_cons_cons, List.append_assoc, List.append_assoc] at h ⊢
    obtain ⟨line, after', hstands, rfl, hafter⟩ :=
      BlockBody.exists_line hc (by simp; omega) hfirst h
    obtain ⟨raw, rfl, hraw⟩ := (blockBody_plain hs.isPlain).mp hafter
    obtain ⟨block, hne, hblock, rfl, hbody⟩ := ih hsecond hrest hraw
    obtain ⟨second', rest', rfl⟩ := List.exists_cons_of_ne_nil hne
    refine ⟨line :: second' :: rest', List.cons_ne_nil _ _,
      List.forall_mem_cons.mpr ⟨hstands.isLine, hblock⟩, rfl, ?_⟩
    exact hstands.read hc' ((blockBody_plain hs'.isPlain).mpr ⟨_, rfl, hbody⟩)

end Text

namespace Scan

open Text

theorem lexes_blockQuote {t value rest : Text} :
    Lexes (blockQuote ++ t) (.string value) rest ↔
      ∃ raw, BlockBody t raw rest ∧ value = raw.dedent := by
  constructor
  · intro h
    generalize hsource : blockQuote ++ t = source at h
    cases h with
    | quoted hne =>
      obtain ⟨-, rfl⟩ := List.cons.inj hsource
      exact absurd (List.prefix_append _ t) hne
    | block hbody =>
      obtain rfl := List.append_cancel_left hsource
      exact ⟨_, hbody, rfl⟩
  · rintro ⟨raw, hbody, rfl⟩
    exact .block hbody

/-- A block literal that is laid out in one way has the value it has in another one. -/
theorem lexes_relaid {block : List Text} (hne : block ≠ []) (h : ∀ line ∈ block, IsLine line)
    {ending ending' w w' : Text} (he : ending ∈ lineEndings) (he' : ending' ∈ lineEndings)
    (hw : isBlankLine w = true) (hw' : isBlankLine w' = true) {value rest : Text}
    (hlexes : Lexes (blockLiteral (join ending (indentRest w block)) ++ rest) (.string value) rest) :
    Lexes (blockLiteral (join ending' (indentRest w' block)) ++ rest) (.string value) rest := by
  obtain ⟨first, others, rfl⟩ := List.exists_cons_of_ne_nil hne
  obtain ⟨hfirst, hothers⟩ := List.forall_mem_cons.mp h
  rw [blockLiteral, List.append_assoc, List.append_assoc, join_indentRest, lexes_blockQuote]
    at hlexes ⊢
  obtain ⟨raw, hbody, rfl⟩ := hlexes
  obtain ⟨read, hreadne, hread, rfl, hbody'⟩ :=
    hbody.relaid (separates_append he hw) (separates_append he' hw') hfirst hothers
  refine ⟨_, hbody', ?_⟩
  rw [← join_indentRest, ← join_indentRest, dedent_join hreadne hread he hw,
    dedent_join hreadne hread he' hw']

end Scan

namespace Text

/-- **Block literals depend neither on indentation nor on how lines end**: however the lines of a block
end, and however far all but the first of them are indented, its value is the same, and a literal
of it is the same token wherever it stands. No value starts or ends with a blank line. -/
theorem dedent_relaid {block : List Text} (hne : block ≠ []) (h : ∀ line ∈ block, IsLine line)
    {ending : Text} (he : ending ∈ lineEndings) {w : Text} (hw : isBlankLine w = true) :
    dedent (join ending block) = dedent (join [Octet.lf] block) ∧
      dedent (join ending (indentRest w block)) = dedent (join [Octet.lf] block) ∧
      (∀ value rest : Text,
        Scan.IsRead (blockLiteral (join ending (indentRest w block)) ++ rest) (.string value) rest ↔
          Scan.IsRead (blockLiteral (join [Octet.lf] block) ++ rest) (.string value) rest) ∧
      ∀ t : Text, IsTrimmed (dedent t) := by
  have hplain := indentRest_nil block
  have hlf : [Octet.lf] ∈ lineEndings := List.mem_cons_self
  have hnone : isBlankLine [] = true := rfl
  refine ⟨?_, dedent_join hne h he hw, fun value rest => ?_, isTrimmed_dedent⟩
  · have := dedent_join hne h he hnone
    rwa [hplain] at this
  · rw [Scan.isRead_iff, Scan.isRead_iff]
    constructor
    · intro hl
      have := Scan.lexes_relaid hne h he hlf hw hnone hl
      rwa [hplain] at this
    · intro hl
      rw [← hplain] at hl
      exact Scan.lexes_relaid hne h hlf he hnone hw hl

/-- Blank lines shorter and longer than the indentation, tabs, and an escape. -/
theorem dedent_relaid_mixed :
    let block : List Text := [" \t", "\t a\\\"\"\"", " ", "\t\t\t\t", "  b ", ""]
    let laid := join [Octet.cr, Octet.lf] (indentRest "\t " block)
    dedent laid = dedent (join [Octet.lf] block) ∧
      dedent (join [Octet.lf] block) = "a\\\"\"\"\n\n\t\t\nb " ∧
      Scan.IsRead (blockLiteral laid ++ "\x7d") (.string "a\"\"\"\n\n\t\t\nb ") "\x7d" := by
  intro block laid
  have hcrlf : [Octet.cr, Octet.lf] ∈ lineEndings := by decide
  have hindent : isBlankLine "\t " = true := by decide
  obtain ⟨-, hvalue, hread, -⟩ := dedent_relaid (show block ≠ [] by decide)
    (show ∀ line ∈ block, IsLine line by decide) hcrlf hindent
  refine ⟨hvalue, by decide +kernel, (hread _ _).mpr ?_⟩
  exact ⟨Octet.quote, _, 28, rfl, rfl, by decide +kernel, by decide⟩

end Text

end QueryCompiler
