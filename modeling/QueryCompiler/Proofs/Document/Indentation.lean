import QueryCompiler.Document.Printer
import QueryCompiler.Proofs.Document.Spelling
import QueryCompiler.Proofs.Source.Splitting
import QueryCompiler.Proofs.Text.Blocks

/-!
# Indentation

A selection set is printed as a block, and its lines are indented once for every block around it. The
same text can be written line by line: a line at a level starts with two spaces for each level, and
what follows is written behind it (`Selection.textOnto`).

* `linesOnto_indentLines`: what is written at a deeper level is what is written at the level above
  with two more spaces at the front of every line. This is said of selections whose heads stand on
  one line (`AreLaidOut`).
* `Selection.text_eq`, `selectionSetText_eq`: so the blocks are the lines.
* `areLaidOut_set`: no line ends in a name, a number or a literal, so selections whose tokens are
  spelled as such are laid out.
-/

namespace QueryCompiler

namespace Text

@[simp] theorem indentLines_append (s t : Text) :
    (s ++ t).indentLines = s.indentLines ++ t.indentLines :=
  List.flatMap_append

theorem indentLines_cons {c : UInt8} (h : c ≠ Octet.lf) (t : Text) :
    indentLines (c :: t) = c :: t.indentLines := by
  rw [indentLines, List.flatMap_cons, if_neg h]
  rfl

theorem indentLines_eq_self {t : Text} (h : Octet.lf ∉ t) : t.indentLines = t := by
  induction t with
  | nil => rfl
  | cons c t ih =>
    rw [List.mem_cons, not_or] at h
    rw [indentLines_cons (Ne.symm h.1), ih h.2]

/-! ### Lines -/

theorem isLine_escapeOctet (c : UInt8) : IsLine (escapeOctet c) := by
  have h : ∀ c : UInt8, (escapeOctet c).all fun d => !Octet.isLineTerminator d :=
    Octet.forall_octet (by decide +kernel)
  intro d hd
  simpa using List.all_eq_true.mp (h c) d hd

/-- **A literal stands on one line.** -/
theorem isLine_quoted (t : Text) : IsLine t.quoted := by
  intro d hd
  rw [quoted, List.mem_cons, List.mem_append, List.mem_singleton] at hd
  obtain rfl | hd | rfl := hd
  · rfl
  · obtain ⟨c, -, hc⟩ := List.mem_flatMap.mp hd
    exact isLine_escapeOctet c d hc
  · rfl

theorem isLine_joinNonEmpty {separator : Text} (hs : IsLine separator) {parts : List Text}
    (h : ∀ part ∈ parts, IsLine part) : IsLine (joinNonEmpty separator parts) := by
  intro c hc
  rw [← Bool.not_eq_true]
  intro hend
  refine not_mem_join (hs.not_mem hend) (fun part hpart => ?_) hc
  exact (h part (List.mem_of_mem_filter hpart)).not_mem hend

theorem isLine_wrap {before inner after : Text} (hbefore : IsLine before) (hinner : IsLine inner)
    (hafter : IsLine after) : IsLine (wrap before inner after) := by
  unfold wrap
  split_ifs
  · exact List.forall_mem_nil _
  · exact (hbefore.append hinner).append hafter

theorem IsName.isLine {t : Text} (h : t.IsName) : IsLine t := by
  have hclass : ∀ c : UInt8, Octet.isNameContinue c = true → Octet.isLineTerminator c = false :=
    Octet.forall_octet (by decide +kernel)
  exact fun c hc => hclass c (h.forall_mem c hc)

theorem IsNumber.isLine {isFloat : Bool} {t : Text} (h : t.IsNumber isFloat) : IsLine t := by
  have hclass : ∀ c : UInt8, Number.isNumeric c = true → Octet.isLineTerminator c = false :=
    Octet.forall_octet (by decide +kernel)
  exact fun c hc => hclass c ((Number.isLiteral_of_isNumber h).forall_mem c hc)

end Text

namespace Document

open Text (indentLines indentLines_cons indentLines_eq_self indentLines_append)

/-! ### Lines at a level -/

/-- A new line at a level: two spaces for each level. -/
def lineBreak (level : Nat) (after : Text) : Text :=
  Octet.lf :: (List.replicate (2 * level) Octet.space ++ after)

/-- A field without its selection set. -/
def Field.text (f : Field) : Text := Text.joinNonEmpty " " f.parts

/-- An inline fragment without its selection set. -/
def InlineFragment.text (i : InlineFragment) : Text := Text.joinNonEmpty " " i.parts

mutual

/-- The text of a selection that starts a line of a level, in front of a text. -/
def Selection.textOnto (level : Nat) (after : Text) : Selection → Text
  | .field head selections => head.text ++ nestedOnto level after selections
  | .spread head => head.text ++ after
  | .inline head selections => head.text ++ nestedOnto level after selections

/-- The selection set inside a selection of a level, in front of a text: a space, and the selections
in braces; nothing if there are none. -/
def nestedOnto (level : Nat) (after : Text) : List Selection → Text
  | [] => after
  | selection :: rest =>
    Octet.space :: 0x7B :: lineBreak (level + 1) (selection.textOnto (level + 1)
      (linesOnto (level + 1) (lineBreak level (0x7D :: after)) rest))

/-- Selections of a level, each on a line of its own, in front of a text. -/
def linesOnto (level : Nat) (after : Text) : List Selection → Text
  | [] => after
  | selection :: rest => lineBreak level (selection.textOnto level (linesOnto level after rest))

end

mutual

/-- What the selection and those inside it say besides their selection sets is not empty and stands
on one line. -/
def Selection.IsLaidOut : Selection → Prop
  | .field head selections => (head.text ≠ [] ∧ Octet.lf ∉ head.text) ∧ AreLaidOut selections
  | .spread head => head.text ≠ [] ∧ Octet.lf ∉ head.text
  | .inline head selections => (head.text ≠ [] ∧ Octet.lf ∉ head.text) ∧ AreLaidOut selections

/-- The selections and those inside them are laid out. -/
def AreLaidOut : List Selection → Prop
  | [] => True
  | selection :: rest => selection.IsLaidOut ∧ AreLaidOut rest

end

theorem isLaidOut_of_mem {selections : List Selection} (h : AreLaidOut selections) {s : Selection}
    (hs : s ∈ selections) : s.IsLaidOut := by
  induction selections with
  | nil => cases hs
  | cons t rest ih =>
    obtain rfl | hs := List.mem_cons.mp hs
    · exact h.1
    · exact ih h.2 hs

/-! ### One level more -/

theorem lineBreak_indentLines (level : Nat) (after : Text) :
    lineBreak (level + 1) after.indentLines = (lineBreak level after).indentLines := by
  have hspaces : Octet.lf ∉ List.replicate (2 * level) Octet.space := fun h => by
    cases List.eq_of_mem_replicate h
  have hbreak : lineBreak level after =
      [Octet.lf] ++ (List.replicate (2 * level) Octet.space ++ after) := rfl
  rw [hbreak, indentLines_append, indentLines_append, indentLines_eq_self hspaces]
  rfl

mutual

theorem Selection.textOnto_indentLines : ∀ {s : Selection}, s.IsLaidOut → ∀ (level : Nat)
    (after : Text), s.textOnto (level + 1) after.indentLines = (s.textOnto level after).indentLines
  | .field head selections, h, level, after => by
    rw [Selection.textOnto, Selection.textOnto, indentLines_append, indentLines_eq_self h.1.2,
      nestedOnto_indentLines h.2]
  | .spread head, h, level, after => by
    rw [Selection.textOnto, Selection.textOnto, indentLines_append, indentLines_eq_self h.2]
  | .inline head selections, h, level, after => by
    rw [Selection.textOnto, Selection.textOnto, indentLines_append, indentLines_eq_self h.1.2,
      nestedOnto_indentLines h.2]

theorem nestedOnto_indentLines : ∀ {selections : List Selection}, AreLaidOut selections →
    ∀ (level : Nat) (after : Text), nestedOnto (level + 1) after.indentLines selections =
      (nestedOnto level after selections).indentLines
  | [], _, _, _ => rfl
  | selection :: rest, h, level, after => by
    rw [nestedOnto, nestedOnto, indentLines_cons (by decide), indentLines_cons (by decide),
      ← lineBreak_indentLines, ← Selection.textOnto_indentLines h.1, ← linesOnto_indentLines h.2,
      ← lineBreak_indentLines, indentLines_cons (by decide)]

theorem linesOnto_indentLines : ∀ {selections : List Selection}, AreLaidOut selections →
    ∀ (level : Nat) (after : Text), linesOnto (level + 1) after.indentLines selections =
      (linesOnto level after selections).indentLines
  | [], _, _, _ => rfl
  | selection :: rest, h, level, after => by
    rw [linesOnto, linesOnto, linesOnto_indentLines h.2, Selection.textOnto_indentLines h.1,
      lineBreak_indentLines]

end

/-! ### What follows -/

theorem lineBreak_append (level : Nat) (after more : Text) :
    lineBreak level (after ++ more) = lineBreak level after ++ more := by
  rw [lineBreak, lineBreak, List.cons_append, List.append_assoc]

mutual

theorem Selection.textOnto_append (level : Nat) (after more : Text) : ∀ s : Selection,
    s.textOnto level (after ++ more) = s.textOnto level after ++ more
  | .field head selections => by
    rw [Selection.textOnto, Selection.textOnto, nestedOnto_append, List.append_assoc]
  | .spread head => by rw [Selection.textOnto, Selection.textOnto, List.append_assoc]
  | .inline head selections => by
    rw [Selection.textOnto, Selection.textOnto, nestedOnto_append, List.append_assoc]

theorem nestedOnto_append (level : Nat) (after more : Text) : ∀ selections : List Selection,
    nestedOnto level (after ++ more) selections = nestedOnto level after selections ++ more
  | [] => rfl
  | selection :: rest => by
    rw [nestedOnto, nestedOnto, ← List.cons_append, lineBreak_append, linesOnto_append,
      Selection.textOnto_append, lineBreak_append, List.cons_append, List.cons_append]

theorem linesOnto_append (level : Nat) (after more : Text) : ∀ selections : List Selection,
    linesOnto level (after ++ more) selections = linesOnto level after selections ++ more
  | [] => rfl
  | selection :: rest => by
    rw [linesOnto, linesOnto, linesOnto_append, Selection.textOnto_append, lineBreak_append]

end

/-! ### Blocks -/

theorem Selection.textOnto_ne_nil {s : Selection} (h : s.IsLaidOut) : s.textOnto 0 [] ≠ [] := by
  cases s with
  | field head selections => exact fun hnil => h.1.1 (List.append_eq_nil_iff.mp hnil).1
  | spread head => exact fun hnil => h.1 (List.append_eq_nil_iff.mp hnil).1
  | inline head selections => exact fun hnil => h.1.1 (List.append_eq_nil_iff.mp hnil).1

theorem linesOnto_zero (selections : List Selection) : linesOnto 0 [] selections =
    (selections.map (Selection.textOnto 0 [])).flatMap fun line => [Octet.lf] ++ line := by
  induction selections with
  | nil => rfl
  | cons selection rest ih =>
    have happend := selection.textOnto_append 0 [] (linesOnto 0 [] rest)
    rw [linesOnto, ← List.nil_append (linesOnto 0 [] rest), happend, ih]
    rfl

/-- The block of selections that are written by themselves is the selections in braces. -/
theorem block_eq {selections : List Selection} (h : AreLaidOut selections)
    (hne : selections ≠ []) : Text.block (selections.map (Selection.textOnto 0 [])) =
      0x7B :: linesOnto 1 (lineBreak 0 [0x7D]) selections := by
  have hparts : ∀ part ∈ selections.map (Selection.textOnto 0 []), part ≠ [] := fun part hpart => by
    obtain ⟨s, hs, rfl⟩ := List.mem_map.mp hpart
    exact Selection.textOnto_ne_nil (isLaidOut_of_mem h hs)
  have hone : linesOnto 1 [] selections = indentLines (linesOnto 0 [] selections) :=
    linesOnto_indentLines h 0 []
  obtain ⟨s, rest, rfl⟩ := List.exists_cons_of_ne_nil hne
  have hlines : linesOnto 0 [] (s :: rest) =
      [Octet.lf] ++ Text.join [Octet.lf] ((s :: rest).map (Selection.textOnto 0 [])) := by
    rw [linesOnto_zero, List.map_cons, Text.join_cons, List.flatMap_cons, List.append_assoc]
  have hjoin : (Text.join [Octet.lf] ((s :: rest).map (Selection.textOnto 0 []))).isEmpty = false :=
    List.isEmpty_eq_false_iff.mpr (Text.join_ne_nil (hparts _ List.mem_cons_self))
  rw [← List.nil_append (lineBreak 0 _), linesOnto_append, hone, hlines, indentLines_append,
    Text.block, Text.joinNonEmpty_eq_join hparts, Text.indent, hjoin]
  rfl

/-- After a space the block is the selection set inside a selection. -/
theorem wrap_block_eq {selections : List Selection} (h : AreLaidOut selections) :
    Text.wrap " " (Text.block (selections.map (Selection.textOnto 0 []))) [] =
      nestedOnto 0 [] selections := by
  cases selections with
  | nil => rfl
  | cons s rest =>
    rw [block_eq h (List.cons_ne_nil _ _), Text.wrap, List.append_nil]
    rfl

mutual

/-- **A selection is printed as its lines.** -/
theorem Selection.text_eq : ∀ {s : Selection}, s.IsLaidOut → s.text = s.textOnto 0 []
  | .field head selections, h => by
    rw [Selection.text, Selection.textOnto, selectionTexts_eq h.2,
      Text.joinNonEmpty_concat h.1.1, wrap_block_eq h.2]
    rfl
  | .spread head, _ => (List.append_nil _).symm
  | .inline head selections, h => by
    rw [Selection.text, Selection.textOnto, selectionTexts_eq h.2,
      Text.joinNonEmpty_concat h.1.1, wrap_block_eq h.2]
    rfl

theorem selectionTexts_eq : ∀ {selections : List Selection}, AreLaidOut selections →
    selectionTexts selections = selections.map (Selection.textOnto 0 [])
  | [], _ => rfl
  | s :: rest, h => by
    rw [selectionTexts, Selection.text_eq h.1, selectionTexts_eq h.2, List.map_cons]

end

/-- **A selection set is printed as its lines in braces.** -/
theorem selectionSetText_eq {selections : List Selection} (h : AreLaidOut selections)
    (hne : selections ≠ []) :
    selectionSetText selections = 0x7B :: linesOnto 1 (lineBreak 0 [0x7D]) selections := by
  rw [selectionSetText, selectionTexts_eq h, block_eq h hne]

/-! ### Heads of a source -/

section
open Text (IsLine)

theorem isLine_entry {name t : Text} (hn : name.IsName) (ht : IsLine t) :
    IsLine (name ++ ": " ++ t) :=
  (hn.isLine.append (show IsLine ": " by decide)).append ht

namespace Value

mutual

theorem isLine_text : ∀ {v : Value}, AreSpelled (v.tokens id) → IsLine v.text
  | .variable name, h => by
    have hname : name.IsName := (areSpelled_cons.mp (areSpelled_cons.mp h).2).1
    exact (show IsLine "$" by decide).append hname.isLine
  | .int literal, h => Text.IsNumber.isLine (areSpelled_cons.mp h).1
  | .float literal, h => Text.IsNumber.isLine (areSpelled_cons.mp h).1
  | .string t, _ => Text.isLine_quoted t
  | .boolean _, h | .null, h => Text.IsName.isLine (areSpelled_cons.mp h).1
  | .enum name, h => Text.IsName.isLine (areSpelled_cons.mp h).1
  | .list values, h => by
    have hvalues := (areSpelled_append.mp (areSpelled_cons.mp h).2).1
    exact ((show IsLine "[" by decide).append (Text.isLine_joinNonEmpty (by decide)
      (isLine_texts hvalues))).append (by decide)
  | .object fields, h => by
    have hfields := (areSpelled_append.mp (areSpelled_cons.mp h).2).1
    exact List.forall_mem_cons.mpr ⟨rfl, (Text.isLine_joinNonEmpty (by decide)
      (isLine_fieldTexts hfields)).append (by decide)⟩

theorem isLine_texts : ∀ {values : List Value}, AreSpelled (tokensOfAll id values) →
    ∀ t ∈ texts values, IsLine t
  | [], _ => List.forall_mem_nil _
  | value :: rest, h => by
    rw [tokensOfAll, areSpelled_append] at h
    exact List.forall_mem_cons.mpr ⟨isLine_text h.1, isLine_texts h.2⟩

theorem isLine_fieldTexts : ∀ {fields : List (Text × Value)},
    AreSpelled (tokensOfFields id fields) → ∀ t ∈ fieldTexts fields, IsLine t
  | [], _ => List.forall_mem_nil _
  | (name, value) :: rest, h => by
    rw [tokensOfFields, areSpelled_append, areSpelled_cons, areSpelled_cons] at h
    exact List.forall_mem_cons.mpr
      ⟨isLine_entry h.1.1 (isLine_text h.1.2.2), isLine_fieldTexts h.2⟩

end

end Value

theorem isLine_argumentsText {arguments : List Argument}
    (h : AreSpelled (argumentsTokens id arguments)) : IsLine (argumentsText arguments) := by
  rw [argumentsText]
  refine Text.isLine_wrap (by decide) (Text.isLine_joinNonEmpty (by decide) fun part hpart => ?_)
    (by decide)
  obtain ⟨a, ha, rfl⟩ := List.mem_map.mp hpart
  have htokens := areSpelled_of_mem (areSpelled_parenthesised h) ha
  rw [Argument.tokens, areSpelled_cons, areSpelled_cons] at htokens
  exact isLine_entry htokens.1 (Value.isLine_text htokens.2.2)

theorem isLine_directivesText {directives : List Directive}
    (h : AreSpelled (directivesTokens id directives)) : IsLine (directivesText directives) := by
  refine Text.isLine_joinNonEmpty (by decide) fun part hpart => ?_
  obtain ⟨d, hd, rfl⟩ := List.mem_map.mp hpart
  have htokens := areSpelled_of_mem h hd
  rw [Directive.tokens, areSpelled_cons, areSpelled_cons] at htokens
  exact ((show IsLine "@" by decide).append htokens.2.1.isLine).append
    (isLine_argumentsText htokens.2.2)

theorem Field.isLine_text {f : Field} (h : AreSpelled (f.tokens id)) : IsLine f.text := by
  rw [Field.tokens, areSpelled_append, areSpelled_cons, areSpelled_append] at h
  obtain ⟨halias, hname, harguments, hdirectives⟩ := h
  have haliasLine : IsLine (f.aliasName.getD []) := by
    cases ha : f.aliasName with
    | none => exact List.forall_mem_nil _
    | some name =>
      rw [ha] at halias
      exact Text.IsName.isLine (areSpelled_cons.mp halias).1
  have hfront : IsLine (Text.wrap [] (f.aliasName.getD []) ": " ++ f.name ++
      argumentsText f.arguments) :=
    ((Text.isLine_wrap (by decide) haliasLine (by decide)).append hname.isLine).append
      (isLine_argumentsText harguments)
  refine Text.isLine_joinNonEmpty (by decide) (List.forall_mem_cons.mpr ⟨hfront, ?_⟩)
  exact List.forall_mem_singleton.mpr (isLine_directivesText hdirectives)

theorem Field.text_ne_nil {f : Field} (h : AreSpelled (f.tokens id)) : f.text ≠ [] := by
  rw [Field.tokens, areSpelled_append, areSpelled_cons] at h
  obtain ⟨c, rest, hname, -⟩ := h.2.1
  refine Text.joinNonEmpty_ne_nil ?_
  simp [hname]

theorem Spread.isLine_text {s : Spread} (h : AreSpelled (s.tokens id)) : IsLine s.text := by
  rw [Spread.tokens, areSpelled_cons, areSpelled_cons] at h
  exact ((show IsLine "..." by decide).append h.2.1.isLine).append
    (Text.isLine_wrap (by decide) (isLine_directivesText h.2.2) (by decide))

theorem InlineFragment.text_ne_nil (i : InlineFragment) : i.text ≠ [] :=
  Text.joinNonEmpty_ne_nil (by decide)

theorem InlineFragment.isLine_text {i : InlineFragment} (h : AreSpelled (i.tokens id)) :
    IsLine i.text := by
  rw [InlineFragment.tokens, areSpelled_cons, areSpelled_append] at h
  obtain ⟨-, hcondition, hdirectives⟩ := h
  have hconditionLine : IsLine (i.typeCondition.getD []) := by
    cases hc : i.typeCondition with
    | none => exact List.forall_mem_nil _
    | some name =>
      rw [hc] at hcondition
      exact Text.IsName.isLine (areSpelled_cons.mp (areSpelled_cons.mp hcondition).2).1
  refine Text.isLine_joinNonEmpty (by decide) ?_
  refine List.forall_mem_cons.mpr ⟨by decide, List.forall_mem_cons.mpr ⟨?_, ?_⟩⟩
  · exact Text.isLine_wrap (by decide) hconditionLine (by decide)
  · exact List.forall_mem_singleton.mpr (isLine_directivesText hdirectives)

end

mutual

theorem Selection.isLaidOut : ∀ {s : Selection}, AreSpelled (s.tokens id) → s.IsLaidOut
  | .field head selections, h => by
    rw [Selection.tokens, areSpelled_append] at h
    exact ⟨⟨Field.text_ne_nil h.1, (Field.isLine_text h.1).not_mem rfl⟩, areLaidOut_set h.2⟩
  | .spread head, h => by
    rw [Selection.tokens] at h
    exact ⟨List.cons_ne_nil _ _, (Spread.isLine_text h).not_mem rfl⟩
  | .inline head selections, h => by
    rw [Selection.tokens, areSpelled_append] at h
    exact ⟨⟨InlineFragment.text_ne_nil head, (InlineFragment.isLine_text h.1).not_mem rfl⟩,
      areLaidOut_set h.2⟩

theorem areLaidOut_set : ∀ {selections : List Selection},
    AreSpelled (Selection.setTokens id selections) → AreLaidOut selections
  | [], _ => trivial
  | selection :: rest, h => by
    rw [Selection.setTokens, areSpelled_cons, areSpelled_append, areSpelled_append] at h
    exact ⟨Selection.isLaidOut h.2.1.1, areLaidOut_all h.2.1.2⟩

theorem areLaidOut_all : ∀ {selections : List Selection},
    AreSpelled (Selection.tokensOfAll id selections) → AreLaidOut selections
  | [], _ => trivial
  | selection :: rest, h => by
    rw [Selection.tokensOfAll, areSpelled_append] at h
    exact ⟨Selection.isLaidOut h.1, areLaidOut_all h.2⟩

end

end Document

end QueryCompiler
