import QueryCompiler.Proofs.Document.Indentation

/-!
# Printed documents spell their tokens

For each part of a document whose names and numbers are spelled as such: its text is cut into its
tokens again, with the values of strings sanitised. A part is put together from the texts of smaller
parts, each of which ends where a break or a punctuator follows. Selections are read as their lines,
written in front of what follows them (`Selection.spells_textOnto`), so that indentation is a gap like
any other.
-/

namespace QueryCompiler

open Scan

namespace Scan

/-! ### Gaps and brackets -/

theorem closed_comma : Closed ", " [] := closed_gap (List.all_eq_true.mp rfl)

theorem closed_space : Closed " " [] := closed_gap (List.all_eq_true.mp rfl)

theorem closed_colon : Closed ": " [.punctuator .colon] :=
  (closed_punctuator .colon).append_closed closed_space

/-- Parts that are all spelled. -/
theorem spells_map {α : Type} {text : α → Text} {tokens : α → List Token} {as : List α}
    (h : ∀ a ∈ as, Spells (text a) (tokens a)) :
    List.Forall₂ Spells (as.map text) (as.map tokens) := by
  rw [List.forall₂_map_left_iff, List.forall₂_map_right_iff, List.forall₂_same]
  exact h

/-- Texts with commas between them. -/
theorem spells_commas {parts : List Text} {tokens : List (List Token)}
    (h : List.Forall₂ Spells parts tokens) :
    Spells (Text.joinNonEmpty ", " parts) tokens.flatten :=
  spells_joinNonEmpty closed_comma (Text.breaks_cons rfl) (by decide) h

/-- Texts with spaces between them. -/
theorem spells_spaces {parts : List Text} {tokens : List (List Token)}
    (h : List.Forall₂ Spells parts tokens) :
    Spells (Text.joinNonEmpty " " parts) tokens.flatten :=
  spells_joinNonEmpty closed_space (Text.breaks_cons rfl) (by decide) h

theorem Spells.ne_nil {t : Text} {tokens : List Token} (h : Spells t tokens) (hne : tokens ≠ []) :
    t ≠ [] := by
  rintro rfl
  exact hne h.eq_nil

theorem wrap_of_ne_nil {t : Text} (h : t ≠ []) (before after : Text) :
    Text.wrap before t after = before ++ t ++ after := by
  rw [Text.wrap, if_neg (by simpa using h)]

/-- A text between two octets that are punctuators. -/
theorem closed_between (first last : Punctuator) {t : Text} {tokens : List Token}
    (h : Spells t tokens) (hl : Octet.isBreak last.octet = true) :
    Closed (first.octet :: (t ++ [last.octet]))
      (.punctuator first :: (tokens ++ [.punctuator last])) :=
  (closed_punctuator first).append_closed
    (h.append_closed (closed_punctuator last) (Text.breaks_cons hl) (List.cons_ne_nil _ _))

theorem closed_parenthesised {t : Text} {tokens : List Token} (h : Spells t tokens)
    (hne : t ≠ [] → tokens ≠ []) :
    Closed (Text.wrap "(" t ")") (Document.parenthesised tokens) := by
  by_cases ht : t = []
  · subst ht
    rw [h.eq_nil]
    exact closed_nil
  · obtain ⟨token, rest, rfl⟩ := List.exists_cons_of_ne_nil (hne ht)
    rw [wrap_of_ne_nil ht]
    exact closed_between .openParen .closeParen h rfl

theorem breaks_parenthesised (t : Text) : (Text.wrap "(" t ")").Breaks := by
  rw [Text.wrap]
  split_ifs
  · exact Text.breaks_nil
  · exact Text.breaks_cons rfl

end Scan

open Scan

/-! ### Types and values -/

theorem TypeRef.spells_text {t : TypeRef} (h : AreSpelled t.tokens) : Spells t.text t.tokens := by
  induction t with
  | named n => exact spells_name (areSpelled_cons.mp h).1
  | list inner ih =>
    have hinner := (areSpelled_append.mp (areSpelled_cons.mp h).2).1
    exact (closed_between .openBracket .closeBracket (ih hinner) rfl).spells
  | nonNull inner ih =>
    exact (ih (areSpelled_append.mp h).1).append (closed_punctuator .bang).spells
      (Text.breaks_cons rfl)

namespace Document

/-- A name, a colon and a text. -/
theorem spells_entry {name t : Text} {tokens : List Token} (hn : name.IsName) (h : Spells t tokens) :
    Spells (name ++ ": " ++ t) (.name name :: .punctuator .colon :: tokens) := by
  rw [List.append_assoc]
  exact (spells_name hn).append (closed_colon.append h) (Text.breaks_cons rfl)

namespace Value

mutual

theorem spells_text : ∀ {v : Value}, AreSpelled (v.tokens id) →
    Spells v.text (v.tokens Utf8.sanitise)
  | .variable name, h =>
    (closed_punctuator .dollar).append (spells_name (areSpelled_cons.mp (areSpelled_cons.mp h).2).1)
  | .int literal, h => spells_number (areSpelled_cons.mp h).1
  | .float literal, h => spells_number (areSpelled_cons.mp h).1
  | .string t, _ => spells_string t
  | .boolean b, h => spells_name (areSpelled_cons.mp h).1
  | .null, h => spells_name (areSpelled_cons.mp h).1
  | .enum name, h => spells_name (areSpelled_cons.mp h).1
  | .list values, h => by
    have hvalues := (areSpelled_append.mp (areSpelled_cons.mp h).2).1
    rw [tokens, tokensOfAll_eq]
    exact (closed_between .openBracket .closeBracket
      (spells_commas (spells_texts hvalues)) rfl).spells
  | .object fields, h => by
    have hfields := (areSpelled_append.mp (areSpelled_cons.mp h).2).1
    rw [tokens, tokensOfFields_eq]
    exact (closed_between .openBrace .closeBrace
      (spells_commas (spells_fieldTexts hfields)) rfl).spells

theorem spells_texts : ∀ {values : List Value}, AreSpelled (tokensOfAll id values) →
    List.Forall₂ Spells (texts values) (values.map (tokens Utf8.sanitise))
  | [], _ => .nil
  | value :: rest, h => by
    rw [tokensOfAll, areSpelled_append] at h
    exact .cons (spells_text h.1) (spells_texts h.2)

theorem spells_fieldTexts : ∀ {fields : List (Text × Value)},
    AreSpelled (tokensOfFields id fields) →
    List.Forall₂ Spells (fieldTexts fields) (fields.map fun field =>
      .name field.1 :: .punctuator .colon :: field.2.tokens Utf8.sanitise)
  | [], _ => .nil
  | (name, value) :: rest, h => by
    rw [tokensOfFields, areSpelled_append, areSpelled_cons, areSpelled_cons] at h
    exact .cons (spells_entry h.1.1 (spells_text h.1.2.2)) (spells_fieldTexts h.2)

end

end Value

/-! ### Arguments and directives -/

/-- Parts of one kind whose tokens are spelled as such are all spelled as such. -/
theorem forall₂_spells {α : Type} {text : α → Text} {source printed : α → List Token} {as : List α}
    (hs : AreSpelled (as.map source).flatten)
    (h : ∀ a ∈ as, AreSpelled (source a) → Spells (text a) (printed a)) :
    List.Forall₂ Spells (as.map text) (as.map printed) :=
  spells_map fun a ha => h a ha (areSpelled_of_mem hs ha)

theorem Argument.spells_text {a : Argument} (h : AreSpelled (a.tokens id)) :
    Spells a.text (a.tokens Utf8.sanitise) := by
  rw [Argument.tokens, areSpelled_cons, areSpelled_cons] at h
  exact spells_entry h.1 (Value.spells_text h.2.2)

theorem closed_argumentsText {as : List Argument} (h : AreSpelled (argumentsTokens id as)) :
    Closed (argumentsText as) (argumentsTokens Utf8.sanitise as) := by
  have hparts := forall₂_spells (areSpelled_parenthesised h) fun a _ ha => Argument.spells_text ha
  refine closed_parenthesised (spells_commas hparts) fun hne => ?_
  cases as with
  | nil => exact absurd rfl hne
  | cons a as => exact List.cons_ne_nil _ _

theorem Directive.spells_text {d : Directive} (h : AreSpelled (d.tokens id)) :
    Spells d.text (d.tokens Utf8.sanitise) := by
  rw [Directive.tokens, areSpelled_cons, areSpelled_cons] at h
  rw [Directive.text, List.append_assoc]
  exact (closed_punctuator .at).append ((spells_name h.2.1).append
    (closed_argumentsText h.2.2).spells (breaks_parenthesised _))

theorem spells_directivesText {ds : List Directive} (h : AreSpelled (directivesTokens id ds)) :
    Spells (directivesText ds) (directivesTokens Utf8.sanitise ds) :=
  spells_spaces (forall₂_spells h fun _ _ hd => Directive.spells_text hd)

/-! ### Selections -/

theorem Field.spells_text {f : Field} (h : AreSpelled (f.tokens id)) :
    Spells f.text (f.tokens Utf8.sanitise) := by
  rw [Field.tokens, areSpelled_append, areSpelled_cons, areSpelled_append] at h
  obtain ⟨halias, hname, hargs, hds⟩ := h
  have hrest : Spells (f.name ++ argumentsText f.arguments)
      (.name f.name :: argumentsTokens Utf8.sanitise f.arguments) :=
    (spells_name hname).append (closed_argumentsText hargs).spells (breaks_parenthesised _)
  have hhead : Spells (Text.wrap [] (f.aliasName.getD []) ": " ++ f.name ++ argumentsText f.arguments)
      (f.aliasName.elim [] (fun name => [.name name, .punctuator .colon]) ++
        .name f.name :: argumentsTokens Utf8.sanitise f.arguments) := by
    rw [List.append_assoc]
    cases ha : f.aliasName with
    | none => exact hrest
    | some n =>
      rw [ha] at halias
      have hn := spells_name (areSpelled_cons.mp halias).1
      rw [Option.getD_some, wrap_of_ne_nil (hn.ne_nil (List.cons_ne_nil _ _)), List.nil_append]
      exact (hn.append_closed closed_colon (Text.breaks_cons rfl) (by decide)).append hrest
  have hparts := spells_spaces (.cons hhead (.cons (spells_directivesText hds) .nil))
  rw [List.flatten_cons, List.flatten_cons, List.flatten_nil, List.append_nil] at hparts
  rw [Field.tokens, ← List.cons_append, ← List.append_assoc]
  exact hparts

/-- Directives after a space, or nothing. -/
theorem spells_wrap_space {t : Text} {tokens : List Token} (h : Spells t tokens) :
    Spells (Text.wrap " " t []) tokens := by
  by_cases ht : t = []
  · subst ht
    exact h
  · rw [wrap_of_ne_nil ht, List.append_nil]
    exact closed_space.append h

theorem breaks_wrap_space (t : Text) : (Text.wrap " " t []).Breaks := by
  rw [Text.wrap]
  split_ifs
  · exact Text.breaks_nil
  · exact Text.breaks_cons rfl

theorem Spread.spells_text {s : Spread} (h : AreSpelled (s.tokens id)) :
    Spells s.text (s.tokens Utf8.sanitise) := by
  rw [Spread.tokens, areSpelled_cons, areSpelled_cons] at h
  rw [Spread.text, List.append_assoc]
  exact closed_spread.append ((spells_name h.2.1).append
    (spells_wrap_space (spells_directivesText h.2.2)) (breaks_wrap_space _))

theorem InlineFragment.spells_text {i : InlineFragment} (h : AreSpelled (i.tokens id)) :
    Spells i.text (i.tokens Utf8.sanitise) := by
  rw [InlineFragment.tokens, areSpelled_cons, areSpelled_append] at h
  obtain ⟨-, htype, hds⟩ := h
  have hcondition : Spells (Text.wrap "on " (i.typeCondition.getD []) [])
      (i.typeCondition.elim [] fun type => [.name "on", .name type]) := by
    cases ht : i.typeCondition with
    | none => exact closed_nil.spells
    | some type =>
      rw [ht] at htype
      have hon := spells_name (areSpelled_cons.mp htype).1
      have hn := spells_name (areSpelled_cons.mp (areSpelled_cons.mp htype).2).1
      rw [Option.getD_some, wrap_of_ne_nil (hn.ne_nil (List.cons_ne_nil _ _)), List.append_nil]
      exact (hon.append_closed closed_space (Text.breaks_cons rfl) (by decide)).append hn
  have hparts := spells_spaces (.cons closed_spread.spells (.cons hcondition
    (.cons (spells_directivesText hds) .nil)))
  rw [List.flatten_cons, List.flatten_cons, List.flatten_cons, List.flatten_nil, List.append_nil]
    at hparts
  exact hparts

theorem spells_lineBreak {t : Text} {tokens : List Token} (h : Spells t tokens) (level : Nat) :
    Spells (lineBreak level t) tokens := by
  have hgap : Closed (List.replicate (2 * level) Octet.space) [] := by
    refine closed_gap fun c hc => ?_
    rw [List.eq_of_mem_replicate hc]
    rfl
  exact (closed_separator rfl : Closed [Octet.lf] []).append (hgap.append h)

theorem breaks_lineBreak (level : Nat) (t : Text) : (lineBreak level t).Breaks :=
  Text.breaks_cons rfl

theorem breaks_nestedOnto {level : Nat} {after : Text} (h : after.Breaks) (ss : List Selection) :
    (nestedOnto level after ss).Breaks := by
  cases ss with
  | nil => exact h
  | cons s ss => exact Text.breaks_cons rfl

theorem breaks_linesOnto {level : Nat} {after : Text} (h : after.Breaks) (ss : List Selection) :
    (linesOnto level after ss).Breaks := by
  cases ss with
  | nil => exact h
  | cons s ss => exact breaks_lineBreak _ _

mutual

/-- **A selection in front of what follows it.** -/
theorem Selection.spells_textOnto : ∀ {s : Selection} (level : Nat) {after : Text}
    {tokens : List Token}, AreSpelled (s.tokens id) → Spells after tokens → after.Breaks →
    Spells (s.textOnto level after) (s.tokens Utf8.sanitise ++ tokens)
  | .field head ss, level, after, tokens, h, hafter, hb => by
    rw [Selection.tokens, areSpelled_append] at h
    rw [Selection.tokens, List.append_assoc]
    exact (Field.spells_text h.1).append (spells_nestedOnto level h.2 hafter hb)
      (breaks_nestedOnto hb ss)
  | .spread head, level, after, tokens, h, hafter, hb =>
    (Spread.spells_text h).append hafter hb
  | .inline head ss, level, after, tokens, h, hafter, hb => by
    rw [Selection.tokens, areSpelled_append] at h
    rw [Selection.tokens, List.append_assoc]
    exact (InlineFragment.spells_text h.1).append (spells_nestedOnto level h.2 hafter hb)
      (breaks_nestedOnto hb ss)

theorem spells_nestedOnto : ∀ {ss : List Selection} (level : Nat) {after : Text}
    {tokens : List Token}, AreSpelled (Selection.setTokens id ss) → Spells after tokens →
    after.Breaks →
    Spells (nestedOnto level after ss) (Selection.setTokens Utf8.sanitise ss ++ tokens)
  | [], level, after, tokens, _, hafter, _ => hafter
  | s :: rest, level, after, tokens, h, hafter, hb => by
    rw [Selection.setTokens, areSpelled_cons, areSpelled_append, areSpelled_append] at h
    have hclose := spells_lineBreak ((closed_punctuator .closeBrace).append hafter) level
    have hlines := spells_linesOnto (level + 1) h.2.1.2 hclose (breaks_lineBreak _ _)
    have hfirst := Selection.spells_textOnto (level + 1) h.2.1.1 hlines
      (breaks_linesOnto (breaks_lineBreak _ _) rest)
    have hopen := (closed_punctuator .openBrace).append (spells_lineBreak hfirst (level + 1))
    have hall := (closed_separator rfl : Closed [Octet.space] []).append hopen
    rw [Selection.setTokens, List.cons_append, List.append_assoc, List.append_assoc]
    exact hall

theorem spells_linesOnto : ∀ {ss : List Selection} (level : Nat) {after : Text}
    {tokens : List Token}, AreSpelled (Selection.tokensOfAll id ss) → Spells after tokens →
    after.Breaks →
    Spells (linesOnto level after ss) (Selection.tokensOfAll Utf8.sanitise ss ++ tokens)
  | [], level, after, tokens, _, hafter, _ => hafter
  | s :: rest, level, after, tokens, h, hafter, hb => by
    rw [Selection.tokensOfAll, areSpelled_append] at h
    have hlines := spells_linesOnto level h.2 hafter hb
    have hfirst := Selection.spells_textOnto level h.1 hlines (breaks_linesOnto hb rest)
    rw [Selection.tokensOfAll, List.append_assoc]
    exact spells_lineBreak hfirst level

end

theorem spells_selectionSetText {ss : List Selection}
    (h : AreSpelled (Selection.setTokens id ss)) :
    Spells (selectionSetText ss) (Selection.setTokens Utf8.sanitise ss) := by
  cases ss with
  | nil => exact closed_nil.spells
  | cons s rest =>
    have hlaid : AreLaidOut (s :: rest) := areLaidOut_set h
    rw [Selection.setTokens, areSpelled_cons, areSpelled_append] at h
    have hclose := spells_lineBreak (closed_punctuator .closeBrace).spells 0
    have hlines : Spells (linesOnto 1 (lineBreak 0 [Punctuator.closeBrace.octet]) (s :: rest)) _ :=
      spells_linesOnto 1 h.2.1 hclose (breaks_lineBreak _ _)
    rw [selectionSetText_eq hlaid (List.cons_ne_nil _ _)]
    exact (closed_punctuator .openBrace).append hlines

/-! ### Definitions -/

theorem Variable.spells_text {v : Variable} (h : AreSpelled (v.tokens id)) :
    Spells v.text (v.tokens Utf8.sanitise) := by
  rw [Variable.tokens, areSpelled_cons, areSpelled_cons, areSpelled_cons, areSpelled_append] at h
  obtain ⟨-, hname, -, htype, hdefault⟩ := h
  have hhead : Spells ("$" ++ v.name ++ ": " ++ v.type.text)
      (.punctuator .dollar :: .name v.name :: .punctuator .colon :: v.type.tokens) := by
    rw [List.append_assoc, List.append_assoc, ← List.append_assoc v.name]
    exact (closed_punctuator .dollar).append (spells_entry hname (TypeRef.spells_text htype))
  rw [Variable.text, Variable.tokens]
  cases hv : v.defaultValue with
  | none =>
    rw [Option.elim_none, List.append_nil, List.append_nil]
    exact hhead
  | some value =>
    rw [hv] at hdefault
    have hvalue := Value.spells_text (areSpelled_cons.mp hdefault).2
    have hequals : Closed " = " [.punctuator .equals] :=
      closed_space.append_closed ((closed_punctuator .equals).append_closed closed_space)
    exact hhead.append (hequals.append hvalue) (Text.breaks_cons rfl)

theorem closed_variablesText {vs : List Variable}
    (h : AreSpelled (vs.map (Variable.tokens id)).flatten) :
    Closed (variablesText vs) (parenthesised (vs.map (Variable.tokens Utf8.sanitise)).flatten) := by
  refine closed_parenthesised (spells_commas (forall₂_spells h fun _ _ hv =>
    Variable.spells_text hv)) fun hne => ?_
  cases vs with
  | nil => exact absurd rfl hne
  | cons v vs => exact List.cons_ne_nil _ _

section
variable (string : Text → Text)

/-- The tokens of an operation, in its short form if it has one. -/
def Operation.tokens (o : Operation) : List Token :=
  if o.IsShort then Selection.setTokens string o.selections
  else o.longTokens string (o.variableDefinitions.map (Variable.tokens string)).flatten

/-- The tokens of a definition. -/
def Definition.tokens : Definition → List Token
  | .operation o => o.tokens string
  | .fragment f => f.tokens string

end

theorem Operation.setTokens_subset (o : Operation) :
    Selection.setTokens id o.selections ⊆ o.tokens id := by
  rw [Operation.tokens]
  split_ifs
  · exact List.Subset.refl _
  · rw [Operation.longTokens, ← List.append_assoc, ← List.append_assoc, ← List.cons_append]
    exact List.subset_append_right _ _

theorem Fragment.setTokens_subset (f : Fragment) :
    Selection.setTokens id f.selections ⊆ f.tokens id := by
  rw [Fragment.tokens]
  iterate 4 refine List.subset_cons_of_subset _ ?_
  exact List.subset_append_right _ _

/-- The text of a definition. -/
def Definition.text : Definition → Text
  | .operation o => o.text
  | .fragment f => f.text

/-- Nothing is printed for parts only if there are none. -/
theorem flatten_map_eq_nil {α : Type} {f : α → List Token} (hne : ∀ a, f a ≠ [])
    {as : List α} (h : (as.map f).flatten = []) : as = [] := by
  cases as with
  | nil => rfl
  | cons a as =>
    rw [List.map_cons, List.flatten_cons] at h
    exact absurd (List.append_eq_nil_iff.mp h).1 (hne a)

/-- An operation in its form with a keyword. -/
theorem Operation.spells_longText {o : Operation}
    (h : AreSpelled (o.longTokens id (o.variableDefinitions.map (Variable.tokens id)).flatten))
    (hlong : ¬ o.IsShort) :
    Spells o.text (o.longTokens Utf8.sanitise
      (o.variableDefinitions.map (Variable.tokens Utf8.sanitise)).flatten) := by
  rw [longTokens, areSpelled_cons, areSpelled_append, areSpelled_append, areSpelled_append] at h
  obtain ⟨hkeyword, hname, hvars, hds, hset⟩ := h
  have hvariables := closed_variablesText (areSpelled_parenthesised hvars)
  have hdirectives := spells_directivesText hds
  have hnamed : Spells (o.name.getD []) (o.name.elim [] fun name => [.name name]) := by
    cases ho : o.name with
    | none => exact closed_nil.spells
    | some n =>
      rw [ho] at hname
      exact spells_name (areSpelled_cons.mp hname).1
  -- If the keyword were left out, the operation would have nothing but selections.
  have hcondition : ¬ ((o.name.getD []).isEmpty && (directivesText o.directives).isEmpty &&
      (variablesText o.variableDefinitions).isEmpty && o.operation == .query) = true := by
    intro he
    simp only [Bool.and_eq_true, List.isEmpty_iff, beq_iff_eq] at he
    obtain ⟨⟨⟨hn, hd⟩, hv⟩, hq⟩ := he
    rw [hn] at hnamed
    rw [hd] at hdirectives
    rw [hv] at hvariables
    refine hlong ⟨hq, ?_, ?_, ?_⟩
    · cases ho : o.name with
      | none => rfl
      | some n =>
        rw [ho] at hnamed
        exact absurd hnamed.eq_nil (List.cons_ne_nil _ _)
    · refine flatten_map_eq_nil (f := Variable.tokens Utf8.sanitise)
        (fun v => List.cons_ne_nil _ _) ?_
      have hnil := hvariables.spells.eq_nil
      cases ht : (o.variableDefinitions.map (Variable.tokens Utf8.sanitise)).flatten with
      | nil => rfl
      | cons t rest =>
        rw [ht] at hnil
        cases hnil
    · exact flatten_map_eq_nil (fun d => List.cons_ne_nil _ _) hdirectives.eq_nil
  have hparts := spells_spaces (.cons (spells_name hkeyword) (.cons
    (hnamed.append hvariables.spells (breaks_parenthesised _)) (.cons hdirectives (.cons
      (spells_selectionSetText hset) .nil))))
  rw [List.flatten_cons, List.flatten_cons, List.flatten_cons, List.flatten_cons, List.flatten_nil,
    List.append_nil, List.append_assoc (o.name.elim _ _)] at hparts
  rw [Operation.text]
  simp only [if_neg hcondition]
  exact hparts

theorem Operation.spells_text {o : Operation} (h : AreSpelled (o.tokens id)) :
    Spells o.text (o.tokens Utf8.sanitise) := by
  rw [Operation.tokens] at h ⊢
  split_ifs at h ⊢ with hshort
  · obtain ⟨hquery, hname, hvars, hds⟩ := hshort
    rw [Operation.text, hquery, hname, hvars, hds]
    exact spells_selectionSetText h
  · exact spells_longText h hshort

theorem Fragment.spells_text {f : Fragment} (h : AreSpelled (f.tokens id)) :
    Spells f.text (f.tokens Utf8.sanitise) := by
  rw [Fragment.tokens, areSpelled_cons, areSpelled_cons, areSpelled_cons, areSpelled_cons,
    areSpelled_append] at h
  obtain ⟨hfragment, hname, hon, htype, hds, hset⟩ := h
  have hkeyword : Closed "fragment " [.name "fragment"] :=
    (spells_name hfragment).append_closed closed_space (Text.breaks_cons rfl) (by decide)
  have hcondition : Closed " on " [.name "on"] := closed_space.append_closed
    ((spells_name hon).append_closed closed_space (Text.breaks_cons rfl) (by decide))
  have hdirectives : Closed (Text.wrap [] (directivesText f.directives) " ")
      (directivesTokens Utf8.sanitise f.directives) := by
    have hd := spells_directivesText hds
    by_cases hnil : directivesText f.directives = []
    · rw [hnil] at hd ⊢
      rw [hd.eq_nil]
      exact closed_nil
    · have hgap := hd.append_closed closed_space (Text.breaks_cons rfl) (by decide)
      rw [List.append_nil] at hgap
      rw [wrap_of_ne_nil hnil]
      exact hgap
  have htail := closed_space.append (hdirectives.append (spells_selectionSetText hset))
  rw [Fragment.text]
  simp only [List.append_assoc]
  exact hkeyword.append ((spells_name hname).append
    (hcondition.append ((spells_name htype).append htail (Text.breaks_cons rfl)))
    (Text.breaks_cons rfl))

theorem Definition.spells_text {d : Definition} (h : AreSpelled (d.tokens id)) :
    Spells d.text (d.tokens Utf8.sanitise) := by
  cases d with
  | operation o => exact Operation.spells_text h
  | fragment f => exact Fragment.spells_text h

/-- Definitions that were told apart by their kinds come in their order again. -/
theorem definitionTexts_ofDefinitions (definitions : List Definition) :
    (ofDefinitions definitions).definitionTexts = definitions.map Definition.text := by
  induction definitions with
  | nil => rfl
  | cons d rest ih =>
    rw [List.map_cons, ← ih]
    cases d <;> rfl

/-- **A printed document is cut into the tokens of its definitions.** -/
theorem lex_text {definitions : List Definition}
    (h : AreSpelled (definitions.map (Definition.tokens id)).flatten) :
    lex (ofDefinitions definitions).text =
      some (definitions.map (Definition.tokens Utf8.sanitise)).flatten := by
  have hparts := spells_joinNonEmpty (closed_gap (List.all_eq_true.mp rfl) : Closed "\n\n" [])
    (Text.breaks_cons rfl) (by decide) (forall₂_spells h fun _ _ hd => Definition.spells_text hd)
  have hend : Closed [Octet.lf] [] := closed_separator rfl
  have hall := hparts.append_closed hend (Text.breaks_cons rfl) (List.cons_ne_nil _ _) []
  rw [List.append_nil, List.append_nil, lex_nil, Option.map_some, List.append_nil] at hall
  rw [text, definitionTexts_ofDefinitions]
  exact hall

end Document

end QueryCompiler
