import QueryCompiler.Proofs.Document.Nesting
import QueryCompiler.Proofs.Document.Reprint

/-!
# What a printed text keeps of its source

A printed text keeps the tokens of its source, except that the directives of variables are read and
forgotten, and that the keyword of a query goes where nothing but selections follow it. The values of
strings are kept as far as they are well-formed.

* `DocumentKeeps`: which tokens are kept, definition by definition, in terms of the grammar alone.
* `lex_text_of_keeps`: the text of a document that is parsed consists of the tokens that are kept.
* `text_eq_iff_kept`: so two documents have one text exactly if the same tokens are kept of their
  sources.
-/

namespace QueryCompiler

/-- The token with a function applied to the value of a string. -/
def Token.mapString (string : Text → Text) : Token → Token
  | .string value => .string (string value)
  | token => token

theorem TypeRef.map_tokens (string : Text → Text) (t : TypeRef) :
    t.tokens.map (Token.mapString string) = t.tokens := by
  induction t with
  | named name => rfl
  | list inner ih => simp [tokens, Token.mapString, ih]
  | nonNull inner ih => simp [tokens, Token.mapString, ih]

namespace Document

/-! ### A function of the values of strings, before and after -/

section Map
variable (string : Text → Text)

mutual

theorem Value.map_tokens : ∀ v : Value,
    (v.tokens id).map (Token.mapString string) = v.tokens string
  | .variable _ | .int _ | .float _ | .string _ | .boolean _ | .null | .enum _ => rfl
  | .list values => by
    simp [tokens, Token.mapString, map_tokensOfAll values]
  | .object fields => by
    simp [tokens, Token.mapString, map_tokensOfFields fields]

theorem Value.map_tokensOfAll : ∀ values : List Value,
    (tokensOfAll id values).map (Token.mapString string) = tokensOfAll string values
  | [] => rfl
  | value :: rest => by
    simp [tokensOfAll, map_tokens value, map_tokensOfAll rest]

theorem Value.map_tokensOfFields : ∀ fields : List (Text × Value),
    (tokensOfFields id fields).map (Token.mapString string) = tokensOfFields string fields
  | [] => rfl
  | (name, value) :: rest => by
    simp [tokensOfFields, Token.mapString, map_tokens value, map_tokensOfFields rest]

end

/-- What maps part by part maps as a whole. -/
theorem map_flatten_map {α : Type} {f : α → List Token} {g : α → List Token}
    (h : ∀ a, (f a).map (Token.mapString string) = g a) (as : List α) :
    (as.map f).flatten.map (Token.mapString string) = (as.map g).flatten := by
  induction as with
  | nil => rfl
  | cons a as ih => simp [h a, ih]

theorem map_parenthesised (tokens : List Token) :
    (parenthesised tokens).map (Token.mapString string) =
      parenthesised (tokens.map (Token.mapString string)) := by
  cases tokens with
  | nil => rfl
  | cons t rest => simp [parenthesised, Token.mapString]

theorem map_argumentsTokens (as : List Argument) :
    (argumentsTokens id as).map (Token.mapString string) = argumentsTokens string as := by
  have hargument : ∀ a : Argument,
      (a.tokens id).map (Token.mapString string) = a.tokens string := by
    intro a
    simp [Argument.tokens, Token.mapString, Value.map_tokens]
  rw [argumentsTokens, argumentsTokens, map_parenthesised, map_flatten_map string hargument]

theorem map_directivesTokens (ds : List Directive) :
    (directivesTokens id ds).map (Token.mapString string) = directivesTokens string ds := by
  refine map_flatten_map string (fun d => ?_) ds
  simp [Directive.tokens, Token.mapString, map_argumentsTokens]

theorem Field.map_tokens (f : Field) :
    (f.tokens id).map (Token.mapString string) = f.tokens string := by
  cases h : f.aliasName <;>
    simp [tokens, h, Token.mapString, map_argumentsTokens, map_directivesTokens]

theorem InlineFragment.map_tokens (i : InlineFragment) :
    (i.tokens id).map (Token.mapString string) = i.tokens string := by
  cases h : i.typeCondition <;> simp [tokens, h, Token.mapString, map_directivesTokens]

mutual

theorem Selection.map_tokens : ∀ s : Selection,
    (s.tokens id).map (Token.mapString string) = s.tokens string
  | .field head selections => by
    simp [tokens, Field.map_tokens, map_setTokens selections]
  | .spread head => by
    simp [tokens, Spread.tokens, Token.mapString, map_directivesTokens]
  | .inline head selections => by
    simp [tokens, InlineFragment.map_tokens, map_setTokens selections]

theorem Selection.map_setTokens : ∀ selections : List Selection,
    (setTokens id selections).map (Token.mapString string) = setTokens string selections
  | [] => rfl
  | selection :: rest => by
    simp [setTokens, Token.mapString, map_tokens selection, map_tokensOfAll rest]

theorem Selection.map_tokensOfAll : ∀ selections : List Selection,
    (tokensOfAll id selections).map (Token.mapString string) = tokensOfAll string selections
  | [] => rfl
  | selection :: rest => by
    simp [tokensOfAll, map_tokens selection, map_tokensOfAll rest]

end

theorem Variable.map_tokens (v : Variable) :
    (v.tokens id).map (Token.mapString string) = v.tokens string := by
  cases h : v.defaultValue <;>
    simp [tokens, h, Token.mapString, TypeRef.map_tokens, Value.map_tokens]

theorem Operation.map_tokens (o : Operation) :
    (o.tokens id).map (Token.mapString string) = o.tokens string := by
  have hvars := map_flatten_map string (Variable.map_tokens string) o.variableDefinitions
  unfold tokens
  split_ifs
  · exact Selection.map_setTokens string o.selections
  · cases h : o.name <;>
      simp [longTokens, h, Token.mapString, map_parenthesised, hvars, map_directivesTokens,
        Selection.map_setTokens]

theorem Definition.map_tokens (d : Definition) :
    (d.tokens id).map (Token.mapString string) = d.tokens string := by
  cases d with
  | operation o => exact o.map_tokens string
  | fragment f =>
    simp [tokens, Fragment.tokens, Token.mapString, map_directivesTokens, Selection.map_setTokens]

end Map

end Document

namespace Grammar

open QueryCompiler.Document

/-! ### The tokens that are kept -/

/-- Of a variable its directives are not kept. -/
def VariableKeeps (tokens kept : List Token) : Prop :=
  IsBareVariable kept ∧
    ∃ directives, Many (IsDirective true) directives ∧ tokens = kept ++ directives

/-- Parts in parentheses, or nothing if there are none, each of which keeps some tokens. -/
def ParenthesisedKeep (part : List Token → List Token → Prop) (tokens kept : List Token) : Prop :=
  ∃ parts keptParts, List.Forall₂ part parts keptParts ∧
    tokens = parenthesised parts.flatten ∧ kept = parenthesised keptParts.flatten

/-- An operation with its keyword, unless it is a query with nothing else before its selections. -/
def headed (type : OperationType) (name vars directives selections : List Token) : List Token :=
  if type = .query ∧ name ++ (vars ++ directives) = [] then selections
  else .name type.text :: (name ++ (vars ++ (directives ++ selections)))

/-- Of an operation the directives of its variables are not kept, nor is the keyword of a query with
nothing else before its selections. -/
def OperationKeeps (tokens kept : List Token) : Prop :=
  (IsSelectionSet tokens ∧ kept = tokens) ∨
    ∃ (type : OperationType) (name vars keptVars directives selections : List Token),
      Maybe (fun t => ∃ n, t = [.name n]) name ∧ ParenthesisedKeep VariableKeeps vars keptVars ∧
      Many (IsDirective false) directives ∧ IsSelectionSet selections ∧
      tokens = .name type.text :: (name ++ (vars ++ (directives ++ selections))) ∧
      kept = headed type name keptVars directives selections

/-- Of a fragment definition everything is kept. -/
def DefinitionKeeps (tokens kept : List Token) : Prop :=
  OperationKeeps tokens kept ∨ (IsFragment tokens ∧ kept = tokens)

/-- **The tokens that are kept of a document**, definition by definition. -/
def DocumentKeeps (tokens kept : List Token) : Prop :=
  ∃ parts keptParts, parts ≠ [] ∧ List.Forall₂ DefinitionKeeps parts keptParts ∧
    tokens = parts.flatten ∧ kept = keptParts.flatten

/-! ### The tokens that are kept are those that are printed -/

section
variable {tokens kept : List Token} {levels : Nat}

theorem directivesTokens_eq_nil {ds : List Directive} (h : directivesTokens id ds = []) :
    ds = [] :=
  flatten_map_eq_nil (fun _ => List.cons_ne_nil _ _) h

theorem parenthesised_eq_nil {vs : List Variable}
    (h : parenthesised (vs.map (Variable.tokens id)).flatten = []) : vs = [] := by
  refine flatten_map_eq_nil (f := Variable.tokens id) (fun _ => List.cons_ne_nil _ _) ?_
  cases hvars : (vs.map (Variable.tokens id)).flatten with
  | nil => rfl
  | cons t rest =>
    rw [hvars] at h
    exact absurd h (List.cons_ne_nil _ _)

/-- An operation is printed with its keyword unless it is short. -/
theorem headed_tokens (o : Operation) :
    headed o.operation (o.name.elim [] fun name => [.name name])
      (parenthesised (o.variableDefinitions.map (Variable.tokens id)).flatten)
      (directivesTokens id o.directives) (Selection.setTokens id o.selections) = o.tokens id := by
  by_cases hshort : o.IsShort
  · rw [headed, Operation.tokens, if_pos hshort, if_pos]
    obtain ⟨htype, hname, hvars, hdirectives⟩ := hshort
    refine ⟨htype, ?_⟩
    rw [hname, hvars, hdirectives]
    rfl
  · rw [headed, Operation.tokens, if_neg hshort, if_neg]
    · rfl
    · rintro ⟨htype, hnil⟩
      obtain ⟨hname, hnil⟩ := List.append_eq_nil_iff.mp hnil
      obtain ⟨hvars, hdirectives⟩ := List.append_eq_nil_iff.mp hnil
      refine hshort ⟨htype, ?_, parenthesised_eq_nil hvars, directivesTokens_eq_nil hdirectives⟩
      cases hn : o.name with
      | none => rfl
      | some n =>
        rw [hn] at hname
        cases hname

theorem variableKeeps_of_spelledBy {v : Variable} (h : v.SpelledBy id levels tokens) :
    VariableKeeps tokens (v.tokens id) := by
  obtain ⟨hfits, ds, hds, rfl⟩ := h
  exact ⟨isBareVariable_of_fits hfits, _, directives_of_fit hds, rfl⟩

theorem operationKeeps_of_spelledBy {o : Operation} (h : o.SpelledBy id levels tokens) :
    OperationKeeps tokens (o.tokens id) := by
  obtain ⟨hfits, ⟨hshort, rfl⟩ | ⟨parts, hparts, rfl⟩⟩ := h
  · refine Or.inl ⟨isSelectionSet_of_fits hfits.selections, ?_⟩
    rw [Operation.tokens, if_pos hshort]
  · have hvars : ParenthesisedKeep VariableKeeps (parenthesised parts.flatten)
        (parenthesised (o.variableDefinitions.map (Variable.tokens id)).flatten) := by
      refine ⟨parts, _, ?_, rfl, rfl⟩
      rw [List.forall₂_map_right_iff]
      exact (hparts.imp fun _ _ hv => variableKeeps_of_spelledBy hv).flip
    exact Or.inr ⟨o.operation, _, _, _, _, _, maybe_iff.mpr ⟨o.name, rfl⟩, hvars,
      directives_of_fit hfits.directives, isSelectionSet_of_fits hfits.selections, rfl,
      (headed_tokens o).symm⟩

/-- **Of tokens that spell a document those are kept that it is printed with.** -/
theorem documentKeeps_of_spelledBy {definitions : List Definition} {parts : List (List Token)}
    (hne : definitions ≠ [])
    (h : List.Forall₂ (Definition.SpelledBy id levels) definitions parts) :
    DocumentKeeps parts.flatten (definitions.map (Definition.tokens id)).flatten := by
  refine ⟨parts, _, ?_, ?_, rfl, rfl⟩
  · rintro rfl
    cases h
    exact hne rfl
  · rw [List.forall₂_map_right_iff]
    refine (h.imp fun x p hx => ?_).flip
    cases x with
    | operation o => exact Or.inl (operationKeeps_of_spelledBy hx)
    | fragment f =>
      obtain ⟨hfits, rfl⟩ := hx
      exact Or.inr ⟨isFragment_of_fits hfits, rfl⟩

/-! ### What spells a document is printed with the tokens that are kept -/

section Trees
variable {α : Type} {spelled : Nat → α → List Token → Prop} {spell : α → List Token}

/-- The tokens spell something that the other tokens are printed for. -/
def HasKeptTree (spelled : Nat → α → List Token → Prop) (spell : α → List Token)
    (tokens kept : List Token) : Prop :=
  HasTree (fun levels a tokens => spelled levels a tokens ∧ kept = spell a) tokens

theorem exists_keptTrees {parts keptParts : List (List Token)}
    (h : List.Forall₂ (HasKeptTree spelled spell) parts keptParts) :
    ∃ as, keptParts = as.map spell ∧ ∀ levels, parts.flatten.length ≤ levels →
      List.Forall₂ (spelled levels) as parts := by
  induction h with
  | nil => exact ⟨[], rfl, fun _ _ => .nil⟩
  | @cons p k parts keptParts hp _ ih =>
    obtain ⟨a, ha⟩ := hp
    obtain ⟨as, rfl, has⟩ := ih
    obtain ⟨-, rfl⟩ := ha p.length (Nat.le_refl _)
    refine ⟨a :: as, rfl, fun levels hle => ?_⟩
    rw [List.flatten_cons, List.length_append] at hle
    exact .cons (ha levels (by omega)).1 (has levels (by omega))

end Trees

theorem length_le_parenthesised (tokens : List Token) :
    tokens.length ≤ (parenthesised tokens).length := by
  cases tokens with
  | nil => exact Nat.le_refl 0
  | cons t rest => simp [parenthesised]

theorem VariableKeeps.hasTree (h : VariableKeeps tokens kept) :
    HasKeptTree (Variable.SpelledBy id) (Variable.tokens id) tokens kept := by
  obtain ⟨hbare, directives, hdirectives, rfl⟩ := h
  obtain ⟨v, hv⟩ := hbare.hasTree
  obtain ⟨ds, hds⟩ := directives_hasTree hdirectives
  refine ⟨v, fun levels hle => ?_⟩
  rw [List.length_append] at hle
  obtain ⟨hvFits, rfl⟩ := hv levels (by omega)
  obtain ⟨hdsFit, rfl⟩ := hds levels (by omega)
  exact ⟨⟨hvFits, ds, hdsFit, rfl⟩, rfl⟩

theorem OperationKeeps.hasTree (h : OperationKeeps tokens kept) :
    HasKeptTree (Operation.SpelledBy id) (Operation.tokens id) tokens kept := by
  obtain ⟨hset, rfl⟩ | ⟨type, name, vars, keptVars, directives, selections, hname,
    ⟨parts, keptParts, hparts, rfl, rfl⟩, hdirectives, hset, rfl, rfl⟩ := h
  · refine hset.hasTree.map (fun ss => ⟨.query, none, [], [], ss, {}, none⟩) (Nat.le_refl _)
      fun levels ss ⟨hfits, he⟩ => ?_
    have hshort : Operation.IsShort ⟨.query, none, [], [], ss, {}, none⟩ := ⟨rfl, rfl, rfl, rfl⟩
    refine ⟨⟨⟨nofun, nofun, hfits⟩, Or.inl ⟨hshort, he⟩⟩, ?_⟩
    rw [Operation.tokens, if_pos hshort]
    exact he
  · obtain ⟨n, rfl⟩ := maybe_iff.mp hname
    obtain ⟨vs, rfl, hvs⟩ := exists_keptTrees (hparts.imp fun _ _ hv => VariableKeeps.hasTree hv)
    obtain ⟨ds, hds⟩ := directives_hasTree hdirectives
    obtain ⟨ss, hss⟩ := hset.hasTree
    refine ⟨⟨type, n, vs, ds, ss, {}, none⟩, fun levels hle => ?_⟩
    have hvarsLength := length_le_parenthesised parts.flatten
    rw [List.length_cons, List.length_append, List.length_append, List.length_append] at hle
    have hvars := hvs levels (by omega)
    obtain ⟨hdsFit, rfl⟩ := hds levels (by omega)
    obtain ⟨hssFit, rfl⟩ := hss levels (by omega)
    have hvarsFit : ∀ v ∈ vs, v.Fits levels := Reader.forall_of_forall₂ hvars fun _ _ h => h.1
    exact ⟨⟨⟨hvarsFit, hdsFit, hssFit⟩, Or.inr ⟨parts, hvars, rfl⟩⟩,
      headed_tokens ⟨type, n, vs, ds, ss, {}, none⟩⟩

theorem DefinitionKeeps.hasTree (h : DefinitionKeeps tokens kept) :
    HasKeptTree (Definition.SpelledBy id) (Definition.tokens id) tokens kept := by
  obtain h | ⟨h, rfl⟩ := h
  · exact h.hasTree.map .operation (Nat.le_refl _) fun _ _ h => h
  · exact h.hasTree.map .fragment (Nat.le_refl _) fun _ _ h => ⟨h, h.2⟩

/-- **What spells a document is printed with the tokens that are kept of it.** -/
theorem DocumentKeeps.exists_definitions (h : DocumentKeeps tokens kept) :
    ∃ definitions parts, definitions ≠ [] ∧ tokens = parts.flatten ∧
      kept = (definitions.map (Definition.tokens id)).flatten ∧
      ∀ levels, tokens.length ≤ levels →
        List.Forall₂ (Definition.SpelledBy id levels) definitions parts := by
  obtain ⟨parts, keptParts, hne, hparts, rfl, rfl⟩ := h
  obtain ⟨definitions, rfl, hdefinitions⟩ :=
    exists_keptTrees (hparts.imp fun _ _ hx => DefinitionKeeps.hasTree hx)
  refine ⟨definitions, parts, ?_, rfl, rfl, hdefinitions⟩
  rintro rfl
  cases hdefinitions _ (Nat.le_refl _)
  exact hne rfl

end

end Grammar

namespace Document

open Grammar (DocumentKeeps documentKeeps_of_spelledBy)

/-! ### Sources and texts -/

variable {source a b : Text} {filePath filePath' : Option Text} {limit limit' : Nat}
  {d d' : Document}

theorem text_eq_of_plain_eq (h : d'.plain id = d.plain id) : d'.text = d.text := by
  have htext (d : Document) : (d.plain id).text = d.text := text_plain (fun _ => rfl) d
  rw [← htext d', h, htext d]

/-- Some tokens are kept of every source that is parsed. -/
theorem exists_documentKeeps (h : parse source filePath limit = .ok d) :
    ∃ kept, DocumentKeeps (Scan.scan source).tokens kept := by
  obtain ⟨-, definitions, parts, -, hne, hparts, htokens⟩ := spelledBy_of_parse h
  rw [htokens]
  exact ⟨_, documentKeeps_of_spelledBy hne hparts⟩

/-- **The text of what is parsed consists of the tokens that are kept**, with the values of strings
sanitised. -/
theorem lex_text_of_keeps (h : parse source filePath limit = .ok d) {kept : List Token}
    (hkept : DocumentKeeps (Scan.scan source).tokens kept) :
    Scan.lex d.text = some (kept.map (Token.mapString Utf8.sanitise)) := by
  obtain ⟨definitions, parts, hne, htokens, rfl, hspelled⟩ := hkept.exists_definitions
  -- With so many levels that both fit, the source is parsed as these definitions too.
  have hparts := hspelled (max limit (Scan.scan source).tokens.length) (Nat.le_max_right _ _)
  have hholds := (Scan.splits_of_isComplete (spelledBy_of_parse h).1).holds
  obtain ⟨d', hd', hplain⟩ :=
    parse_of_spelledBy ⟨definitions, parts, rfl, hne, hparts, htokens⟩ hholds filePath
  obtain rfl := Except.ok.inj ((parse_of_le (Nat.le_max_left _ _) h).symm.trans hd')
  have htext : d.text = (ofDefinitions definitions).text := text_eq_of_plain_eq hplain
  have hprinted : AreSpelled (definitions.map (Definition.tokens id)).flatten := by
    intro t ht
    have hsource := flatten_map_subset
      (hparts.imp fun _ _ hx => (Definition.tokens_subset hx).2) ht
    rw [← htokens] at hsource
    exact Scan.isSpelled_of_mem hsource
  rw [htext, lex_text hprinted, map_flatten_map Utf8.sanitise (Definition.map_tokens Utf8.sanitise)]

/-- What is parsed has the text of everything else that is parsed and whose text has the same
tokens. -/
theorem text_eq_of_lex_eq (h : parse a filePath limit = .ok d)
    (h' : parse b filePath' limit' = .ok d') (hlex : Scan.lex d.text = Scan.lex d'.text) :
    d.text = d'.text := by
  obtain ⟨⟨e, he, -, hetext⟩, -⟩ := parse_text h none
  obtain ⟨⟨e', he', -, hetext'⟩, -⟩ := parse_text h' none
  have hsplits := Scan.splits_of_isComplete (spelledBy_of_parse he).1
  have hsplits' : Scan.Splits d'.text (Scan.scan d.text).tokens :=
    Scan.splits_iff.mpr (hlex.symm.trans (Scan.splits_iff.mp hsplits))
  obtain ⟨e'', he'', hplain⟩ := parse_of_spelledBy (spelledBy_of_parse he).2 hsplits'.holds none
  have hle : limit ≤ max limit limit' := Nat.le_max_left _ _
  have hle' : limit' ≤ max limit limit' := Nat.le_max_right _ _
  have hsame : e'' = e' :=
    Except.ok.inj ((parse_of_le hle he'').symm.trans (parse_of_le hle' he'))
  rw [← hetext, ← hetext', ← hsame, text_eq_of_plain_eq hplain]

theorem map_sanitise_eq_self {tokens : List Token}
    (h : ∀ value, .string value ∈ tokens → Utf8.wellFormed value = true) :
    tokens.map (Token.mapString Utf8.sanitise) = tokens := by
  conv_rhs => rw [← List.map_id tokens]
  refine List.map_congr_left fun t ht => ?_
  cases t with
  | string value =>
    have hvalue : Utf8.sanitise value = value := Utf8.sanitise_of_wellFormed (h value ht)
    rw [Token.mapString, hvalue]
    rfl
  | _ => rfl

/-- **Two documents have one text exactly if the same tokens are kept of their sources**: all but the
directives of variables and the keyword of a query that has nothing but selections. The values of
strings count up to what is ill-formed in them, so exactly where they are well-formed. -/
theorem text_eq_iff_kept (h : parse a filePath limit = .ok d)
    (h' : parse b filePath' limit' = .ok d') :
    (∃ kept, DocumentKeeps (Scan.scan a).tokens kept) ∧
      (∃ kept, DocumentKeeps (Scan.scan b).tokens kept) ∧
      ∀ kept kept', DocumentKeeps (Scan.scan a).tokens kept →
        DocumentKeeps (Scan.scan b).tokens kept' →
          (d.text = d'.text ↔ kept.map (Token.mapString Utf8.sanitise) =
            kept'.map (Token.mapString Utf8.sanitise)) ∧
          ((∀ value, .string value ∈ kept ++ kept' → Utf8.wellFormed value = true) →
            (d.text = d'.text ↔ kept = kept')) := by
  refine ⟨exists_documentKeeps h, exists_documentKeeps h', fun kept kept' hkept hkept' => ?_⟩
  have hlex := lex_text_of_keeps h hkept
  have hlex' := lex_text_of_keeps h' hkept'
  have hiff : d.text = d'.text ↔ kept.map (Token.mapString Utf8.sanitise) =
      kept'.map (Token.mapString Utf8.sanitise) := by
    constructor
    · intro htext
      rw [← htext, hlex] at hlex'
      exact Option.some.inj hlex'
    · intro htokens
      refine text_eq_of_lex_eq h h' ?_
      rw [hlex, hlex', htokens]
  refine ⟨hiff, fun hformed => ?_⟩
  rw [hiff, map_sanitise_eq_self fun value hv => hformed value (List.mem_append_left _ hv),
    map_sanitise_eq_self fun value hv => hformed value (List.mem_append_right _ hv)]

/-- A query whose variable has a directive. -/
def directiveSource : Text := "query Q($a: Int @x) { a }"

/-- The query without the directive. -/
def bareSource : Text := "query Q($a: Int) { a }"

/-- The same tokens are kept of both, so they have one text. -/
theorem text_eq_iff_kept_directiveSource : ∃ d d' kept kept',
    parse directiveSource none 1 = .ok d ∧ parse bareSource none 1 = .ok d' ∧ d.text = d'.text ∧
    DocumentKeeps (Scan.scan directiveSource).tokens kept ∧
    DocumentKeeps (Scan.scan bareSource).tokens kept' ∧
    kept.map (Token.mapString Utf8.sanitise) = kept'.map (Token.mapString Utf8.sanitise) := by
  have htexts : (parse directiveSource none 1).toOption.map text =
      some ("query Q($a: Int) \x7b\n  a\n\x7d\n" : Text) := by decide +kernel
  have htexts' : (parse bareSource none 1).toOption.map text =
      some ("query Q($a: Int) \x7b\n  a\n\x7d\n" : Text) := by decide +kernel
  obtain ⟨d, hd, htext⟩ := Option.map_eq_some_iff.mp htexts
  obtain ⟨d', hd', htext'⟩ := Option.map_eq_some_iff.mp htexts'
  have hok := Success.toOption_eq_some.mp hd
  have hok' := Success.toOption_eq_some.mp hd'
  have hsame : d.text = d'.text := htext.trans htext'.symm
  obtain ⟨⟨kept, hk⟩, ⟨kept', hk'⟩, hiff⟩ := text_eq_iff_kept hok hok'
  exact ⟨d, d', kept, kept', hok, hok', hsame, hk, hk', (hiff kept kept' hk hk').1.mp hsame⟩

/-- **A printed text does not keep every token**: the two sources are printed alike, are well-formed,
have no query with nothing but selections, and are not made of the same tokens. -/
theorem text_forgets_directive : ∃ d d', parse directiveSource none 1 = .ok d ∧
    parse bareSource none 1 = .ok d' ∧ d.text = d'.text ∧
    d.operations.map Operation.text = d'.operations.map Operation.text ∧
    Utf8.wellFormed directiveSource = true ∧ Utf8.wellFormed bareSource = true ∧
    ¬ [.name "query", .punctuator .openBrace] <:+: (Scan.scan directiveSource).tokens ∧
    ¬ [.name "query", .punctuator .openBrace] <:+: (Scan.scan bareSource).tokens ∧
    (Scan.scan directiveSource).tokens ≠ (Scan.scan bareSource).tokens := by
  have htexts : (parse directiveSource none 1).toOption.map
        (fun d => (d.text, d.operations.map Operation.text)) =
      (parse bareSource none 1).toOption.map
        fun d => (d.text, d.operations.map Operation.text) := by decide +kernel
  have hok : (parse directiveSource none 1).isOk = true := by decide +kernel
  cases hd : parse directiveSource none 1 with
  | error e => rw [hd] at hok; cases hok
  | ok d =>
    rw [hd] at htexts
    obtain ⟨d', hd', hsame⟩ := Option.map_eq_some_iff.mp htexts.symm
    obtain ⟨htext, hoperations⟩ := Prod.mk.inj hsame
    exact ⟨d, d', rfl, Success.toOption_eq_some.mp hd', htext.symm, hoperations.symm,
      by decide +kernel, by decide +kernel, by decide +kernel, by decide +kernel, by decide +kernel⟩

end Document

end QueryCompiler
