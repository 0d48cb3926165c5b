import QueryCompiler.Proofs.Schema.Written

/-!
# Written schemas spell their tokens

For each part of a schema that can be written: its text is cut into its tokens. Parts are put together
with gaps between them, of which those that are empty leave no trace, and items in braces or between
separators are cut where the punctuators stand (`closed_braces`, `spells_join`).

* `NamedType.spells_text`: the text of a type.
* `Schema.lex_text`: the text of a schema is cut into the tokens of its root types and of its types.
-/

namespace QueryCompiler

open Scan
open Document (Value directivesTokens)

/-! ### Descriptions and deprecations -/

theorem spells_description {description : Option Text} (h : IsWritten description) :
    Spells (descriptionText description) (descriptionTokens description) := by
  cases description with
  | none => exact closed_nil.spells
  | some t =>
    have hstring := spells_string t
    rw [Utf8.sanitise_of_wellFormed (h t rfl)] at hstring
    exact hstring

/-- The tokens of a deprecation, one by one. -/
theorem deprecationTokens_eq (string : Text → Text) (reason : Text) :
    directivesTokens string (deprecations (some reason)) =
      [.punctuator .at, .name "deprecated", .punctuator .openParen, .name "reason",
        .punctuator .colon, .string (string reason), .punctuator .closeParen] := rfl

theorem spells_deprecation {reason : Option Text} (h : IsWritten reason) :
    Spells (deprecationText reason) (directivesTokens id (deprecations reason)) := by
  cases reason with
  | none => exact closed_nil.spells
  | some r =>
    have hdeprecated : Text.IsName "deprecated" := by decide
    have hreason : Text.IsName "reason" := by decide
    have hspelled : AreSpelled (directivesTokens id (deprecations (some r))) := by
      rw [deprecationTokens_eq]
      simp [AreSpelled, Token.IsSpelled, hdeprecated, hreason]
    have hspells := Document.Directive.spells_text
      (d := ⟨"deprecated", [⟨"reason", .string r⟩], {}⟩) hspelled
    have hsame : directivesTokens id (deprecations (some r)) =
        directivesTokens Utf8.sanitise (deprecations (some r)) := by
      rw [deprecationTokens_eq, deprecationTokens_eq, Utf8.sanitise_of_wellFormed (h r rfl)]
      rfl
    rw [hsame]
    exact hspells

/-- A type is spelled as such if its name is. -/
theorem TypeRef.areSpelled_tokens {type : TypeRef} (h : type.namedType.IsName) :
    AreSpelled type.tokens := by
  induction type with
  | named name => exact areSpelled_cons.mpr ⟨h, List.forall_mem_nil _⟩
  | list inner ih =>
    exact areSpelled_cons.mpr ⟨trivial, areSpelled_append.mpr ⟨ih h, areSpelled_cons.mpr
      ⟨trivial, List.forall_mem_nil _⟩⟩⟩
  | nonNull inner ih =>
    exact areSpelled_append.mpr ⟨ih h, areSpelled_cons.mpr ⟨trivial, List.forall_mem_nil _⟩⟩

/-! ### Braces and separators -/

/-- Items in braces. -/
theorem closed_braces {α : Type} {text : α → Text} {tokens : α → List Token} {as : List α}
    (h : ∀ a ∈ as, Spells (text a) (tokens a)) (hdescribed : ∀ a, IsDescribed (tokens a)) :
    Closed (bracesText (as.map text)) (braced (as.map tokens).flatten) := by
  have hgap : Closed "\n  " [] := closed_gap (List.all_eq_true.mp rfl)
  have hlines := spells_joinNonEmpty hgap (Text.breaks_cons rfl) (by decide) (spells_map h)
  cases as with
  | nil => exact closed_nil
  | cons a as =>
    obtain ⟨token, rest, htokens⟩ := List.exists_cons_of_ne_nil (hdescribed a).ne_nil
    rw [List.map_cons, List.map_cons, List.flatten_cons, htokens, List.cons_append] at hlines ⊢
    have hopen : Closed "\x7b\n  " [.punctuator .openBrace] :=
      (closed_punctuator .openBrace).append_closed hgap
    have hclose : Closed "\n\x7d" [.punctuator .closeBrace] :=
      (closed_separator rfl : Closed [Octet.lf] []).append_closed (closed_punctuator .closeBrace)
    rw [bracesText, wrap_of_ne_nil (hlines.ne_nil (List.cons_ne_nil _ _)), List.append_assoc]
    exact hopen.append_closed (hlines.append_closed hclose (Text.breaks_cons rfl) (by decide))

theorem closed_equals : Closed "= " [.punctuator .equals] :=
  (closed_punctuator .equals).append_closed closed_space

/-- A keyword with a space behind it. -/
theorem closed_keyword {keyword : Text} (h : keyword.IsName) :
    Closed (keyword ++ " ") [.name keyword] :=
  (spells_name h).append_closed closed_space (Text.breaks_cons rfl) (by decide)

/-- A separator with a space on both sides. -/
theorem closed_between (separator : Punctuator) :
    Closed (Octet.space :: separator.octet :: " ") [.punctuator separator] :=
  (closed_separator rfl : Closed [Octet.space] []).append_closed
    ((closed_punctuator separator).append_closed closed_space)

/-- Names with a separator between any two. -/
theorem spells_join (separator : Punctuator) : ∀ {names : List Text}, (∀ name ∈ names, name.IsName) →
    Spells (Text.join (Octet.space :: separator.octet :: " ") names) (separated separator names)
  | [], _ => closed_nil.spells
  | [name], h => spells_name (h name List.mem_cons_self)
  | name :: next :: rest, h => by
    have hrest := spells_join separator fun n hn => h n (List.mem_cons_of_mem _ hn)
    exact (spells_name (h name List.mem_cons_self)).append ((closed_between separator).append hrest)
      (Text.breaks_cons rfl)

/-- Names behind an opening, if there are any. -/
theorem spells_opened {opening : Text} {token : Token} (hopening : Closed opening [token])
    (separator : Punctuator) {name : Text} {rest : List Text}
    (h : ∀ n ∈ name :: rest, n.IsName) :
    Spells (Text.wrap opening (Text.join (Octet.space :: separator.octet :: " ") (name :: rest)) [])
      (token :: separated separator (name :: rest)) := by
  have hnames := spells_join separator h
  have hne : separated separator (name :: rest) ≠ [] := by
    cases rest <;> exact List.cons_ne_nil _ _
  rw [wrap_of_ne_nil (hnames.ne_nil hne), List.append_nil]
  exact hopening.append hnames

/-! ### Fields and values -/

theorem TypeRef.IsStandard.spells_text {type : TypeRef} (h : type.IsStandard) :
    Spells type.text type.tokens :=
  TypeRef.spells_text (areSpelled_tokens h.name)

/-- A default is cut into the tokens of its value. -/
theorem InputValueDefinition.IsStandard.lex_default {v : InputValueDefinition} (h : v.IsStandard)
    {t : Text} (ht : v.defaultValue = some t) : ∃ value : Value,
    value.Fits true Schema.nestingLimit ∧ value.text = t ∧
      Spells t (value.tokens Utf8.sanitise) ∧ (lex t).getD [] = value.tokens Utf8.sanitise := by
  obtain ⟨value, hfits, hspelled, rfl⟩ := h.default t ht
  have hspells := Value.spells_text hspelled
  refine ⟨value, hfits, rfl, hspells, ?_⟩
  have hlex := hspells [] Text.breaks_nil
  rw [List.append_nil, lex_nil] at hlex
  rw [hlex]
  exact List.append_nil _

theorem InputValueDefinition.spells_text {v : InputValueDefinition} (h : v.IsStandard) :
    Spells v.text v.tokens := by
  have hentry := Document.spells_entry h.name h.type.spells_text
  have hdefault : Spells (v.defaultValue.elim [] fun t => "= " ++ t)
      (defaultTokens v.defaultValue) := by
    cases ht : v.defaultValue with
    | none => exact closed_nil.spells
    | some t =>
      obtain ⟨value, -, -, hspells, hlex⟩ := h.lex_default ht
      rw [defaultTokens, Option.elim_some, Option.elim_some, hlex]
      exact closed_equals.append hspells
  have hparts := spells_spaces
    (.cons (spells_description h.description) (.cons hentry (.cons hdefault .nil)))
  rw [List.flatten_cons, List.flatten_cons, List.flatten_cons, List.flatten_nil, List.append_nil]
    at hparts
  exact hparts

theorem FieldDefinition.closed_argumentsText {args : List InputValueDefinition}
    (h : ∀ a ∈ args, a.IsStandard) : Closed (argumentsText args)
      (Document.parenthesised (args.map InputValueDefinition.tokens).flatten) := by
  have hparts := spells_map fun a ha => InputValueDefinition.spells_text (h a ha)
  refine closed_parenthesised (spells_commas hparts) fun hne => ?_
  cases args with
  | nil => exact absurd rfl hne
  | cons a args =>
    rw [List.map_cons, List.flatten_cons]
    exact List.append_ne_nil_of_left_ne_nil a.isDescribed.ne_nil _

theorem FieldDefinition.spells_text {f : FieldDefinition} (h : f.IsStandard) :
    Spells f.text f.tokens := by
  have htype : Spells (": " ++ f.type.text) (.punctuator .colon :: f.type.tokens) :=
    closed_colon.append h.type.spells_text
  have hhead := (spells_name h.name).append ((closed_argumentsText h.args).append htype)
    ((breaks_parenthesised _).append (Text.breaks_cons rfl))
  have hparts := spells_spaces (.cons (spells_description h.description)
    (.cons hhead (.cons (spells_deprecation h.reason) .nil)))
  rw [List.flatten_cons, List.flatten_cons, List.flatten_cons, List.flatten_nil, List.append_nil]
    at hparts
  simp only [List.append_assoc, List.cons_append, List.nil_append] at hparts
  exact hparts

theorem EnumValueDefinition.spells_text {v : EnumValueDefinition} (h : v.IsStandard) :
    Spells v.text v.tokens := by
  have hparts := spells_spaces (.cons (spells_description h.description)
    (.cons (spells_name h.name) (.cons (spells_deprecation h.reason) .nil)))
  rw [List.flatten_cons, List.flatten_cons, List.flatten_cons, List.flatten_nil, List.append_nil]
    at hparts
  exact hparts

/-! ### Types -/

namespace NamedType

theorem spells_interfaces {interfaces : List Text} (h : ∀ name ∈ interfaces, name.IsName) :
    Spells (interfacesText interfaces) (interfacesTokens interfaces) := by
  cases interfaces with
  | nil => exact closed_nil.spells
  | cons name rest =>
    have hname : Text.IsName "implements" := by decide
    have hkeyword : Closed "implements " [.name "implements"] := closed_keyword hname
    exact spells_opened hkeyword .ampersand h

theorem spells_members {members : List Text} (h : ∀ name ∈ members, name.IsName) :
    Spells (Text.wrap "= " (Text.join " | " members) []) (membersTokens members) := by
  cases members with
  | nil => exact closed_nil.spells
  | cons name rest => exact spells_opened closed_equals .bar h

/-- The parts of a type are cut into tokens part by part. -/
theorem exists_spells_parts {t : NamedType} (h : t.IsStandard) :
    ∃ parts, List.Forall₂ Spells t.partTexts parts ∧ parts.flatten = t.partTokens := by
  have hfields := closed_braces (fun f hf => FieldDefinition.spells_text (h.fields f hf))
    FieldDefinition.isDescribed
  have hvalues := closed_braces (fun v hv => EnumValueDefinition.spells_text (h.enumValues v hv))
    EnumValueDefinition.isDescribed
  have hinputs := closed_braces (fun f hf => InputValueDefinition.spells_text (h.inputFields f hf))
    InputValueDefinition.isDescribed
  unfold partTexts partTokens
  cases t.kind with
  | scalar => exact ⟨[], .nil, rfl⟩
  | object | interface =>
    exact ⟨_, .cons (spells_interfaces h.interfaces) (.cons hfields.spells .nil),
      by simp only [List.flatten_cons, List.flatten_nil, List.append_nil]⟩
  | union => exact ⟨_, .cons (spells_members h.members) .nil, List.append_nil _⟩
  | enum => exact ⟨_, .cons hvalues.spells .nil, List.append_nil _⟩
  | inputObject => exact ⟨_, .cons hinputs.spells .nil, List.append_nil _⟩

/-- **The text of a type** spells its tokens. -/
theorem spells_text {t : NamedType} (h : t.IsStandard) : Spells t.text t.tokens := by
  obtain ⟨parts, hparts, htokens⟩ := exists_spells_parts h
  have hkeyword : t.kind.keyword.IsName := by
    cases t.kind <;> decide
  have hline := spells_spaces (.cons (spells_name hkeyword) (.cons (spells_name h.name) hparts))
  have hbreak : Closed "\n" [] := closed_separator rfl
  have hboth := spells_joinNonEmpty hbreak (Text.breaks_cons rfl) (by decide)
    (.cons (spells_description h.description) (.cons hline .nil))
  rw [List.flatten_cons, List.flatten_cons, List.flatten_cons, List.flatten_cons, List.flatten_nil,
    htokens, List.append_nil] at hboth
  exact hboth

end NamedType

/-! ### Schemas -/

namespace Schema

variable {roots : OperationType → Option Text}

theorem RootsNamed.of_mem (h : RootsNamed roots) {root : OperationType × Text}
    (hroot : root ∈ rootList roots) : roots root.1 = some root.2 ∧ root.2.IsName := by
  obtain ⟨o, -, ho⟩ := List.mem_filterMap.mp hroot
  obtain ⟨name, hname, rfl⟩ := Option.map_eq_some_iff.mp ho
  exact ⟨hname, h o name hname⟩

theorem spells_rootsText (h : RootsNamed roots) : Spells (rootsText roots) (rootsTokens roots) := by
  have hroot : ∀ root ∈ rootList roots, Spells (rootText root) (rootTokens root) := by
    intro root hroot
    have hkeyword : root.1.text.IsName := by
      cases root.1 <;> decide
    exact Document.spells_entry hkeyword (spells_name (h.of_mem hroot).2)
  have hname : Text.IsName "schema" := by decide
  have hkeyword : Closed "schema " [.name "schema"] := closed_keyword hname
  exact hkeyword.append (closed_braces hroot isDescribed_root).spells

/-- **The text of a schema is cut into its tokens.** -/
theorem lex_text {types : List NamedType} (hroots : RootsNamed roots)
    (htypes : ∀ t ∈ types, t.IsStandard) : lex (text roots types) = some (tokens roots types) := by
  have hparts := spells_map fun t ht => NamedType.spells_text (htypes t ht)
  have hgap : Closed "\n\n" [] := closed_gap (List.all_eq_true.mp rfl)
  have hall := spells_joinNonEmpty hgap (Text.breaks_cons rfl) (by decide)
    (.cons (spells_rootsText hroots) hparts)
  have hend : Closed [Octet.lf] [] := closed_separator rfl
  have hlex := hall.append_closed hend (Text.breaks_cons rfl) (List.cons_ne_nil _ _) []
  rw [List.append_nil, lex_nil, List.append_nil] at hlex
  rw [text, hlex, List.flatten_cons, Option.map_some, List.append_nil]
  rfl

end Schema

end QueryCompiler
