import QueryCompiler.Proofs.Document.Limits
import QueryCompiler.Proofs.Document.Readable
import QueryCompiler.Proofs.Source.Splitting

/-!
# The grammar of documents

Which tokens are a document, as predicates of lists of tokens that know nothing of documents or of
readers. The sources that are parsed are those that split into such tokens (`parse_accepts_iff`).

* `IsDocument`: the grammar.
* `isDocument_of_spelledBy`: whatever spells a document is derived.
* `IsDocument.hasTree`: tokens that are derived spell a document, which nests no deeper than there are
  tokens. With so high a limit it is read, and then with every limit that is not exceeded.
-/

namespace QueryCompiler.Grammar

open QueryCompiler.Document

/-! ### The grammar -/

/-- Nothing or a part. -/
def Maybe (part : List Token → Prop) (tokens : List Token) : Prop := tokens = [] ∨ part tokens

/-- Any number of parts. -/
def Many (part : List Token → Prop) (tokens : List Token) : Prop :=
  ∃ parts : List (List Token), (∀ p ∈ parts, part p) ∧ tokens = parts.flatten

/-- One part or more. -/
def Several (part : List Token → Prop) (tokens : List Token) : Prop :=
  ∃ parts : List (List Token), parts ≠ [] ∧ (∀ p ∈ parts, part p) ∧ tokens = parts.flatten

/-- Tokens between two punctuators. -/
def between (left right : Punctuator) (tokens : List Token) : List Token :=
  .punctuator left :: (tokens ++ [.punctuator right])

/-- A name, a colon and what comes after. -/
def labelled (name : Text) (tokens : List Token) : List Token :=
  .name name :: .punctuator .colon :: tokens

/-- A type, which may be `null` or is marked. A mark stands once at most. -/
inductive IsType : (nullable : Bool) → List Token → Prop
  | named (name : Text) : IsType true [.name name]
  | list {nullable : Bool} {inner : List Token} : IsType nullable inner →
      IsType true (between .openBracket .closeBracket inner)
  | marked {tokens : List Token} : IsType true tokens → IsType false (tokens ++ [.punctuator .bang])

/-- A value; there are no variables in a constant one. -/
inductive IsValue (constant : Bool) : List Token → Prop
  | var (name : Text) : constant = false → IsValue constant [.punctuator .dollar, .name name]
  | int (literal : Text) : IsValue constant [.int literal]
  | float (literal : Text) : IsValue constant [.float literal]
  | string (value : Text) : IsValue constant [.string value]
  | name (name : Text) : IsValue constant [.name name]
  | list {values : List (List Token)} : (∀ v ∈ values, IsValue constant v) →
      IsValue constant (between .openBracket .closeBracket values.flatten)
  | object {fields : List (Text × List Token)} : (∀ f ∈ fields, IsValue constant f.2) →
      IsValue constant (between .openBrace .closeBrace
        (fields.map fun f => labelled f.1 f.2).flatten)

/-- One part or more in parentheses, or nothing. -/
def Parenthesised (part : List Token → Prop) : List Token → Prop :=
  Maybe fun tokens => ∃ inner, Several part inner ∧ tokens = between .openParen .closeParen inner

/-- An argument: a name, a colon and a value. -/
def IsArgument (constant : Bool) (tokens : List Token) : Prop :=
  ∃ name value, IsValue constant value ∧ tokens = labelled name value

/-- A directive: an at sign, a name and arguments, which may be missing. -/
def IsDirective (constant : Bool) (tokens : List Token) : Prop :=
  ∃ name arguments, Parenthesised (IsArgument constant) arguments ∧
    tokens = .punctuator .at :: .name name :: arguments

/-- A field without its selection set: an alias that may be missing, a name, arguments and
directives. -/
def IsField (tokens : List Token) : Prop :=
  ∃ label name arguments directives, Maybe (fun t => ∃ name, t = labelled name []) label ∧
    Parenthesised (IsArgument false) arguments ∧ Many (IsDirective false) directives ∧
    tokens = label ++ .name name :: (arguments ++ directives)

/-- A spread of a fragment, which is not named like the keyword. -/
def IsSpread (tokens : List Token) : Prop :=
  ∃ name directives, name ≠ ("on" : Text) ∧ Many (IsDirective false) directives ∧
    tokens = .spread :: .name name :: directives

/-- An inline fragment without its selection set. -/
def IsInline (tokens : List Token) : Prop :=
  ∃ condition directives, Maybe (fun t => ∃ type, t = [.name "on", .name type]) condition ∧
    Many (IsDirective false) directives ∧ tokens = .spread :: (condition ++ directives)

/-- A selection. A field may have a selection set, and an inline fragment must. -/
inductive IsSelection : List Token → Prop
  | field {tokens : List Token} : IsField tokens → IsSelection tokens
  | spread {tokens : List Token} : IsSpread tokens → IsSelection tokens
  | nested {head : List Token} {selections : List (List Token)} : IsField head ∨ IsInline head →
      selections ≠ [] → (∀ s ∈ selections, IsSelection s) →
      IsSelection (head ++ between .openBrace .closeBrace selections.flatten)

/-- One selection or more in braces. -/
def IsSelectionSet (tokens : List Token) : Prop :=
  ∃ selections, Several IsSelection selections ∧
    tokens = between .openBrace .closeBrace selections

/-- A variable, its type, a constant default that may be missing, and constant directives. -/
def IsVariable (tokens : List Token) : Prop :=
  ∃ name nullable type default directives, IsType nullable type ∧
    Maybe (fun t => ∃ value, IsValue true value ∧ t = .punctuator .equals :: value) default ∧
    Many (IsDirective true) directives ∧
    tokens = .punctuator .dollar :: labelled name (type ++ (default ++ directives))

/-- An operation: a selection set alone, or a keyword, a name that may be missing, variables,
directives and a selection set. -/
def IsOperation (tokens : List Token) : Prop :=
  IsSelectionSet tokens ∨
    ∃ (type : OperationType) (name vars directives selections : List Token),
      Maybe (fun t => ∃ n, t = [.name n]) name ∧ Parenthesised IsVariable vars ∧
      Many (IsDirective false) directives ∧ IsSelectionSet selections ∧
      tokens = .name type.text :: (name ++ (vars ++ (directives ++ selections)))

/-- A fragment definition, which is not named like the keyword. -/
def IsFragment (tokens : List Token) : Prop :=
  ∃ name type directives selections, name ≠ ("on" : Text) ∧ Many (IsDirective false) directives ∧
    IsSelectionSet selections ∧ tokens = .name "fragment" :: .name name :: .name "on" ::
      .name type :: (directives ++ selections)

/-- **The tokens of a document**: operations and fragment definitions, at least one. -/
def IsDocument : List Token → Prop := Several fun tokens => IsOperation tokens ∨ IsFragment tokens

/-- A part that may be missing and is known by a text. -/
theorem maybe_iff {spell : Text → List Token} {tokens : List Token} :
    Maybe (fun t => ∃ n, t = spell n) tokens ↔ ∃ n : Option Text, tokens = n.elim [] spell := by
  constructor
  · rintro (rfl | ⟨n, rfl⟩)
    · exact ⟨none, rfl⟩
    · exact ⟨some n, rfl⟩
  · rintro ⟨_ | n, rfl⟩
    · exact Or.inl rfl
    · exact Or.inr ⟨n, rfl⟩

theorem isArgument_ne_nil {constant : Bool} {tokens : List Token} (h : IsArgument constant tokens) :
    tokens ≠ [] := by
  obtain ⟨name, value, -, rfl⟩ := h
  exact List.cons_ne_nil _ _

theorem isVariable_ne_nil {tokens : List Token} (h : IsVariable tokens) : tokens ≠ [] := by
  obtain ⟨name, _, type, default, ds, -, -, -, rfl⟩ := h
  exact List.cons_ne_nil _ _

/-- A variable, its type and a default that may be missing, without directives. -/
def IsBareVariable (tokens : List Token) : Prop :=
  ∃ name nullable type default, IsType nullable type ∧
    Maybe (fun t => ∃ value, IsValue true value ∧ t = .punctuator .equals :: value) default ∧
    tokens = .punctuator .dollar :: labelled name (type ++ default)

theorem isVariable_iff {tokens : List Token} : IsVariable tokens ↔
    ∃ bare directives, IsBareVariable bare ∧ Many (IsDirective true) directives ∧
      tokens = bare ++ directives := by
  constructor
  · rintro ⟨name, nullable, type, default, directives, htype, hdefault, hdirectives, rfl⟩
    refine ⟨_, directives, ⟨name, nullable, type, default, htype, hdefault, rfl⟩, hdirectives, ?_⟩
    simp only [labelled, List.cons_append, List.append_assoc]
  · rintro ⟨_, directives, ⟨name, nullable, type, default, htype, hdefault, rfl⟩, hdirectives, rfl⟩
    refine ⟨name, nullable, type, default, directives, htype, hdefault, hdirectives, ?_⟩
    simp only [labelled, List.cons_append, List.append_assoc]

/-! ### Whatever spells a document is derived -/

section
variable {string : Text → Text} {constant : Bool} {levels : Nat}

theorem forall_of_forall₂_right {α β : Type} {related : α → β → Prop} {holds : β → Prop}
    {as : List α} {bs : List β} (h : List.Forall₂ related as bs)
    (hi : ∀ a b, related a b → holds b) : ∀ b ∈ bs, holds b :=
  Reader.forall_of_forall₂ h.flip fun b a hab => hi a b hab

theorem isType_of_fits {t : TypeRef} (h : t.Fits levels) : IsType (!t.isNonNull) t.tokens := by
  induction t generalizing levels with
  | named name => exact .named name
  | list inner ih =>
    cases levels with
    | zero => exact absurd h id
    | succ levels => exact .list (ih h)
  | nonNull inner ih =>
    rw [TypeRef.Fits] at h
    have hinner := ih h.2
    rw [h.1] at hinner
    exact .marked hinner

theorem isValue_of_fits : ∀ {levels : Nat} {v : Value}, v.Fits constant levels →
    IsValue constant (v.tokens string)
  | _, .variable name, h => .var name (by rwa [Value.Fits] at h)
  | _, .int literal, _ => .int literal
  | _, .float literal, _ => .float literal
  | _, .string _, _ => .string _
  | _, .boolean _, _ => .name _
  | _, .null, _ => .name _
  | _, .enum name, _ => .name name
  | 0, .list _, h => absurd h id
  | 0, .object _, h => absurd h id
  | levels + 1, .list values, h => by
    rw [Value.tokens, Value.tokensOfAll_eq]
    exact .list (List.forall_mem_map.mpr fun v hv => isValue_of_fits (h v hv))
  | levels + 1, .object fields, h => by
    rw [Value.tokens, Value.tokensOfFields_eq]
    have hfields : ∀ f ∈ fields.map fun field => (field.1, field.2.tokens string),
        IsValue constant f.2 := List.forall_mem_map.mpr fun f hf => isValue_of_fits (h f hf)
    have hvalue := IsValue.object hfields
    rwa [List.map_map] at hvalue

theorem parenthesised_of_forall {part : List Token → Prop} {parts : List (List Token)}
    (h : ∀ p ∈ parts, part p) (hne : ∀ p, part p → p ≠ []) :
    Parenthesised part (parenthesised parts.flatten) := by
  cases parts with
  | nil => exact Or.inl rfl
  | cons p rest =>
    obtain ⟨t, more, rfl⟩ := List.exists_cons_of_ne_nil (hne p (h p List.mem_cons_self))
    exact Or.inr ⟨_, ⟨_, List.cons_ne_nil _ _, h, rfl⟩, rfl⟩

theorem arguments_of_fit {arguments : List Argument} (h : ArgumentsFit constant levels arguments) :
    Parenthesised (IsArgument constant) (argumentsTokens string arguments) := by
  refine parenthesised_of_forall (List.forall_mem_map.mpr fun a ha => ?_) fun _ => isArgument_ne_nil
  exact ⟨a.name, _, isValue_of_fits (h a ha), rfl⟩

theorem directives_of_fit {directives : List Directive}
    (h : DirectivesFit constant levels directives) :
    Many (IsDirective constant) (directivesTokens string directives) :=
  ⟨_, List.forall_mem_map.mpr fun d hd => ⟨d.name, _, arguments_of_fit (h d hd), rfl⟩, rfl⟩

theorem isField_of_fits {f : Field} (hargs : ArgumentsFit false levels f.arguments)
    (hds : DirectivesFit false levels f.directives) : IsField (f.tokens string) :=
  ⟨_, f.name, _, _, maybe_iff.mpr ⟨f.aliasName, rfl⟩, arguments_of_fit hargs,
    directives_of_fit hds, rfl⟩

theorem isInline_of_fits {i : InlineFragment} (hds : DirectivesFit false levels i.directives) :
    IsInline (i.tokens string) :=
  ⟨_, _, maybe_iff.mpr ⟨i.typeCondition, rfl⟩, directives_of_fit hds, rfl⟩

/-- A head and a selection set that is derived. -/
theorem isSelection_nested {head set : List Token} (hhead : IsField head ∨ IsInline head)
    (h : IsSelectionSet set) : IsSelection (head ++ set) := by
  obtain ⟨_, ⟨selections, hne, hall, rfl⟩, rfl⟩ := h
  exact .nested hhead hne hall

theorem isSelection_of_fits {fits : List Selection → Prop}
    (hset : ∀ ss, fits ss → IsSelectionSet (Selection.setTokens string ss)) {s : Selection}
    (h : s.FitsWith levels fits) : IsSelection (s.tokens string) := by
  cases s with
  | field head selections =>
    obtain ⟨hargs, hds, hss⟩ := h
    have hhead : IsField (head.tokens string) := isField_of_fits hargs hds
    cases selections with
    | nil =>
      rw [Selection.tokens, Selection.setTokens, List.append_nil]
      exact .field hhead
    | cons s rest =>
      exact isSelection_nested (Or.inl hhead) (hset _ (hss (List.cons_ne_nil _ _)))
  | spread head => exact .spread ⟨head.name, _, h.1, directives_of_fit h.2, rfl⟩
  | inline head selections => exact isSelection_nested (Or.inr (isInline_of_fits h.1)) (hset _ h.2)

theorem isSelectionSet_of_fits {selections : List Selection} (h : SetFits levels selections) :
    IsSelectionSet (Selection.setTokens string selections) := by
  induction levels generalizing selections with
  | zero => exact absurd h id
  | succ levels ih =>
    rw [Selection.setTokens_eq string h.1]
    refine ⟨_, ⟨selections.map (Selection.tokens string), ?_, ?_, rfl⟩, rfl⟩
    · exact List.map_eq_nil_iff.not.mpr h.1
    · exact List.forall_mem_map.mpr fun s hs => isSelection_of_fits (fun _ => ih) (h.2 s hs)

theorem isBareVariable_of_fits {v : Variable} (h : v.Fits levels) :
    IsBareVariable (v.tokens string) := by
  refine ⟨v.name, _, _, _, isType_of_fits h.type, ?_, rfl⟩
  cases hv : v.defaultValue with
  | none => exact Or.inl rfl
  | some value => exact Or.inr ⟨_, isValue_of_fits (h.defaultValue value hv), rfl⟩

theorem isVariable_of_spelledBy {v : Variable} {tokens : List Token}
    (h : v.SpelledBy string levels tokens) : IsVariable tokens := by
  obtain ⟨hfits, ds, hds, rfl⟩ := h
  exact isVariable_iff.mpr ⟨_, _, isBareVariable_of_fits hfits, directives_of_fit hds, rfl⟩

theorem isOperation_of_spelledBy {o : Operation} {tokens : List Token}
    (h : o.SpelledBy string levels tokens) : IsOperation tokens := by
  obtain ⟨hfits, ⟨-, rfl⟩ | ⟨parts, hparts, rfl⟩⟩ := h
  · exact Or.inl (isSelectionSet_of_fits hfits.selections)
  · have hvars : Parenthesised IsVariable (parenthesised parts.flatten) :=
      parenthesised_of_forall (forall_of_forall₂_right hparts fun _ _ => isVariable_of_spelledBy)
        fun _ => isVariable_ne_nil
    exact Or.inr ⟨o.operation, _, _, _, _, maybe_iff.mpr ⟨o.name, rfl⟩, hvars,
      directives_of_fit hfits.directives, isSelectionSet_of_fits hfits.selections, rfl⟩

theorem isFragment_of_fits {f : Fragment} (h : f.Fits levels) : IsFragment (f.tokens string) :=
  ⟨f.name, f.typeCondition, _, _, h.name, directives_of_fit h.directives,
    isSelectionSet_of_fits h.selections, rfl⟩

/-- **Tokens that spell a document are derived.** -/
theorem isDocument_of_spelledBy {d : Document} {tokens : List Token}
    (h : d.SpelledBy string levels tokens) : IsDocument tokens := by
  obtain ⟨definitions, parts, -, hne, hparts, rfl⟩ := h
  refine ⟨parts, ?_, forall_of_forall₂_right hparts fun x tokens hx => ?_, rfl⟩
  · rintro rfl
    cases hparts
    exact hne rfl
  · cases x with
    | operation o => exact Or.inl (isOperation_of_spelledBy hx)
    | fragment f =>
      obtain ⟨hfits, rfl⟩ := hx
      exact Or.inr (isFragment_of_fits hfits)

end

/-! ### Tokens that are derived spell a document -/

/-- The tokens spell something that nests no deeper than there are tokens. -/
def HasTree {α : Type} (spelled : Nat → α → List Token → Prop) (tokens : List Token) : Prop :=
  ∃ a, ∀ levels, tokens.length ≤ levels → spelled levels a tokens

section
variable {α β : Type} {spelled : Nat → α → List Token → Prop} {spelled' : Nat → β → List Token → Prop}
  {part : List Token → Prop} {tokens : List Token} {constant : Bool}

/-- More tokens for more than that. -/
theorem HasTree.map {tokens' : List Token} (h : HasTree spelled tokens) (f : α → β)
    (hle : tokens.length ≤ tokens'.length)
    (hf : ∀ levels a, spelled levels a tokens → spelled' levels (f a) tokens') :
    HasTree spelled' tokens' := by
  obtain ⟨a, ha⟩ := h
  exact ⟨f a, fun levels hl => hf levels a (ha levels (Nat.le_trans hle hl))⟩

/-- Punctuators on both sides make up for a level. -/
theorem HasTree.between {left right : Punctuator} (h : HasTree spelled tokens) (f : α → β)
    (hf : ∀ levels a, spelled levels a tokens →
      spelled' (levels + 1) (f a) (between left right tokens)) :
    HasTree spelled' (between left right tokens) := by
  obtain ⟨a, ha⟩ := h
  refine ⟨f a, fun levels hle => ?_⟩
  rw [Grammar.between, List.length_cons, List.length_append] at hle
  obtain ⟨l, rfl⟩ : ∃ l, levels = l + 1 := ⟨levels - 1, by omega⟩
  exact hf l a (ha l (by omega))

theorem exists_trees {parts : List (List Token)} (h : ∀ p ∈ parts, HasTree spelled p) :
    ∃ as, ∀ levels, parts.flatten.length ≤ levels →
      List.Forall₂ (spelled levels) as parts := by
  induction parts with
  | nil => exact ⟨[], fun _ _ => .nil⟩
  | cons p parts ih =>
    obtain ⟨a, ha⟩ := h p List.mem_cons_self
    obtain ⟨as, has⟩ := ih fun q hq => h q (List.mem_cons_of_mem p hq)
    refine ⟨a :: as, fun levels hle => ?_⟩
    rw [List.flatten_cons, List.length_append] at hle
    exact .cons (ha levels (by omega)) (has levels (by omega))

theorem hasTree_flatten {fits : Nat → α → Prop} {spell : α → List Token}
    {parts : List (List Token)}
    (h : ∀ p ∈ parts, HasTree (fun levels a tokens => fits levels a ∧ tokens = spell a) p) :
    HasTree (fun levels (as : List α) _ => (∀ a ∈ as, fits levels a) ∧ parts = as.map spell)
      parts.flatten := by
  obtain ⟨as, has⟩ := exists_trees h
  exact ⟨as, fun levels hle => Reader.forall₂_spelled.mp (has levels hle)⟩

theorem length_le_labelled (name : Text) (tokens : List Token) :
    tokens.length ≤ (labelled name tokens).length := by
  rw [labelled, List.length_cons, List.length_cons]
  omega

theorem IsType.hasTree {nullable : Bool} (h : IsType nullable tokens) :
    HasTree (fun levels (t : TypeRef) tokens =>
      t.isNonNull = !nullable ∧ t.Fits levels ∧ tokens = t.tokens) tokens := by
  induction h with
  | named name => exact ⟨.named name, fun levels _ => ⟨rfl, by cases levels <;> trivial, rfl⟩⟩
  | list _ ih => exact ih.between .list fun _ t ⟨_, hfits, he⟩ => ⟨rfl, hfits, by rw [he]; rfl⟩
  | marked _ ih =>
    refine ih.map .nonNull (by rw [List.length_append]; omega) fun levels t ⟨hnot, hfits, he⟩ => ?_
    exact ⟨rfl, by rw [TypeRef.Fits]; exact ⟨hnot, hfits⟩, by rw [he]; rfl⟩

theorem IsValue.hasTree (h : IsValue constant tokens) :
    HasTree (fun levels (v : Value) tokens =>
      v.Fits constant levels ∧ tokens = v.tokens id) tokens := by
  induction h with
  | var name hc => exact ⟨.variable name, fun levels _ => ⟨by rwa [Value.Fits], rfl⟩⟩
  | int literal => exact ⟨.int literal, fun levels _ => ⟨by cases levels <;> trivial, rfl⟩⟩
  | float literal => exact ⟨.float literal, fun levels _ => ⟨by cases levels <;> trivial, rfl⟩⟩
  | string value => exact ⟨.string value, fun levels _ => ⟨by cases levels <;> trivial, rfl⟩⟩
  | name name =>
    exact ⟨Reader.valueOfName name, fun levels _ => ⟨Reader.valueOfName_fits constant levels name,
      (Reader.tokens_valueOfName id name).symm⟩⟩
  | list _ ih =>
    refine (hasTree_flatten ih).between .list fun levels vs h => ⟨h.1, ?_⟩
    rw [h.2, Value.tokens, Value.tokensOfAll_eq]
    rfl
  | @object fields _ ih =>
    have hfields : ∀ p ∈ fields.map fun f => labelled f.1 f.2, HasTree
        (fun levels (f : Text × Value) tokens =>
          f.2.Fits constant levels ∧ tokens = labelled f.1 (f.2.tokens id)) p :=
      List.forall_mem_map.mpr fun f hf => (ih f hf).map (f.1, ·) (length_le_labelled _ _)
        fun _ v h => ⟨h.1, by rw [h.2]⟩
    refine (hasTree_flatten hfields).between .object fun levels fs h => ⟨h.1, ?_⟩
    rw [h.2, Value.tokens, Value.tokensOfFields_eq]
    rfl

theorem Parenthesised.hasTree (h : Parenthesised part tokens)
    (hpart : ∀ p, part p → HasTree spelled p) (hne : ∀ p, part p → p ≠ []) :
    HasTree (fun levels as tokens => ∃ parts, List.Forall₂ (spelled levels) as parts ∧
      tokens = parenthesised parts.flatten) tokens := by
  obtain rfl | ⟨_, ⟨parts, hparts, hall, rfl⟩, rfl⟩ := h
  · exact ⟨[], fun _ _ => ⟨[], .nil, rfl⟩⟩
  · obtain ⟨as, has⟩ := exists_trees fun p hp => hpart p (hall p hp)
    refine ⟨as, fun levels hle => ⟨parts, has levels ?_, ?_⟩⟩
    · rw [Grammar.between, List.length_cons, List.length_append] at hle
      omega
    · obtain ⟨p, rest, rfl⟩ := List.exists_cons_of_ne_nil hparts
      obtain ⟨t, more, rfl⟩ := List.exists_cons_of_ne_nil (hne p (hall p List.mem_cons_self))
      rfl

theorem arguments_hasTree (h : Parenthesised (IsArgument constant) tokens) :
    HasTree (fun levels as tokens =>
      ArgumentsFit constant levels as ∧ tokens = argumentsTokens id as) tokens := by
  have hargument : ∀ p, IsArgument constant p → HasTree (fun levels (a : Argument) tokens =>
      a.value.Fits constant levels ∧ tokens = a.tokens id) p := by
    rintro _ ⟨name, value, hvalue, rfl⟩
    exact hvalue.hasTree.map (Argument.mk name) (length_le_labelled _ _)
      fun _ v ⟨hfits, he⟩ => ⟨hfits, by rw [he]; rfl⟩
  refine (h.hasTree hargument fun _ => isArgument_ne_nil).map id (Nat.le_refl _) ?_
  rintro levels as ⟨parts, hparts, he⟩
  obtain ⟨hfits, rfl⟩ := Reader.forall₂_spelled.mp hparts
  exact ⟨hfits, he⟩

theorem directives_hasTree (h : Many (IsDirective constant) tokens) :
    HasTree (fun levels ds tokens =>
      DirectivesFit constant levels ds ∧ tokens = directivesTokens id ds) tokens := by
  have hdirective : ∀ p, IsDirective constant p → HasTree (fun levels (d : Directive) tokens =>
      ArgumentsFit constant levels d.arguments ∧ tokens = d.tokens id) p := by
    rintro _ ⟨name, arguments, harguments, rfl⟩
    refine (arguments_hasTree harguments).map (fun as => ⟨name, as, {}⟩) ?_
      fun _ as ⟨hfits, he⟩ => ⟨hfits, by rw [he]; rfl⟩
    rw [List.length_cons, List.length_cons]
    omega
  obtain ⟨parts, hparts, rfl⟩ := h
  exact (hasTree_flatten fun p hp => hdirective p (hparts p hp)).map id (Nat.le_refl _)
    fun _ ds ⟨hfits, he⟩ => ⟨hfits, by rw [he]; rfl⟩

/-- A field whose selection set is still to come. -/
theorem IsField.hasTree (h : IsField tokens) : HasTree (fun levels (f : Field) tokens =>
    (ArgumentsFit false levels f.arguments ∧ DirectivesFit false levels f.directives) ∧
      tokens = f.tokens id) tokens := by
  obtain ⟨label, name, arguments, directives, hlabel, harguments, hdirectives, rfl⟩ := h
  obtain ⟨as, has⟩ := arguments_hasTree harguments
  obtain ⟨ds, hds⟩ := directives_hasTree hdirectives
  obtain ⟨aliasName, rfl⟩ := maybe_iff.mp hlabel
  refine ⟨⟨aliasName, name, as, ds, {}⟩, fun levels hle => ?_⟩
  rw [List.length_append, List.length_cons, List.length_append] at hle
  obtain ⟨hargs, rfl⟩ := has levels (by omega)
  obtain ⟨hdirs, rfl⟩ := hds levels (by omega)
  exact ⟨⟨hargs, hdirs⟩, rfl⟩

theorem IsInline.hasTree (h : IsInline tokens) : HasTree (fun levels (i : InlineFragment) tokens =>
    DirectivesFit false levels i.directives ∧ tokens = i.tokens id) tokens := by
  obtain ⟨condition, directives, hcondition, hdirectives, rfl⟩ := h
  obtain ⟨typeCondition, rfl⟩ := maybe_iff.mp hcondition
  refine (directives_hasTree hdirectives).map (fun ds => ⟨typeCondition, ds, {}⟩) ?_
    fun _ ds ⟨hds, he⟩ => ⟨hds, by rw [he]; rfl⟩
  rw [List.length_cons, List.length_append]
  omega

theorem IsSpread.hasTree (h : IsSpread tokens) : HasTree (fun levels (s : Spread) tokens =>
    (s.name ≠ ("on" : Text) ∧ DirectivesFit false levels s.directives) ∧
      tokens = s.tokens id) tokens := by
  obtain ⟨name, directives, hname, hdirectives, rfl⟩ := h
  refine (directives_hasTree hdirectives).map (fun ds => ⟨name, ds, {}⟩) ?_
    fun _ ds ⟨hds, he⟩ => ⟨⟨hname, hds⟩, by rw [he]; rfl⟩
  rw [List.length_cons, List.length_cons]
  omega

/-- The selections of a set. -/
theorem selectionSet_hasTree {parts : List (List Token)} (hne : parts ≠ [])
    (h : ∀ p ∈ parts, HasTree (fun levels (s : Selection) tokens =>
      s.FitsWith levels (SetFits levels) ∧ tokens = s.tokens id) p) :
    HasTree (fun levels ss tokens => SetFits levels ss ∧ tokens = Selection.setTokens id ss)
      (between .openBrace .closeBrace parts.flatten) := by
  refine (hasTree_flatten h).between id fun levels ss ⟨hfits, he⟩ => ?_
  have hsome : ss ≠ [] := fun hnil => hne (by rw [he, hnil]; rfl)
  exact ⟨⟨hsome, hfits⟩, by rw [he, id, Selection.setTokens_eq id hsome]; rfl⟩

/-- A head and a selection set. -/
theorem nested_hasTree {fits : Nat → α → Prop} {spell : α → List Token} {head set : List Token}
    (hhead : HasTree (fun levels a tokens => fits levels a ∧ tokens = spell a) head)
    (hset : HasTree (fun levels ss tokens =>
      SetFits levels ss ∧ tokens = Selection.setTokens id ss) set)
    (f : α → List Selection → Selection)
    (hf : ∀ levels a ss, fits levels a → SetFits levels ss →
      (f a ss).FitsWith levels (SetFits levels))
    (htokens : ∀ a ss, spell a ++ Selection.setTokens id ss = (f a ss).tokens id) :
    HasTree (fun levels (s : Selection) tokens =>
      s.FitsWith levels (SetFits levels) ∧ tokens = s.tokens id) (head ++ set) := by
  obtain ⟨a, ha⟩ := hhead
  obtain ⟨ss, hss⟩ := hset
  refine ⟨f a ss, fun levels hle => ?_⟩
  rw [List.length_append] at hle
  obtain ⟨hafits, rfl⟩ := ha levels (by omega)
  obtain ⟨hssfits, rfl⟩ := hss levels (by omega)
  exact ⟨hf levels a ss hafits hssfits, htokens a ss⟩

theorem IsSelection.hasTree (h : IsSelection tokens) : HasTree (fun levels (s : Selection) tokens =>
    s.FitsWith levels (SetFits levels) ∧ tokens = s.tokens id) tokens := by
  induction h with
  | field h =>
    refine h.hasTree.map (.field · []) (Nat.le_refl _) fun _ f ⟨⟨hargs, hds⟩, he⟩ =>
      ⟨⟨hargs, hds, fun hne => absurd rfl hne⟩, ?_⟩
    rw [he, Selection.tokens, Selection.setTokens, List.append_nil]
  | spread h => exact h.hasTree.map .spread (Nat.le_refl _) fun _ _ h => h
  | nested hhead hne _ ih =>
    have hset := selectionSet_hasTree hne ih
    obtain hfield | hinline := hhead
    · exact nested_hasTree hfield.hasTree hset .field
        (fun _ _ _ hf hss => ⟨hf.1, hf.2, fun _ => hss⟩) fun _ _ => rfl
    · exact nested_hasTree hinline.hasTree hset .inline (fun _ _ _ hi hss => ⟨hi, hss⟩) fun _ _ => rfl

theorem IsSelectionSet.hasTree (h : IsSelectionSet tokens) : HasTree (fun levels ss tokens =>
    SetFits levels ss ∧ tokens = Selection.setTokens id ss) tokens := by
  obtain ⟨_, ⟨parts, hne, hall, rfl⟩, rfl⟩ := h
  exact selectionSet_hasTree hne fun p hp => (hall p hp).hasTree

theorem IsBareVariable.hasTree (h : IsBareVariable tokens) :
    HasTree (fun levels (v : Variable) tokens => v.Fits levels ∧ tokens = v.tokens id) tokens := by
  obtain ⟨name, nullable, type, default, htype, hdefault, rfl⟩ := h
  obtain ⟨t, ht⟩ := htype.hasTree
  have hvalue : HasTree (fun levels (v : Option Value) tokens =>
      (∀ value, v = some value → value.Fits true levels) ∧
        tokens = v.elim [] fun value => .punctuator .equals :: value.tokens id) default := by
    obtain rfl | ⟨value, hvalue, rfl⟩ := hdefault
    · exact ⟨none, fun levels _ => ⟨fun value hv => (by cases hv), rfl⟩⟩
    · refine hvalue.hasTree.map some (by rw [List.length_cons]; omega)
        fun levels v ⟨hfits, he⟩ => ⟨fun w hw => ?_, by rw [he]; rfl⟩
      obtain rfl := Option.some.inj hw
      exact hfits
  obtain ⟨default, hdefault⟩ := hvalue
  refine ⟨⟨name, t, default⟩, fun levels hle => ?_⟩
  rw [List.length_cons, labelled, List.length_cons, List.length_cons, List.length_append] at hle
  obtain ⟨-, htypeFits, rfl⟩ := ht levels (by omega)
  obtain ⟨hdefaultFits, rfl⟩ := hdefault levels (by omega)
  exact ⟨⟨htypeFits, hdefaultFits⟩, rfl⟩

theorem IsVariable.hasTree (h : IsVariable tokens) :
    HasTree (Variable.SpelledBy id) tokens := by
  obtain ⟨bare, directives, hbare, hdirectives, rfl⟩ := isVariable_iff.mp h
  obtain ⟨v, hv⟩ := hbare.hasTree
  obtain ⟨ds, hds⟩ := directives_hasTree hdirectives
  refine ⟨v, fun levels hle => ?_⟩
  rw [List.length_append] at hle
  obtain ⟨hvFits, rfl⟩ := hv levels (by omega)
  obtain ⟨hdsFit, rfl⟩ := hds levels (by omega)
  exact ⟨hvFits, ds, hdsFit, rfl⟩

theorem IsOperation.hasTree (h : IsOperation tokens) :
    HasTree (Operation.SpelledBy id) tokens := by
  obtain h | ⟨type, name, vars, directives, selections, hname, hvars, hdirectives, hset, rfl⟩ := h
  · refine h.hasTree.map (fun ss => ⟨.query, none, [], [], ss, {}, none⟩) (Nat.le_refl _)
      fun levels ss ⟨hfits, he⟩ => ⟨⟨fun v hv => ?_, fun d hd => ?_, hfits⟩,
        Or.inl ⟨⟨rfl, rfl, rfl, rfl⟩, he⟩⟩
    · cases hv
    · cases hd
  · obtain ⟨n, rfl⟩ := maybe_iff.mp hname
    obtain ⟨vs, hvs⟩ := hvars.hasTree (fun _ => IsVariable.hasTree) fun _ => isVariable_ne_nil
    obtain ⟨ds, hds⟩ := directives_hasTree hdirectives
    obtain ⟨ss, hss⟩ := hset.hasTree
    refine ⟨⟨type, n, vs, ds, ss, {}, none⟩, fun levels hle => ?_⟩
    rw [List.length_cons, List.length_append, List.length_append, List.length_append] at hle
    obtain ⟨parts, hparts, rfl⟩ := hvs levels (by omega)
    obtain ⟨hdsFit, rfl⟩ := hds levels (by omega)
    obtain ⟨hssFit, rfl⟩ := hss levels (by omega)
    have hvarsFit : ∀ v ∈ vs, v.Fits levels := Reader.forall_of_forall₂ hparts fun _ _ h => h.1
    exact ⟨⟨hvarsFit, hdsFit, hssFit⟩, Or.inr ⟨parts, hparts, rfl⟩⟩

theorem IsFragment.hasTree (h : IsFragment tokens) : HasTree (fun levels (f : Fragment) tokens =>
    f.Fits levels ∧ tokens = f.tokens id) tokens := by
  obtain ⟨name, type, directives, selections, hname, hdirectives, hset, rfl⟩ := h
  obtain ⟨ds, hds⟩ := directives_hasTree hdirectives
  obtain ⟨ss, hss⟩ := hset.hasTree
  refine ⟨⟨name, type, ds, ss, {}, none⟩, fun levels hle => ?_⟩
  iterate 4 rw [List.length_cons] at hle
  rw [List.length_append] at hle
  obtain ⟨hdsFit, rfl⟩ := hds levels (by omega)
  obtain ⟨hssFit, rfl⟩ := hss levels (by omega)
  exact ⟨⟨hname, hdsFit, hssFit⟩, rfl⟩

/-- **Tokens that are derived spell a document.** -/
theorem IsDocument.hasTree (h : IsDocument tokens) :
    HasTree (SpelledBy id) tokens := by
  have hdefinition : ∀ p, IsOperation p ∨ IsFragment p →
      HasTree (Definition.SpelledBy id) p := by
    rintro p (h | h)
    · exact h.hasTree.map .operation (Nat.le_refl _) fun _ _ h => h
    · exact h.hasTree.map .fragment (Nat.le_refl _) fun _ _ h => h
  obtain ⟨parts, hne, hall, rfl⟩ := h
  obtain ⟨definitions, hdefs⟩ := exists_trees fun p hp => hdefinition p (hall p hp)
  refine ⟨ofDefinitions definitions, fun levels hle => ?_⟩
  have hparts := hdefs levels hle
  refine ⟨definitions, parts, rfl, ?_, hparts, rfl⟩
  rintro rfl
  cases hparts
  exact hne rfl

end

end QueryCompiler.Grammar

namespace QueryCompiler.Document

/-- **The parser accepts exactly its grammar**: unless the limit is exceeded, a source is parsed if
and only if it splits into the tokens of a document. No limit above the length of the source is
exceeded (`le_of_reachesLimit`). -/
theorem parse_accepts_iff {source : Text} {filePath : Option Text} {limit : Nat}
    (h : ¬ ReachesLimit source filePath limit) :
    (∃ d, parse source filePath limit = .ok d) ↔
      ∃ tokens, Scan.Splits source tokens ∧ Grammar.IsDocument tokens := by
  constructor
  · rintro ⟨d, hd⟩
    obtain ⟨hcomplete, hspelled⟩ := spelledBy_of_parse hd
    exact ⟨_, Scan.splits_of_isComplete hcomplete, Grammar.isDocument_of_spelledBy hspelled⟩
  · rintro ⟨tokens, hsplits, hdocument⟩
    obtain ⟨d, hd⟩ := hdocument.hasTree
    -- What the grammar gives fits only where there are as many levels as tokens.
    have hspelled := hd (max limit tokens.length) (Nat.le_max_right _ _)
    obtain ⟨d', hd', -⟩ := parse_of_spelledBy hspelled hsplits.holds filePath
    rw [parse_raise (Nat.le_max_left _ _) h] at hd'
    exact ⟨d', hd'⟩

/-- A source that nests as deep as the limit lets it, with most of what the grammar has. -/
def nestedSource : Text :=
  Text.ofString "query Q($a:[Int!]=[-1.5e3]@d) @e " ++
    Text.ofString "{ x: f(s: {k: [$a, true]}) { ...on T @i { g } ...F } } fragment F on T { h }"

theorem parse_accepts_nestedSource : ¬ ReachesLimit nestedSource none 3 ∧
    ((∃ d, parse nestedSource none 3 = .ok d) ↔
      ∃ tokens, Scan.Splits nestedSource tokens ∧ Grammar.IsDocument tokens) := by
  have hok : (parse nestedSource none 3).isOk = true := by decide +kernel
  have hlimit : ¬ ReachesLimit nestedSource none 3 := by
    rintro ⟨n, place, he⟩
    rw [he] at hok
    cases hok
  exact ⟨hlimit, parse_accepts_iff hlimit⟩

end QueryCompiler.Document
