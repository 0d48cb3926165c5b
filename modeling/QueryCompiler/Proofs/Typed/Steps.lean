import QueryCompiler.Proofs.Success
import QueryCompiler.Typed.Resolve

/-!
# What the steps of a resolution do

One lemma for each step of `Resolve`: if the step succeeds, where its result comes from and what has
become of the progress. Later proofs use these lemmas and do not open the steps.
-/

namespace QueryCompiler.Resolve

open Typed (FieldHead intersect)

/-! ### Sequences -/

section Sequences
variable {α β : Type} {p p' : Progress}

theorem bind_eq_ok {x : Step α} {f : α → Step β} {r : β × Progress} :
    (x >>= f) p = .ok r ↔ ∃ a p₁, x p = .ok (a, p₁) ∧ f a p₁ = .ok r := by
  show (x p >>= fun y => f y.1 y.2) = .ok r ↔ _
  rw [Success.bind_eq_ok]
  exact ⟨fun ⟨⟨a, p₁⟩, h⟩ => ⟨a, p₁, h⟩, fun ⟨a, p₁, h⟩ => ⟨(a, p₁), h⟩⟩

theorem pure_eq_ok {a b : α} : (pure a : Step α) p = .ok (b, p') ↔ b = a ∧ p' = p := by
  show Except.ok (a, p) = .ok (b, p') ↔ _
  constructor
  · intro h; cases h; exact ⟨rfl, rfl⟩
  · rintro ⟨rfl, rfl⟩; rfl

theorem lift_eq_ok {x : Except ResolveError α} {a : α} :
    (liftM x : Step α) p = .ok (a, p') ↔ x = .ok a ∧ p' = p := by
  cases x with
  | error e =>
    constructor
    · intro h; cases h
    · rintro ⟨h, -⟩; cases h
  | ok b =>
    constructor
    · intro h; cases h; exact ⟨rfl, rfl⟩
    · rintro ⟨h, rfl⟩; cases h; rfl

theorem discard_eq_ok {x : Step α} :
    (discard x : Step PUnit) p = .ok (.unit, p') ↔ ∃ a, x p = .ok (a, p') := by
  show (x >>= fun _ => pure PUnit.unit) p = _ ↔ _
  rw [bind_eq_ok]
  constructor
  · rintro ⟨a, p₁, hx, h⟩
    obtain ⟨-, rfl⟩ := pure_eq_ok.mp h
    exact ⟨a, hx⟩
  · rintro ⟨a, hx⟩
    exact ⟨a, p', hx, pure_eq_ok.mpr ⟨rfl, rfl⟩⟩

theorem fail_ne_ok {fault : DocumentFault} {location : Location} {r : α × Progress} :
    (fail fault location : Step α) p ≠ .ok r := by
  intro h; cases h

theorem ite_eq_ok {c : Prop} [Decidable c] {x y : Step α} {r : α × Progress} :
    (if c then x else y) p = .ok r ↔ (c ∧ x p = .ok r) ∨ (¬ c ∧ y p = .ok r) := by
  by_cases hc : c
  · rw [if_pos hc]
    exact ⟨fun h => Or.inl ⟨hc, h⟩, fun h => h.elim And.right fun h => absurd hc h.1⟩
  · rw [if_neg hc]
    exact ⟨fun h => Or.inr ⟨hc, h⟩, fun h => h.elim (fun h => absurd h.1 hc) And.right⟩

/-- A guard that fails at a place has held. -/
theorem guard_eq_ok {c : Prop} [Decidable c] {fault : DocumentFault} {location : Location}
    {x : Unit → Step α} {r : α × Progress} :
    (if c then (fail fault location : Step PUnit) >>= x else x ()) p = .ok r ↔
      ¬ c ∧ x () p = .ok r := by
  rw [ite_eq_ok]
  constructor
  · rintro (⟨-, h⟩ | h)
    · obtain ⟨_, _, hf, -⟩ := bind_eq_ok.mp h
      exact absurd hf fail_ne_ok
    · exact h
  · exact Or.inr

theorem mapM_cons_eq_ok {f : α → Step β} {a : α} {as : List α} {bs : List β} :
    (a :: as).mapM f p = .ok (bs, p') ↔ ∃ b bs' p₁, f a p = .ok (b, p₁) ∧
      as.mapM f p₁ = .ok (bs', p') ∧ bs = b :: bs' := by
  rw [List.mapM_cons, bind_eq_ok]
  constructor
  · rintro ⟨b, p₁, hb, h⟩
    obtain ⟨bs', p₂, hbs, h⟩ := bind_eq_ok.mp h
    obtain ⟨rfl, rfl⟩ := pure_eq_ok.mp h
    exact ⟨b, bs', p₁, hb, hbs, rfl⟩
  · rintro ⟨b, bs', p₁, hb, hbs, rfl⟩
    exact ⟨b, p₁, hb, bind_eq_ok.mpr ⟨bs', p', hbs, pure_eq_ok.mpr ⟨rfl, rfl⟩⟩⟩

end Sequences

/-! ### Types and fields -/

section Fields
variable {ctx : Context} {p p' : Progress}

theorem lookupType_ok {name : Text} {location : Location} {type : NamedType}
    (h : lookupType ctx name location p = .ok (type, p')) :
    ctx.schema.type? name = some type ∧ p' = p := by
  unfold lookupType at h
  cases ht : ctx.schema.type? name with
  | none => rw [ht] at h; exact absurd h fail_ne_ok
  | some t =>
    rw [ht] at h
    obtain ⟨rfl, rfl⟩ := pure_eq_ok.mp h
    exact ⟨rfl, rfl⟩

theorem argument_ok {definition : FieldDefinition} {a : Document.Argument} {r : Typed.Argument}
    (h : argument definition a p = .ok (r, p')) :
    (r.name = a.name ∧ a.value.toJson = .ok r.value ∧ r.type = argumentType definition a.name) ∧
      p' = p := by
  unfold argument at h
  cases hv : a.value.toJson with
  | error e => rw [hv] at h; cases h
  | ok value =>
    rw [hv] at h
    obtain ⟨rfl, rfl⟩ := pure_eq_ok.mp h
    exact ⟨⟨rfl, rfl, rfl⟩, rfl⟩

theorem arguments_ok {definition : FieldDefinition} : ∀ {as : List Document.Argument}
    {rs : List Typed.Argument} {p : Progress}, as.mapM (argument definition) p = .ok (rs, p') →
      List.Forall₂ (fun (r : Typed.Argument) (a : Document.Argument) => r.name = a.name ∧
        a.value.toJson = .ok r.value ∧ r.type = argumentType definition a.name) rs as ∧ p' = p
  | [], rs, p, h => by
    rw [List.mapM_nil] at h
    obtain ⟨rfl, rfl⟩ := pure_eq_ok.mp h
    exact ⟨.nil, rfl⟩
  | a :: as, rs, p, h => by
    obtain ⟨r, rs', p₁, hr, hrs, rfl⟩ := mapM_cons_eq_ok.mp h
    obtain ⟨ha, rfl⟩ := argument_ok hr
    obtain ⟨has, rfl⟩ := arguments_ok hrs
    exact ⟨.cons ha has, rfl⟩

/-- A field that resolves has a definition and says what it and the document say. -/
theorem fieldHead_ok {parent type : NamedType} {f : Document.Field} {head : FieldHead}
    (h : fieldHead ctx parent f p = .ok ((head, type), p')) :
    ∃ definition, Schema.fieldDefinition parent f.name = some definition ∧
      ctx.schema.type? definition.type.namedType = some type ∧ head.responseKey = f.responseKey ∧
      head.name = f.name ∧ head.aliasName = f.aliasName ∧ head.type = definition.type ∧
      head.isConditional = false ∧
      List.Forall₂ (fun (r : Typed.Argument) (a : Document.Argument) => r.name = a.name ∧
        a.value.toJson = .ok r.value ∧ r.type = argumentType definition a.name)
        head.args f.arguments ∧
      p' = { p with typesUsed := ctx.schema.use p.typesUsed type.name } := by
  unfold fieldHead at h
  cases hd : Schema.fieldDefinition parent f.name with
  | none => rw [hd] at h; exact absurd h fail_ne_ok
  | some definition =>
    rw [hd] at h
    obtain ⟨type', p₁, ht, h₁⟩ := bind_eq_ok.mp h
    obtain ⟨htype, rfl⟩ := lookupType_ok ht
    obtain ⟨_, p₂, hu, h₂⟩ := bind_eq_ok.mp h₁
    cases hu
    obtain ⟨args, p₃, ha, h₃⟩ := bind_eq_ok.mp h₂
    obtain ⟨hargs, rfl⟩ := arguments_ok ha
    obtain ⟨he, rfl⟩ := pure_eq_ok.mp h₃
    cases he
    exact ⟨definition, rfl, htype, rfl, rfl, rfl, rfl, rfl, hargs, rfl⟩

theorem nestedTypes_ok {head : FieldHead} {type : NamedType} {hasSelections : Bool} {depth : Nat}
    {location : Location} {r : Option (List Text)}
    (h : nestedTypes ctx head type hasSelections depth location p = .ok (r, p')) :
    p' = p ∧ ((type.isComposite = true ∧ hasSelections = true ∧ depth < ctx.limit ∧
        r = some (ctx.schema.possibleTypesOf type)) ∨
      (type.isComposite = false ∧ hasSelections = false ∧ r = none)) := by
  unfold nestedTypes at h
  rcases ite_eq_ok.mp h with ⟨hc, h⟩ | ⟨hc, h⟩
  · rcases ite_eq_ok.mp h with ⟨-, h⟩ | ⟨hs, h⟩
    · exact absurd h fail_ne_ok
    rcases ite_eq_ok.mp h with ⟨-, h⟩ | ⟨hd, h⟩
    · exact absurd h fail_ne_ok
    obtain ⟨rfl, rfl⟩ := pure_eq_ok.mp h
    exact ⟨rfl, Or.inl ⟨hc, by simpa using hs, by omega, rfl⟩⟩
  · rcases ite_eq_ok.mp h with ⟨-, h⟩ | ⟨hs, h⟩
    · exact absurd h fail_ne_ok
    obtain ⟨rfl, rfl⟩ := pure_eq_ok.mp h
    exact ⟨rfl, Or.inr ⟨by simpa using hc, by simpa using hs, rfl⟩⟩

theorem inlineType_ok {parent type : NamedType} {f : Document.InlineFragment}
    (h : inlineType ctx parent f p = .ok (type, p')) :
    p' = p ∧ type.isComposite = true ∧ (f.typeCondition = none → type = parent) ∧
      ∀ name, f.typeCondition = some name → ctx.schema.type? name = some type := by
  unfold inlineType at h
  have hcomposite : ∀ {type' : NamedType} {p₁ : Progress},
      (if type'.isComposite = true then pure type'
        else fail (.inlineOnLeaf type'.name) f.location : Step NamedType) p₁ = .ok (type, p') →
      p' = p₁ ∧ type = type' ∧ type'.isComposite = true := by
    intro type' p₁ h
    rcases ite_eq_ok.mp h with ⟨hc, h⟩ | ⟨-, h⟩
    · obtain ⟨rfl, rfl⟩ := pure_eq_ok.mp h
      exact ⟨rfl, rfl, hc⟩
    · exact absurd h fail_ne_ok
  cases hf : f.typeCondition with
  | some name =>
    rw [hf] at h
    obtain ⟨type', p₁, ht, h₁⟩ := bind_eq_ok.mp h
    obtain ⟨htype, rfl⟩ := lookupType_ok ht
    obtain ⟨rfl, rfl, hc⟩ := hcomposite h₁
    exact ⟨rfl, hc, fun h => (by cases h), fun name' hn => by cases hn; exact htype⟩
  | none =>
    rw [hf] at h
    obtain ⟨type', p₁, ht, h₁⟩ := bind_eq_ok.mp h
    obtain ⟨rfl, rfl⟩ := pure_eq_ok.mp ht
    obtain ⟨rfl, rfl, hc⟩ := hcomposite h₁
    exact ⟨rfl, hc, fun _ => rfl, fun name' hn => by cases hn⟩

end Fields

/-! ### Selections -/

section Selections
variable {ctx : Context} {spread : Text → Location → Step Typed.Fragment} {parent : NamedType}
  {types : List Text} {depth : Nat} {p p' : Progress} {r : Option Typed.Selection}

/-- A field that resolves, with its selection set if its type has fields. -/
theorem one_field_ok {f : Document.Field} {selections : List Document.Selection}
    (h : one ctx spread parent types depth (.field f selections) p = .ok (r, p')) :
    ∃ head type p₁, fieldHead ctx parent f p = .ok ((head, type), p₁) ∧
      ((type.isComposite = false ∧ selections = [] ∧ p' = p₁ ∧
          underConditions types (.field head none) f.directives = .ok r) ∨
        (type.isComposite = true ∧ selections ≠ [] ∧ depth < ctx.limit ∧ ∃ inner,
          all ctx spread type (ctx.schema.possibleTypesOf type) (depth + 1) selections p₁ =
            .ok (inner, p') ∧
          underConditions types
            (.field head (some (.mk (ctx.schema.possibleTypesOf type) inner))) f.directives =
              .ok r)) := by
  rw [one] at h
  obtain ⟨⟨head, type⟩, p₁, hh, h⟩ := bind_eq_ok.mp h
  refine ⟨head, type, p₁, hh, ?_⟩
  obtain ⟨nested, p₂, hn, h⟩ := bind_eq_ok.mp h
  obtain ⟨rfl, ⟨hc, hs, hd, rfl⟩ | ⟨hc, hs, rfl⟩⟩ := nestedTypes_ok hn
  · obtain ⟨inner, p₃, hi, h⟩ := bind_eq_ok.mp h
    obtain ⟨nested, p₄, hp, h⟩ := bind_eq_ok.mp h
    obtain ⟨rfl, rfl⟩ := pure_eq_ok.mp hp
    obtain ⟨hu, rfl⟩ := lift_eq_ok.mp h
    exact Or.inr ⟨hc, by simpa using hs, hd, inner, hi, hu⟩
  · obtain ⟨nested, p₃, hp, h⟩ := bind_eq_ok.mp h
    obtain ⟨rfl, rfl⟩ := pure_eq_ok.mp hp
    obtain ⟨hu, rfl⟩ := lift_eq_ok.mp h
    exact Or.inl ⟨hc, by simpa using hs, rfl, hu⟩

theorem one_inline_ok {f : Document.InlineFragment} {selections : List Document.Selection}
    (h : one ctx spread parent types depth (.inline f selections) p = .ok (r, p')) :
    ∃ type inner, type.isComposite = true ∧ (f.typeCondition = none → type = parent) ∧
      (∀ name, f.typeCondition = some name → ctx.schema.type? name = some type) ∧
      all ctx spread type (intersect (ctx.schema.possibleTypesOf type) types) depth selections p =
        .ok (inner, p') ∧
      underConditions types (.typeCondition type.name
        (some (.mk (intersect (ctx.schema.possibleTypesOf type) types) inner))) f.directives =
          .ok r := by
  rw [one] at h
  obtain ⟨type, p₁, ht, h₁⟩ := bind_eq_ok.mp h
  obtain ⟨rfl, hc, hnone, hsome⟩ := inlineType_ok ht
  obtain ⟨inner, p₂, hi, h₂⟩ := bind_eq_ok.mp h₁
  obtain ⟨hu, rfl⟩ := lift_eq_ok.mp h₂
  exact ⟨type, inner, hc, hnone, hsome, hi, hu⟩

theorem one_spread_ok {f : Document.Spread}
    (h : one ctx spread parent types depth (.spread f) p = .ok (r, p')) :
    ∃ fragment, spread f.name f.location p = .ok (fragment, p') ∧
      underConditions types (spreadOf types fragment) f.directives = .ok r := by
  rw [one] at h
  obtain ⟨fragment, p₁, hf, h⟩ := bind_eq_ok.mp h
  obtain ⟨hu, rfl⟩ := lift_eq_ok.mp h
  exact ⟨fragment, hf, hu⟩

theorem all_nil_ok {typed : List Typed.Selection}
    (h : all ctx spread parent types depth [] p = .ok (typed, p')) : typed = [] ∧ p' = p := by
  rw [all] at h
  exact pure_eq_ok.mp h

theorem all_cons_ok {s : Document.Selection} {rest : List Document.Selection}
    {typed : List Typed.Selection}
    (h : all ctx spread parent types depth (s :: rest) p = .ok (typed, p')) :
    ∃ r others p₁, one ctx spread parent types depth s p = .ok (r, p₁) ∧
      all ctx spread parent types depth rest p₁ = .ok (others, p') ∧ typed = r.toList ++ others := by
  rw [all] at h
  obtain ⟨r, p₁, hr, h⟩ := bind_eq_ok.mp h
  obtain ⟨others, p₂, ho, h⟩ := bind_eq_ok.mp h
  obtain ⟨rfl, rfl⟩ := pure_eq_ok.mp h
  exact ⟨r, others, p₁, hr, ho, rfl⟩

end Selections

/-! ### Fragments -/

section Fragments
variable {ctx : Context} {p p' : Progress} {f : Typed.Fragment}

/-- A definition that resolves becomes a fragment, which the progress then holds. -/
theorem ofDefinition_ok {spread : Text → Location → Step Typed.Fragment} {d : Document.Fragment}
    (h : ofDefinition ctx spread d p = .ok (f, p')) :
    ∃ type typed p₁, ctx.schema.type? d.typeCondition = some type ∧ type.isComposite = true ∧
      all ctx spread type (ctx.schema.possibleTypesOf type) 1 d.selections p = .ok (typed, p₁) ∧
      f = { filePath := d.filePath, name := d.name, source := d.text, typeCondition := type.name
            possibleTypes := ctx.schema.possibleTypesOf type
            selectionSet := some (.mk (ctx.schema.possibleTypesOf type) typed) } ∧
      p' = { p₁ with fragments := p₁.fragments.insert d.name f } := by
  unfold ofDefinition at h
  obtain ⟨type, p₁, ht, h₁⟩ := bind_eq_ok.mp h
  obtain ⟨htype, rfl⟩ := lookupType_ok ht
  obtain ⟨hc, h₂⟩ := guard_eq_ok.mp h₁
  obtain ⟨typed, p₂, ha, h₃⟩ := bind_eq_ok.mp h₂
  obtain ⟨_, p₃, hm, h₄⟩ := bind_eq_ok.mp h₃
  cases hm
  obtain ⟨rfl, rfl⟩ := pure_eq_ok.mp h₄
  exact ⟨type, typed, p₂, htype, by simpa using hc, ha, rfl, rfl⟩

/-- The equation of `fragment`, without the facts that its recursion needs. -/
theorem fragment_eq {definitions : List Document.Fragment} {opened : List Text} {name : Text}
    {location : Location} : fragment ctx definitions opened name location = (do
      match (← get).fragments.find? name with
      | some f => return f
      | none =>
        match definitions.find? fun d => d.name == name with
        | none => fail (.unknownFragment name) location
        | some d =>
          if opened.contains name then fail (.fragmentCycle name (after name opened)) location
          else if ctx.limit ≤ opened.length then fail (.fragmentNesting ctx.limit name) location
          else ofDefinition ctx (fragment ctx definitions (opened ++ [name])) d) := by
  rw [fragment]
  congr 1
  funext p
  cases p.fragments.find? name with
  | some f => rfl
  | none =>
    simp only
    split <;> rename_i hd <;> rw [hd]
    rfl

/-- A spread is resolved already, or its definition is resolved now, which was not open. -/
theorem fragment_ok {definitions : List Document.Fragment} {opened : List Text} {name : Text}
    {location : Location} (h : fragment ctx definitions opened name location p = .ok (f, p')) :
    (p.fragments.find? name = some f ∧ p' = p) ∨
    (p.fragments.find? name = none ∧ ∃ d, definitions.find? (fun d => d.name == name) = some d ∧
      opened.contains name = false ∧ opened.length < ctx.limit ∧
      ofDefinition ctx (fragment ctx definitions (opened ++ [name])) d p = .ok (f, p')) := by
  rw [fragment_eq] at h
  obtain ⟨p₀, p₁, hg, h⟩ := bind_eq_ok.mp h
  cases hg
  cases hf : p.fragments.find? name with
  | some f' =>
    rw [hf] at h
    obtain ⟨rfl, rfl⟩ := pure_eq_ok.mp h
    exact Or.inl ⟨rfl, rfl⟩
  | none =>
    rw [hf] at h
    refine Or.inr ⟨rfl, ?_⟩
    cases hd : definitions.find? fun d => d.name == name with
    | none => rw [hd] at h; exact absurd h fail_ne_ok
    | some d =>
      rw [hd] at h
      rcases ite_eq_ok.mp h with ⟨-, h⟩ | ⟨ho, h⟩
      · exact absurd h fail_ne_ok
      rcases ite_eq_ok.mp h with ⟨-, h⟩ | ⟨hl, h⟩
      · exact absurd h fail_ne_ok
      exact ⟨d, rfl, by simpa using ho, by omega, h⟩

end Fragments

/-! ### Operations -/

section Operations
variable {ctx : Context} {p p' : Progress}

theorem resolveVariable_ok {location : Location} {v : Document.Variable} {r : Typed.Variable}
    (h : resolveVariable ctx location v p = .ok (r, p')) :
    ∃ type, ctx.schema.type? v.type.namedType = some type ∧ type.isInput = true ∧
      r = ⟨v.name, v.type⟩ ∧
      p' = { p with typesUsed := ctx.schema.use p.typesUsed type.name } := by
  unfold resolveVariable at h
  obtain ⟨type, p₁, ht, h₁⟩ := bind_eq_ok.mp h
  obtain ⟨htype, rfl⟩ := lookupType_ok ht
  obtain ⟨hc, h₂⟩ := guard_eq_ok.mp h₁
  obtain ⟨_, p₂, hu, h₃⟩ := bind_eq_ok.mp h₂
  cases hu
  obtain ⟨rfl, rfl⟩ := pure_eq_ok.mp h₃
  exact ⟨type, htype, by simpa using hc, rfl, rfl⟩

theorem resolveVariables_ok {location : Location} : ∀ {vs : List Document.Variable}
    {rs : List Typed.Variable} {p : Progress},
      vs.mapM (resolveVariable ctx location) p = .ok (rs, p') →
        rs = vs.map (fun v => ⟨v.name, v.type⟩) ∧ p'.fragments = p.fragments
  | [], rs, p, h => by
    rw [List.mapM_nil] at h
    obtain ⟨rfl, rfl⟩ := pure_eq_ok.mp h
    exact ⟨rfl, rfl⟩
  | v :: vs, rs, p, h => by
    obtain ⟨r, rs', p₁, hr, hrs, rfl⟩ := mapM_cons_eq_ok.mp h
    obtain ⟨type, -, -, rfl, rfl⟩ := resolveVariable_ok hr
    obtain ⟨rfl, hp⟩ := resolveVariables_ok hrs
    exact ⟨rfl, hp⟩

/-- An operation that resolves has a new name and a root type. -/
theorem operation_ok {definitions : List Document.Fragment}
    {done done' : OrderedMap Text Typed.Operation} {o : Document.Operation}
    (h : operation ctx definitions done o p = .ok (done', p')) :
    ∃ name root vars p₁ typed, o.name = some name ∧ done.contains name = false ∧
      ctx.schema.rootType? o.operation = some root ∧
      o.variableDefinitions.mapM (resolveVariable ctx o.location) p = .ok (vars, p₁) ∧
      all ctx (fragment ctx definitions []) root (ctx.schema.possibleTypesOf root) 1 o.selections p₁ =
        .ok (typed, p') ∧
      done' = done.insert name
        { filePath := o.filePath, name, operation := o.operation, rootType := root.name
          variableDefinitions := vars, source := o.text
          selectionSet := some (.mk (ctx.schema.possibleTypesOf root) typed) } := by
  unfold operation at h
  cases hn : o.name with
  | none => rw [hn] at h; exact absurd h fail_ne_ok
  | some name =>
    rw [hn] at h
    obtain ⟨hc, h⟩ := guard_eq_ok.mp h
    cases hr : ctx.schema.rootType? o.operation with
    | none => rw [hr] at h; exact absurd h fail_ne_ok
    | some root =>
      rw [hr] at h
      obtain ⟨vars, p₁, hv, h⟩ := bind_eq_ok.mp h
      obtain ⟨typed, p₂, ha, h⟩ := bind_eq_ok.mp h
      obtain ⟨rfl, rfl⟩ := pure_eq_ok.mp h
      exact ⟨name, root, vars, p₁, typed, rfl, by simpa using hc, rfl, hv, ha, rfl⟩

/-- Resolving a document resolves its fragments and then its operations. -/
theorem document_ok {d : Document} {operations : OrderedMap Text Typed.Operation}
    (h : document ctx d p = .ok (operations, p')) :
    duplicate? [] d.fragments = none ∧ ∃ p₁,
      d.fragments.forM (fun f => discard (fragment ctx d.fragments [] f.name f.location)) p =
        .ok ((), p₁) ∧
      d.operations.foldlM (operation ctx d.fragments) ∅ p₁ = .ok (operations, p') := by
  unfold document at h
  cases hd : duplicate? [] d.fragments with
  | some f => rw [hd] at h; exact absurd h fail_ne_ok
  | none =>
    rw [hd] at h
    obtain ⟨_, p₁, hf, h⟩ := bind_eq_ok.mp h
    exact ⟨rfl, p₁, hf, h⟩

end Operations

end QueryCompiler.Resolve
