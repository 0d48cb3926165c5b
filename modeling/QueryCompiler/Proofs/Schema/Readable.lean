import QueryCompiler.Proofs.Document.Reprint
import QueryCompiler.Proofs.Schema.Printed

/-!
# Tokens of a schema are read as the schema

For each part of a schema that can be written: from a scan with its tokens the reader of the part reads
it. Items that may have a description start with it or with their name, so an item ends where the next
one starts or its brackets close (`readsItems`); a definition ends where the next one starts
(`EndsDefinition`).

* `Definition.reads_type`: a type is read from its tokens.
* `defineAll_types`: a text of types adds them to a schema one after the other.
* `ofDefinitions_text`: the schema of a written schema.
-/

namespace QueryCompiler.Schema

open QueryCompiler.Parser QueryCompiler.Reader
open Document (Value directivesTokens)

namespace Definition

/-! ### Descriptions and deprecations -/

theorem reads_description {text : Option Text} {s : Scan} {n : Text} {rest : List Token}
    {post : Option Text → Scan → Prop} (hs : s.Holds (descriptionTokens text ++ .name n :: rest))
    (hp : ∀ r : Scan, r.Holds (.name n :: rest) → post text r) : description.Reads s post := by
  refine reads_peek hs ?_
  cases text with
  | none => exact reads_pure (hp s hs)
  | some t => exact reads_relax (reads_map (reads_take hs hp))

theorem deprecation?_plain (ds : List Document.Directive) :
    deprecation? (ds.map (Document.Directive.plain id)) = deprecation? ds := by
  have hfilter : (ds.map (Document.Directive.plain id)).filter (fun d => d.name == ("deprecated" : Text)) =
      (ds.filter fun d => d.name == ("deprecated" : Text)).map (Document.Directive.plain id) :=
    List.filter_map
  rw [deprecation?, deprecation?, hfilter, List.getLast?_map, Option.map_map]
  congr 1
  funext d
  exact congrArg reasonOf (Document.map_plain_id d.arguments)

/-- A deprecation is read with its reason. -/
theorem reads_deprecation {reason : Option Text} {s : Scan} {rest : List Token}
    {ps : List Punctuator} (hrest : Starts ps rest) (hps : .at ∉ ps ∧ .openParen ∉ ps)
    (hs : s.Holds (directivesTokens id (deprecations reason) ++ rest)) :
    directives.Reads s fun ds r => deprecation? ds = reason ∧ r.Holds rest := by
  have hfits : Document.DirectivesFit true nestingLimit (deprecations reason) := by
    cases reason with
    | none => exact List.forall_mem_nil _
    | some t => exact List.forall_mem_singleton.mpr (List.forall_mem_singleton.mpr trivial)
  refine (reads_directives hfits hrest hps hs).imp fun ds r ⟨hds, hr⟩ => ⟨?_, hr⟩
  rw [← deprecation?_plain, hds, deprecation?_plain]
  cases reason <;> rfl

/-- No directives are read where none stand. -/
theorem reads_noDirectives {s : Scan} {rest : List Token} {ps : List Punctuator}
    {post : List Document.Directive → Scan → Prop} (hrest : Starts ps rest)
    (hps : .at ∉ ps ∧ .openParen ∉ ps) (hs : s.Holds rest)
    (hp : ∀ ds r, r.Holds rest → post ds r) : directives.Reads s post := by
  have hnone : s.Holds (directivesTokens id (deprecations none) ++ rest) := hs
  exact (reads_deprecation hrest hps hnone).imp fun ds r ⟨_, hr⟩ => hp ds r hr

/-! ### Items in brackets -/

/-- What may follow an item: the next item or the end of the brackets. -/
abbrev EndsItem (rest : List Token) : Prop := Starts [.closeParen, .closeBrace] rest

theorem starts_described {tokens : List Token} (h : IsDescribed tokens) (ps : List Punctuator)
    (rest : List Token) : Starts ps (tokens ++ rest) := by
  obtain ⟨t, more, ht, hne⟩ := h.head rest
  intro p hp
  rw [ht, List.head?_cons] at hp
  exact absurd (Option.some.inj hp) (hne p)

section Items
variable {α : Type} {item : Reader true α} {fits : α → Prop} {tokens : α → List Token}

/-- Items that are described are read one after the other. -/
theorem readsItems (close : Punctuator) (hdescribed : ∀ a, IsDescribed (tokens a))
    (hitem : ∀ {a : α} {s : Scan} {rest : List Token}, fits a → EndsItem rest →
      s.Holds (tokens a ++ rest) → item.Reads s fun a' r => a' = a ∧ r.Holds rest) :
    ReadsItems item close (fun a ts => fits a ∧ ts = tokens a) Eq EndsItem where
  item := by
    rintro a _ rest s ⟨ha, rfl⟩ hrest hs
    exact hitem ha hrest hs
  head := by
    rintro a _ rest ⟨-, rfl⟩
    obtain ⟨t, more, ht, hne⟩ := (hdescribed a).head rest
    exact ⟨t, more, ht, hne close⟩
  next := by
    rintro a _ rest ⟨-, rfl⟩
    exact starts_described (hdescribed a) _ rest

theorem eq_of_forall₂ {as as' : List α} (h : List.Forall₂ Eq as' as) : as' = as := by
  rwa [List.forall₂_eq_eq_eq] at h

/-- Items in braces, or nothing if there are none. -/
theorem reads_inBraces (hdescribed : ∀ a, IsDescribed (tokens a))
    (hitem : ∀ {a : α} {s : Scan} {rest : List Token}, fits a → EndsItem rest →
      s.Holds (tokens a ++ rest) → item.Reads s fun a' r => a' = a ∧ r.Holds rest)
    {as : List α} (hfits : ∀ a ∈ as, fits a) {s : Scan} {rest : List Token}
    (hrest : rest.head? ≠ some (.punctuator .openBrace))
    (hs : s.Holds (braced (as.map tokens).flatten ++ rest)) :
    (inBraces item).Reads s fun as' r => as' = as ∧ r.Holds rest := by
  have hparts : List.Forall₂ (fun a ts => fits a ∧ ts = tokens a) as (as.map tokens) :=
    forall₂_spelled.mpr ⟨hfits, rfl⟩
  cases as with
  | nil => exact reads_bind (reads_optional_missing hs hrest (reads_pure ⟨rfl, hs⟩))
  | cons a as =>
    obtain ⟨t, more, ht, -⟩ := (hdescribed a).head (as.map tokens).flatten
    have hb : braced ((a :: as).map tokens).flatten = .punctuator .openBrace ::
        (((a :: as).map tokens).flatten ++ [.punctuator .closeBrace]) := by
      rw [List.map_cons, List.flatten_cons, ht]
      rfl
    rw [hb, List.cons_append, List.append_assoc] at hs
    refine reads_bind (reads_optional_found hs fun m hm => reads_relax ?_)
    refine (reads_someUntil (readsItems .closeBrace hdescribed hitem)
      (starts_punctuator (by decide)) hparts (List.cons_ne_nil _ _) hm).imp ?_
    exact fun as' r ⟨has, hr⟩ => ⟨eq_of_forall₂ has, hr⟩

end Items

/-! ### Fields and values -/

theorem reads_inputValue {v : InputValueDefinition} {s : Scan} {rest : List Token}
    (h : v.IsStandard) (hrest : EndsItem rest) (hs : s.Holds (v.tokens ++ rest)) :
    inputValue.Reads s fun v' r => v' = v ∧ r.Holds rest := by
  rw [InputValueDefinition.tokens, List.append_assoc, List.cons_append, List.cons_append,
    List.append_assoc] at hs
  refine reads_bind (reads_description hs fun m hm => ?_)
  refine reads_bind (reads_name hm fun m₁ hm₁ => reads_bind (reads_punctuator hm₁ fun _ m₂ hm₂ => ?_))
  cases ht : v.defaultValue with
  | none =>
    rw [ht] at hm₂
    refine reads_bind ((reads_typeRef _ _ h.type.fits (hrest.head?_ne (by decide)) hm₂).imp ?_)
    rintro type m₃ ⟨rfl, hm₃⟩
    refine reads_bind (reads_optional_missing hm₃ (hrest.head?_ne (by decide)) ?_)
    refine reads_bind (reads_pure (reads_map ?_))
    refine reads_noDirectives hrest (by decide) hm₃ fun ds r hr => ⟨?_, hr⟩
    rw [Option.map_none, ← ht]
  | some t =>
    obtain ⟨value, hfits, htext, -, hlex⟩ := h.lex_default ht
    rw [ht, defaultTokens, Option.elim_some, hlex] at hm₂
    refine reads_bind ((reads_typeRef _ _ h.type.fits (by simp) hm₂).imp ?_)
    rintro type m₃ ⟨rfl, hm₃⟩
    refine reads_bind (reads_optional_found hm₃ fun m₄ hm₄ => ?_)
    refine reads_bind (reads_relax (reads_map ((reads_value _ true _ hfits hm₄).imp ?_)))
    rintro value' m₅ ⟨rfl, hm₅⟩
    refine reads_map (reads_noDirectives hrest (by decide) hm₅ fun ds r hr => ⟨?_, hr⟩)
    rw [Option.map_some, Value.text_mapStrings Text.quoted_sanitise, htext, ← ht]

theorem reads_argumentDefinitions {args : List InputValueDefinition} {s : Scan} {rest : List Token}
    (h : ∀ a ∈ args, a.IsStandard) (hrest : rest.head? ≠ some (.punctuator .openParen))
    (hs : s.Holds (Document.parenthesised (args.map InputValueDefinition.tokens).flatten ++ rest)) :
    argumentDefinitions.Reads s fun args' r => args' = args ∧ r.Holds rest := by
  refine (reads_parenthesised (readsItems .closeParen InputValueDefinition.isDescribed reads_inputValue)
    (fun _ => starts_punctuator (by decide)) (forall₂_spelled.mpr ⟨h, rfl⟩) hrest hs).imp ?_
  exact fun args' r ⟨hargs, hr⟩ => ⟨eq_of_forall₂ hargs, hr⟩

theorem starts_deprecation (reason : Option Text) :
    Starts [.at] (directivesTokens id (deprecations reason)) := Document.starts_directives id _

theorem reads_fieldDefinition {f : FieldDefinition} {s : Scan} {rest : List Token}
    (h : f.IsStandard) (hrest : EndsItem rest) (hs : s.Holds (f.tokens ++ rest)) :
    fieldDefinition.Reads s fun f' r => f' = f ∧ r.Holds rest := by
  rw [FieldDefinition.tokens, List.append_assoc, List.cons_append, List.append_assoc,
    List.cons_append, List.append_assoc] at hs
  have hdeprecation : Starts [.at, .closeParen, .closeBrace]
      (directivesTokens id (deprecations f.deprecationReason) ++ rest) :=
    ((starts_deprecation _).mono (by simp)).append (hrest.mono (by simp))
  refine reads_bind (reads_description hs fun m hm => reads_bind (reads_name hm fun m₁ hm₁ => ?_))
  refine reads_bind ((reads_argumentDefinitions h.args (by simp) hm₁).imp ?_)
  rintro args m₂ ⟨rfl, hm₂⟩
  refine reads_bind (reads_punctuator hm₂ fun _ m₃ hm₃ => ?_)
  refine reads_bind ((reads_typeRef _ _ h.type.fits (hdeprecation.head?_ne (by decide)) hm₃).imp ?_)
  rintro type m₄ ⟨rfl, hm₄⟩
  refine reads_map ((reads_deprecation hrest (by decide) hm₄).imp ?_)
  rintro ds r ⟨hds, hr⟩
  refine ⟨?_, hr⟩
  rw [hds, ← h.deprecated]

theorem reads_enumValue {v : EnumValueDefinition} {s : Scan} {rest : List Token}
    (h : v.IsStandard) (hrest : EndsItem rest) (hs : s.Holds (v.tokens ++ rest)) :
    enumValue.Reads s fun v' r => v' = v ∧ r.Holds rest := by
  rw [EnumValueDefinition.tokens, List.append_assoc, List.cons_append] at hs
  refine reads_bind (reads_description hs fun m hm => reads_bind (reads_token hm rfl fun _ m₁ hm₁ => ?_))
  have hfree : ¬ reservedValues.contains v.name = true := by
    rw [List.contains_iff_mem]
    exact h.unreserved
  dsimp only
  rw [if_neg hfree]
  refine reads_map ((reads_deprecation hrest (by decide) hm₁).imp ?_)
  rintro ds r ⟨hds, hr⟩
  refine ⟨?_, hr⟩
  rw [hds, ← h.deprecated]

/-! ### Names -/

theorem separated_cons (separator : Punctuator) (first : Text) (rest : List Text) :
    separated separator (first :: rest) = .name first ::
      (rest.map fun name => [.punctuator separator, .name name]).flatten := by
  induction rest generalizing first with
  | nil => rfl
  | cons name rest ih =>
    rw [separated, ih]
    · rfl
    · exact List.cons_ne_nil _ _

/-- Names with a separator between any two, which does not follow the last one. -/
theorem reads_names {separator : Punctuator} {first : Text} {others : List Text} {s : Scan}
    {rest : List Token} (hrest : rest.head? ≠ some (.punctuator separator))
    (hs : s.Holds (separated separator (first :: others) ++ rest)) :
    (names separator).Reads s fun ns r => ns = first :: others ∧ r.Holds rest := by
  rw [separated_cons, List.cons_append] at hs
  refine reads_bind (reads_optional_missing hs (fun h => by cases h) ?_)
  refine reads_bind (reads_name hs fun m hm => reads_map ?_)
  have hparts : List.Forall₂ (fun (name : Text) (ts : List Token) =>
      True ∧ ts = [.punctuator separator, .name name]) others
      (others.map fun name => [.punctuator separator, .name name]) :=
    forall₂_spelled.mpr ⟨fun _ _ => trivial, rfl⟩
  have hitem : ∀ (name : Text) (ts rest : List Token) (s : Scan),
      (True ∧ ts = [.punctuator separator, .name name]) → True → s.Holds (ts ++ rest) →
      s.startsWith separator = true ∧
        ((punctuator separator).bind fun _ => Reader.name).Reads s fun n r => n = name ∧ r.Holds rest := by
    rintro name _ rest s ⟨-, rfl⟩ - hs
    refine ⟨by rw [hs.startsWith]; exact beq_self_eq_true _, ?_⟩
    exact reads_bind (reads_punctuator hs fun _ m hm => reads_name hm fun r hr => ⟨rfl, hr⟩)
  have hstop : ∀ s : Scan, s.Holds rest → s.startsWith separator = false := fun s hs => by
    rw [hs.startsWith]
    exact beq_false_of_ne hrest
  refine (reads_whileM hitem (fun _ _ _ _ => trivial) trivial hstop hparts hm).imp ?_
  exact fun ns r ⟨hns, hr⟩ => ⟨congrArg (first :: ·) (eq_of_forall₂ hns), hr⟩

/-! ### Types -/

/-- What may follow a definition: another one, which starts with a description or a keyword. -/
structure EndsDefinition (rest : List Token) : Prop where
  starts : Starts [] rest
  head : rest.head? ≠ some (.name "implements")

theorem EndsDefinition.head?_ne {rest : List Token} (h : EndsDefinition rest) (p : Punctuator) :
    rest.head? ≠ some (.punctuator p) := h.starts.head?_ne List.not_mem_nil

theorem starts_braced (tokens : List Token) : Starts [.openBrace] (braced tokens) := by
  cases tokens with
  | nil => exact starts_nil
  | cons t rest => exact starts_punctuator List.mem_cons_self

theorem reads_implementedInterfaces {interfaces : List Text} {s : Scan} {rest : List Token}
    (hrest : rest.head? ≠ some (.name "implements"))
    (hamp : rest.head? ≠ some (.punctuator .ampersand))
    (hs : s.Holds (NamedType.interfacesTokens interfaces ++ rest)) :
    implementedInterfaces.Reads s fun is r => is = interfaces ∧ r.Holds rest := by
  refine reads_peek hs ?_
  cases interfaces with
  | nil =>
    rw [NamedType.interfacesTokens, List.nil_append] at hs ⊢
    split
    · rename_i text he
      have hne : text ≠ "implements" := fun h => hrest (h ▸ he)
      rw [if_neg hne]
      exact reads_pure ⟨rfl, hs⟩
    · exact reads_pure ⟨rfl, hs⟩
  | cons name others =>
    show (if ("implements" : Text) = "implements" then _ else _ : Reader false (List Text)).Reads s _
    rw [if_pos rfl]
    exact reads_relax (reads_bind (reads_take hs fun m hm => reads_names hamp hm))

/-- A type is made of its parts. -/
theorem namedType_eq {t : NamedType} {fields : List FieldDefinition} {interfaces members : List Text}
    {enumValues : List EnumValueDefinition} {inputFields : List InputValueDefinition}
    (hf : t.fields = fields) (hi : t.interfaces = interfaces) (hm : t.members = members)
    (hv : t.enumValues = enumValues) (hif : t.inputFields = inputFields) :
    ⟨t.kind, t.name, t.description, fields, interfaces, members, enumValues, inputFields⟩ = t := by
  subst hf hi hm hv hif
  rfl

/-- What reads a type of a kind, after its keyword. -/
def typeOf (kind : TypeKind) (text : Option Text) : Reader true NamedType :=
  match kind with
  | .scalar => scalarType text
  | .object => objectLike .object text
  | .interface => objectLike .interface text
  | .union => unionType text
  | .enum => enumType text
  | .inputObject => inputObject text

section Types
variable {t : NamedType} {s : Scan} {rest : List Token} (h : t.IsStandard)
  (hrest : EndsDefinition rest)
include h hrest

theorem reads_scalarType (hkind : t.kind = .scalar) (hs : s.Holds (.name t.name :: rest)) :
    (scalarType t.description).Reads s fun t' r => t' = t ∧ r.Holds rest := by
  obtain ⟨hfields, hinterfaces⟩ := h.objectParts (by simp [hkind]) (by simp [hkind])
  have ht := namedType_eq hfields hinterfaces (h.unionParts (by simp [hkind]))
    (h.enumParts (by simp [hkind])) (h.inputParts (by simp [hkind]))
  rw [hkind] at ht
  refine reads_bind (reads_name hs fun m hm => reads_map ?_)
  exact reads_noDirectives hrest.starts (by decide) hm fun _ r hr => ⟨ht, hr⟩

theorem reads_objectLike (hkind : t.kind = .object ∨ t.kind = .interface)
    (hs : s.Holds (.name t.name :: (NamedType.interfacesTokens t.interfaces ++
      (braced (t.fields.map FieldDefinition.tokens).flatten ++ rest)))) :
    (objectLike t.kind t.description).Reads s fun t' r => t' = t ∧ r.Holds rest := by
  have hunion : t.kind ≠ .union := by rcases hkind with hk | hk <;> simp [hk]
  have henum : t.kind ≠ .enum := by rcases hkind with hk | hk <;> simp [hk]
  have hinput : t.kind ≠ .inputObject := by rcases hkind with hk | hk <;> simp [hk]
  have ht := namedType_eq rfl rfl (h.unionParts hunion) (h.enumParts henum) (h.inputParts hinput)
  have hbraced : Starts [.openBrace] (braced (t.fields.map FieldDefinition.tokens).flatten ++ rest) :=
    (starts_braced _).append (hrest.starts.mono (by simp))
  have hnext : (braced (t.fields.map FieldDefinition.tokens).flatten ++ rest).head? ≠
      some (.name "implements") := by
    cases (t.fields.map FieldDefinition.tokens).flatten with
    | nil => exact hrest.head
    | cons => exact fun h => by cases h
  refine reads_bind (reads_name hs fun m hm => ?_)
  refine reads_bind ((reads_implementedInterfaces hnext (hbraced.head?_ne (by decide)) hm).imp ?_)
  rintro interfaces m₁ ⟨rfl, hm₁⟩
  refine reads_bind (reads_noDirectives hbraced (by decide) hm₁ fun _ m₂ hm₂ => reads_map ?_)
  refine (reads_inBraces FieldDefinition.isDescribed reads_fieldDefinition h.fields (hrest.head?_ne _) hm₂).imp ?_
  rintro fields r ⟨rfl, hr⟩
  exact ⟨ht, hr⟩

theorem reads_unionType (hkind : t.kind = .union)
    (hs : s.Holds (.name t.name :: (NamedType.membersTokens t.members ++ rest))) :
    (unionType t.description).Reads s fun t' r => t' = t ∧ r.Holds rest := by
  obtain ⟨hfields, hinterfaces⟩ := h.objectParts (by simp [hkind]) (by simp [hkind])
  have ht := namedType_eq hfields hinterfaces rfl (h.enumParts (by simp [hkind]))
    (h.inputParts (by simp [hkind]))
  rw [hkind] at ht
  refine reads_bind (reads_name hs fun m hm => ?_)
  cases hm' : t.members with
  | nil =>
    rw [hm'] at hm ht
    refine reads_bind (reads_noDirectives hrest.starts (by decide) hm fun _ m₁ hm₁ => ?_)
    exact reads_bind (reads_optional_missing hm₁ (hrest.head?_ne _)
      (reads_map (reads_pure ⟨ht, hm₁⟩)))
  | cons first others =>
    rw [hm'] at hm ht
    have hequals : Starts [.equals] (NamedType.membersTokens (first :: others) ++ rest) :=
      starts_punctuator List.mem_cons_self
    refine reads_bind (reads_noDirectives hequals (by decide) hm fun _ m₁ hm₁ => ?_)
    refine reads_bind (reads_optional_found hm₁ fun m₂ hm₂ => reads_map (reads_relax ?_))
    refine (reads_names (hrest.head?_ne _) hm₂).imp ?_
    rintro ns r ⟨rfl, hr⟩
    exact ⟨ht, hr⟩

theorem reads_enumType (hkind : t.kind = .enum)
    (hs : s.Holds (.name t.name ::
      (braced (t.enumValues.map EnumValueDefinition.tokens).flatten ++ rest))) :
    (enumType t.description).Reads s fun t' r => t' = t ∧ r.Holds rest := by
  obtain ⟨hfields, hinterfaces⟩ := h.objectParts (by simp [hkind]) (by simp [hkind])
  have ht := namedType_eq hfields hinterfaces (h.unionParts (by simp [hkind])) rfl
    (h.inputParts (by simp [hkind]))
  rw [hkind] at ht
  have hbraced := (starts_braced (t.enumValues.map EnumValueDefinition.tokens).flatten).append
    (hrest.starts.mono (by simp))
  refine reads_bind (reads_name hs fun m hm => ?_)
  refine reads_bind (reads_noDirectives hbraced (by decide) hm fun _ m₁ hm₁ => reads_map ?_)
  refine (reads_inBraces EnumValueDefinition.isDescribed reads_enumValue h.enumValues (hrest.head?_ne _) hm₁).imp ?_
  rintro values r ⟨rfl, hr⟩
  exact ⟨ht, hr⟩

theorem reads_inputObject (hkind : t.kind = .inputObject)
    (hs : s.Holds (.name t.name ::
      (braced (t.inputFields.map InputValueDefinition.tokens).flatten ++ rest))) :
    (inputObject t.description).Reads s fun t' r => t' = t ∧ r.Holds rest := by
  obtain ⟨hfields, hinterfaces⟩ := h.objectParts (by simp [hkind]) (by simp [hkind])
  have ht := namedType_eq hfields hinterfaces (h.unionParts (by simp [hkind]))
    (h.enumParts (by simp [hkind])) rfl
  rw [hkind] at ht
  have hbraced := (starts_braced (t.inputFields.map InputValueDefinition.tokens).flatten).append
    (hrest.starts.mono (by simp))
  refine reads_bind (reads_name hs fun m hm => ?_)
  refine reads_bind (reads_noDirectives hbraced (by decide) hm fun _ m₁ hm₁ => reads_map ?_)
  refine (reads_inBraces InputValueDefinition.isDescribed reads_inputValue h.inputFields (hrest.head?_ne _)
    hm₁).imp ?_
  rintro fields r ⟨rfl, hr⟩
  exact ⟨ht, hr⟩

theorem reads_typeOf (hs : s.Holds (.name t.name :: (t.partTokens ++ rest))) :
    (typeOf t.kind t.description).Reads s fun t' r => t' = t ∧ r.Holds rest := by
  unfold NamedType.partTokens at hs
  unfold typeOf
  cases hkind : t.kind with
  | scalar =>
    rw [hkind] at hs
    exact reads_scalarType h hrest hkind hs
  | object =>
    rw [hkind] at hs
    have hread := reads_objectLike h hrest (Or.inl hkind) (by rwa [← List.append_assoc])
    rwa [hkind] at hread
  | interface =>
    rw [hkind] at hs
    have hread := reads_objectLike h hrest (Or.inr hkind) (by rwa [← List.append_assoc])
    rwa [hkind] at hread
  | union =>
    rw [hkind] at hs
    exact reads_unionType h hrest hkind hs
  | enum =>
    rw [hkind] at hs
    exact reads_enumType h hrest hkind hs
  | inputObject =>
    rw [hkind] at hs
    exact reads_inputObject h hrest hkind hs

omit h hrest in
theorem body_keyword (text : Option Text) (kind : TypeKind) :
    body text kind.keyword = take.bind fun _ => (typeOf kind text).map .type := by
  cases kind <;> rfl

/-- **A type is read from its tokens.** -/
theorem reads_type (hs : s.Holds (t.tokens ++ rest)) :
    reader.Reads s fun d r => d = .type t ∧ r.Holds rest := by
  rw [NamedType.tokens, List.append_assoc, List.cons_append, List.cons_append] at hs
  refine reads_bind (reads_description hs fun m hm => reads_peek hm ?_)
  show (body t.description t.kind.keyword).Reads m _
  rw [body_keyword]
  refine reads_bind (reads_take hm fun m₁ hm₁ => reads_map ?_)
  exact (reads_typeOf h hrest hm₁).imp fun t' r ⟨ht, hr⟩ => ⟨congrArg Definition.type ht, hr⟩

end Types

/-! ### Root types -/

theorem operationOf?_text (o : OperationType) : operationOf? o.text = some o := by
  cases o <;> rfl

theorem reads_root {x : OperationType × Text} {s : Scan} {rest : List Token}
    (hs : s.Holds (rootTokens x ++ rest)) :
    root.Reads s fun x' r => x' = x ∧ r.Holds rest := by
  refine reads_bind (reads_name hs fun m hm => reads_bind (reads_punctuator hm fun _ m₁ hm₁ => ?_))
  refine reads_bind (reads_token hm₁ rfl fun _ r hr => ?_)
  dsimp only
  rw [operationOf?_text]
  exact reads_pure ⟨rfl, hr⟩

/-- **The block of root types is read from its tokens**, if there are any. -/
theorem reads_roots {roots : OperationType → Option Text} (hne : rootList roots ≠ []) {s : Scan}
    {rest : List Token} (hs : s.Holds (rootsTokens roots ++ rest)) :
    reader.Reads s fun d r => d = .roots (rootList roots) ∧ r.Holds rest := by
  have hbraced : rootsTokens roots = .name "schema" :: .punctuator .openBrace ::
      (((rootList roots).map rootTokens).flatten ++ [.punctuator .closeBrace]) := by
    rw [rootsTokens]
    obtain ⟨x, xs, hx⟩ := List.exists_cons_of_ne_nil hne
    rw [hx]
    rfl
  rw [hbraced, List.cons_append, List.cons_append, List.append_assoc] at hs
  have hdescription : s.Holds (descriptionTokens none ++ .name "schema" :: .punctuator .openBrace ::
      (((rootList roots).map rootTokens).flatten ++ ([.punctuator .closeBrace] ++ rest))) := hs
  refine reads_bind (reads_description hdescription fun m hm => reads_peek hm ?_)
  have hopen : Starts [.openBrace] (.punctuator .openBrace ::
      (((rootList roots).map rootTokens).flatten ++ ([.punctuator .closeBrace] ++ rest))) :=
    starts_punctuator List.mem_cons_self
  refine reads_bind (reads_take hm fun m₁ hm₁ => reads_map ?_)
  refine reads_bind (reads_noDirectives hopen (by decide) hm₁ fun _ m₂ hm₂ => ?_)
  refine reads_bind (reads_punctuator hm₂ fun _ m₃ hm₃ => ?_)
  have hparts : List.Forall₂ (fun x ts => True ∧ ts = rootTokens x) (rootList roots)
      ((rootList roots).map rootTokens) := forall₂_spelled.mpr ⟨fun _ _ => trivial, rfl⟩
  refine (reads_someUntil (readsItems .closeBrace isDescribed_root fun _ _ hs => reads_root hs)
    (starts_punctuator (by decide)) hparts hne hm₃).imp ?_
  exact fun xs r ⟨hxs, hr⟩ => ⟨congrArg Definition.roots (eq_of_forall₂ hxs), hr⟩

end Definition

/-! ### Schemas -/

/-- One definition of a text after the other. -/
theorem defineAll_eq {s : Schema} {scan rest : Scan} {d : Definition}
    (h : Definition.reader.run scan = .ok (d, rest)) :
    defineAll s scan = ((s.define d).mapError .schema).bind fun s =>
      if rest.atEnd then .ok s else defineAll s rest := by
  rw [defineAll]
  split
  · rename_i e he
    cases he.symm.trans h
  · rename_i d' rest' hd
    cases hd.symm.trans h
    cases s.define d <;> rfl

/-- A definition ends in front of the definition of a type and at the end. -/
theorem endsDefinition_types (types : List NamedType) :
    Definition.EndsDefinition (types.map NamedType.tokens).flatten := by
  cases types with
  | nil => exact ⟨starts_nil, fun h => by cases h⟩
  | cons t types =>
    rw [List.map_cons, List.flatten_cons]
    refine ⟨Definition.starts_described t.isDescribed _ _, ?_⟩
    rw [NamedType.tokens]
    cases t.description with
    | some text => exact fun h => by cases h
    | none =>
      intro h
      have hkeyword : t.kind.keyword = "implements" := Token.name.inj (Option.some.inj h)
      revert hkeyword
      cases t.kind <;> decide

theorem isEmpty_typeTokens (types : List NamedType) :
    (types.map NamedType.tokens).flatten.isEmpty = types.isEmpty := by
  cases types with
  | nil => rfl
  | cons t types =>
    obtain ⟨token, more, hhead, -⟩ := t.isDescribed.head (types.map NamedType.tokens).flatten
    rw [List.map_cons, List.flatten_cons, hhead]
    rfl

/-- **A text of types adds them to a schema**, one after the other. -/
theorem defineAll_types {types : List NamedType} (htypes : ∀ t ∈ types, t.IsStandard)
    (hne : types ≠ []) (s : Schema) {scan : Scan}
    (hs : scan.Holds (types.map NamedType.tokens).flatten) :
    defineAll s scan = (types.foldlM add s).mapError .schema := by
  induction types generalizing s scan with
  | nil => exact absurd rfl hne
  | cons t types ih =>
    rw [List.map_cons, List.flatten_cons] at hs
    obtain ⟨d, rest, hrun, rfl, hrest⟩ := Definition.reads_type (htypes t List.mem_cons_self)
      (endsDefinition_types types) hs
    rw [defineAll_eq hrun, List.foldlM_cons]
    show ((s.add t).mapError LoadError.schema).bind _ = _
    cases s.add t with
    | error e => rfl
    | ok s' =>
      show (if rest.atEnd = true then Except.ok s' else defineAll s' rest) = _
      rw [hrest.atEnd, isEmpty_typeTokens]
      cases types with
      | nil => rfl
      | cons t' types =>
        exact ih (fun t ht => htypes t (List.mem_cons_of_mem _ ht)) (List.cons_ne_nil _ _) s' hrest

/-- **The schema of a written schema**: its root types are named, its types are added one after the
other, and the whole is validated. -/
theorem ofDefinitions_text {roots : OperationType → Option Text} {types : List NamedType}
    (hroots : RootsNamed roots) (hne : rootList roots ≠ []) (htypes : ∀ t ∈ types, t.IsStandard) :
    ofDefinitions (text roots types) =
      ((types.foldlM add (withRoots roots initial)).bind validated).mapError .schema := by
  have hscan := Scan.scan_holds (lex_text hroots htypes)
  obtain ⟨d, rest, hrun, rfl, hrest⟩ := Definition.reads_roots hne hscan
  have hall : defineAll initial (Scan.scan (text roots types)) =
      (types.foldlM add (withRoots roots initial)).mapError .schema := by
    rw [defineAll_eq hrun]
    show (if rest.atEnd = true then Except.ok (withRoots roots initial)
      else defineAll (withRoots roots initial) rest) = _
    rw [hrest.atEnd, isEmpty_typeTokens]
    cases types with
    | nil => rfl
    | cons t types => exact defineAll_types htypes (List.cons_ne_nil _ _) _ hrest
  rw [ofDefinitions, hall]
  cases types.foldlM add (withRoots roots initial) <;> rfl

end QueryCompiler.Schema
