import QueryCompiler.Document.Parser
import QueryCompiler.Proofs.Schema.Closed
import QueryCompiler.Proofs.Typed.Marking
import QueryCompiler.Proofs.Typed.Requests

/-!
# The types that a document asks for

A document asks for the types of its variables and of the fields that it selects anywhere (`Asks`):
in operations and in fragment definitions, whether these are spread or not and whether a literal
condition drops the selection or not.

A resolution that succeeds brings just these types into use (`document_brings`): selections bring in
those of their fields, and with every fragment that is found meanwhile come the types that its
definition asks for, once for all of its spreads (`Brings`). So the types used by a program are the
least set that covers what the document asks for (`ofDocument_typesUsed`).
-/

namespace QueryCompiler

namespace Document

/-- **A field with the definition is selected** by selections on a type, at any depth. All selections
count, those that a literal keeps out too; what spreads stand for does not. -/
inductive Declares (schema : Schema) (definition : FieldDefinition) :
    NamedType → List Selection → Prop
  | field {parent f nested selections} (hs : Selection.field f nested ∈ selections)
      (hd : Schema.fieldDefinition parent f.name = some definition) :
      Declares schema definition parent selections
  | inside {parent f nested selections outer type} (hs : Selection.field f nested ∈ selections)
      (hd : Schema.fieldDefinition parent f.name = some outer)
      (ht : schema.type? outer.type.namedType = some type)
      (h : Declares schema definition type nested) : Declares schema definition parent selections
  | inlineAny {parent f nested selections} (hs : Selection.inline f nested ∈ selections)
      (hf : f.typeCondition = none) (h : Declares schema definition parent nested) :
      Declares schema definition parent selections
  | inlineOn {parent f nested selections name type} (hs : Selection.inline f nested ∈ selections)
      (hf : f.typeCondition = some name) (ht : schema.type? name = some type)
      (h : Declares schema definition type nested) : Declares schema definition parent selections

/-- **The document asks for the type of a name**: it is the named type of a variable, or that of the
definition of a field that an operation or a fragment selects. -/
inductive Asks (schema : Schema) (d : Document) : Text → Prop
  | variableType {o v} (ho : o ∈ d.operations) (hv : v ∈ o.variableDefinitions) :
      Asks schema d v.type.namedType
  | operationField {o root definition} (ho : o ∈ d.operations)
      (hr : schema.rootType? o.operation = some root)
      (h : Declares schema definition root o.selections) : Asks schema d definition.type.namedType
  | fragmentField {f type definition} (hf : f ∈ d.fragments)
      (ht : schema.type? f.typeCondition = some type)
      (h : Declares schema definition type f.selections) : Asks schema d definition.type.namedType

section Declares
variable {schema : Schema} {definition : FieldDefinition} {parent type : NamedType}
  {nested rest : List Selection}

theorem not_declares_nil : ¬ Declares schema definition parent [] := by
  rintro (⟨hs, -⟩ | ⟨hs, -, -, -⟩ | ⟨hs, -, -⟩ | ⟨hs, -, -, -⟩) <;> cases hs

theorem Declares.mono {selections selections' : List Selection}
    (h : Declares schema definition parent selections) (hsub : selections ⊆ selections') :
    Declares schema definition parent selections' := by
  cases h with
  | field hs hd => exact .field (hsub hs) hd
  | inside hs hd ht h => exact .inside (hsub hs) hd ht h
  | inlineAny hs hf h => exact .inlineAny (hsub hs) hf h
  | inlineOn hs hf ht h => exact .inlineOn (hsub hs) hf ht h

theorem declares_cons {s : Selection} : Declares schema definition parent (s :: rest) ↔
    Declares schema definition parent [s] ∨ Declares schema definition parent rest := by
  constructor
  · have hsplit : ∀ {x : Selection}, x ∈ s :: rest → x ∈ [s] ∨ x ∈ rest := fun hx =>
      (List.mem_cons.mp hx).imp_left List.mem_singleton.mpr
    rintro (⟨hs, hd⟩ | ⟨hs, hd, ht, h⟩ | ⟨hs, hf, h⟩ | ⟨hs, hf, ht, h⟩)
    · exact (hsplit hs).imp (.field · hd) (.field · hd)
    · exact (hsplit hs).imp (.inside · hd ht h) (.inside · hd ht h)
    · exact (hsplit hs).imp (.inlineAny · hf h) (.inlineAny · hf h)
    · exact (hsplit hs).imp (.inlineOn · hf ht h) (.inlineOn · hf ht h)
  · rintro (h | h)
    · exact h.mono (List.cons_subset_cons s (List.nil_subset rest))
    · exact h.mono (List.subset_cons_self s rest)

theorem declares_field {f : Field} {outer : FieldDefinition}
    (hd : Schema.fieldDefinition parent f.name = some outer)
    (ht : schema.type? outer.type.namedType = some type) :
    Declares schema definition parent [.field f nested] ↔
      definition = outer ∨ Declares schema definition type nested := by
  constructor
  · rintro (⟨hs, hd'⟩ | ⟨hs, hd', ht', h⟩ | ⟨hs, -, -⟩ | ⟨hs, -, -, -⟩) <;>
      cases List.mem_singleton.mp hs
    · exact .inl (Option.some.inj (hd'.symm.trans hd))
    · cases hd'.symm.trans hd
      cases ht'.symm.trans ht
      exact .inr h
  · rintro (rfl | h)
    · exact .field (List.mem_singleton_self _) hd
    · exact .inside (List.mem_singleton_self _) hd ht h

theorem declares_inline {f : InlineFragment} (hnone : f.typeCondition = none → type = parent)
    (hsome : ∀ name, f.typeCondition = some name → schema.type? name = some type) :
    Declares schema definition parent [.inline f nested] ↔
      Declares schema definition type nested := by
  constructor
  · rintro (⟨hs, -⟩ | ⟨hs, -, -, -⟩ | ⟨hs, hf, h⟩ | ⟨hs, hf, ht, h⟩) <;>
      cases List.mem_singleton.mp hs
    · exact hnone hf ▸ h
    · cases ht.symm.trans (hsome _ hf)
      exact h
  · intro h
    cases hf : f.typeCondition with
    | none => exact .inlineAny (List.mem_singleton_self _) hf (hnone hf ▸ h)
    | some name => exact .inlineOn (List.mem_singleton_self _) hf (hsome name hf) h

theorem not_declares_spread {f : Spread} : ¬ Declares schema definition parent [.spread f] := by
  rintro (⟨hs, -⟩ | ⟨hs, -, -, -⟩ | ⟨hs, -, -⟩ | ⟨hs, -, -, -⟩) <;> cases List.mem_singleton.mp hs

end Declares

end Document

namespace Schema

/-- The name that the type of a name has itself; the name, if there is no such type. -/
def ownName (s : Schema) (name : Text) : Text := ((s.type? name).map NamedType.name).getD name

theorem ownName_eq {s : Schema} {name : Text} {t : NamedType} (ht : s.type? name = some t) :
    s.ownName name = t.name := by
  rw [ownName, ht]
  rfl

/-- Types that stand under their own names have these. -/
theorem IsKeyed.ownName {s : Schema} (h : s.IsKeyed) (name : Text) : s.ownName name = name := by
  cases ht : s.type? name with
  | none => rw [Schema.ownName, ht]; rfl
  | some t => rw [ownName_eq ht, h.name_eq_of_type? ht]

end Schema

namespace Resolve

open Document (Declares declares_field declares_inline declares_cons not_declares_nil
  not_declares_spread)

/-! ### What steps bring into use -/

/-- The types of the fields that selections on a type select are among the names. -/
def Includes (schema : Schema) (parent : NamedType) (selections : List Document.Selection)
    (names : List Text) : Prop :=
  ∀ definition, Declares schema definition parent selections → definition.type.namedType ∈ names

/-- **A step brings the types of the names into use**, all of which the document asks for, and among
which are those that the fragments ask for that have been found meanwhile. -/
structure Brings (schema : Schema) (d : Document) (names : List Text) (p p' : Progress) : Prop where
  used : p'.typesUsed = schema.useAll p.typesUsed (names.map schema.ownName)
  asked : ∀ name ∈ names, d.Asks schema name
  found : ∀ f ∈ d.fragments, f.name ∈ p'.fragments.keys → f.name ∈ p.fragments.keys ∨
    ∀ type, schema.type? f.typeCondition = some type → Includes schema type f.selections names

section Brings
variable {schema : Schema} {d : Document} {names names' : List Text} {p p₁ p' : Progress}

theorem Brings.refl (p : Progress) : Brings schema d [] p p :=
  ⟨Schema.useAll_nil.symm, List.forall_mem_nil _, fun _ _ h => .inl h⟩

theorem Brings.trans (h : Brings schema d names p p₁) (h' : Brings schema d names' p₁ p') :
    Brings schema d (names ++ names') p p' := by
  refine ⟨?_, fun name hname => ?_, fun f hf hkey => ?_⟩
  · rw [h'.used, h.used, List.map_append, Schema.useAll_append]
  · exact (List.mem_append.mp hname).elim (h.asked name) (h'.asked name)
  · rcases h'.found f hf hkey with hkey | hall
    · exact (h.found f hf hkey).imp_right fun hall type ht definition hdef =>
        List.mem_append_left _ (hall type ht definition hdef)
    · exact .inr fun type ht definition hdef => List.mem_append_right _ (hall type ht definition hdef)

/-- A type that the document asks for comes into use. -/
theorem Brings.use {name : Text} {t : NamedType} (h : d.Asks schema name)
    (ht : schema.type? name = some t) (p : Progress) :
    Brings schema d [name] p { p with typesUsed := schema.use p.typesUsed t.name } := by
  refine ⟨?_, List.forall_mem_singleton.mpr h, fun _ _ hkey => .inl hkey⟩
  rw [List.map_singleton, Schema.ownName_eq ht, Schema.use]

end Brings

/-! ### Selections -/

section Selections
variable {ctx : Context} {d : Document} {spread : Text → Location → Step Typed.Fragment}

mutual

theorem one_brings (hspread : ∀ name location p f p', spread name location p = .ok (f, p') →
      ∃ names, Brings ctx.schema d names p p') :
    ∀ (s : Document.Selection) {parent : NamedType} {types : List Text} {depth : Nat}
      {p p' : Progress} {r : Option Typed.Selection},
      (∀ definition, Declares ctx.schema definition parent [s] →
        d.Asks ctx.schema definition.type.namedType) →
      one ctx spread parent types depth s p = .ok (r, p') →
      ∃ names, Brings ctx.schema d names p p' ∧ Includes ctx.schema parent [s] names
  | .field f selections, parent, types, depth, p, p', r, hasks, h => by
    obtain ⟨head, type, p₁, hh, h⟩ := one_field_ok h
    obtain ⟨definition, hd, ht, -, -, -, -, -, -, rfl⟩ := fieldHead_ok hh
    have huse := Brings.use (hasks definition ((declares_field hd ht).mpr (.inl rfl))) ht p
    rcases h with ⟨-, rfl, rfl, -⟩ | ⟨-, -, -, inner, hi, -⟩
    · refine ⟨_, huse, fun definition' h' => ?_⟩
      rcases (declares_field hd ht).mp h' with rfl | h'
      · exact List.mem_singleton_self _
      · exact absurd h' not_declares_nil
    · obtain ⟨names, hbrings, hincludes⟩ := all_brings hspread selections
        (fun definition' h' => hasks definition' ((declares_field hd ht).mpr (.inr h'))) hi
      refine ⟨_, huse.trans hbrings, fun definition' h' => ?_⟩
      rcases (declares_field hd ht).mp h' with rfl | h'
      · exact List.mem_cons_self
      · exact List.mem_cons_of_mem _ (hincludes definition' h')
  | .inline f selections, parent, types, depth, p, p', r, hasks, h => by
    obtain ⟨type, inner, -, hnone, hsome, hi, -⟩ := one_inline_ok h
    obtain ⟨names, hbrings, hincludes⟩ := all_brings hspread selections
      (fun definition h' => hasks definition ((declares_inline hnone hsome).mpr h')) hi
    exact ⟨names, hbrings, fun definition h' =>
      hincludes definition ((declares_inline hnone hsome).mp h')⟩
  | .spread f, parent, types, depth, p, p', r, hasks, h => by
    obtain ⟨fragment, hf, -⟩ := one_spread_ok h
    obtain ⟨names, hbrings⟩ := hspread _ _ _ _ _ hf
    exact ⟨names, hbrings, fun definition h' => absurd h' not_declares_spread⟩

/-- **Selections bring the types of their fields into use**, and what their spreads bring in. -/
theorem all_brings (hspread : ∀ name location p f p', spread name location p = .ok (f, p') →
      ∃ names, Brings ctx.schema d names p p') :
    ∀ (selections : List Document.Selection) {parent : NamedType} {types : List Text}
      {depth : Nat} {p p' : Progress} {typed : List Typed.Selection},
      (∀ definition, Declares ctx.schema definition parent selections →
        d.Asks ctx.schema definition.type.namedType) →
      all ctx spread parent types depth selections p = .ok (typed, p') →
      ∃ names, Brings ctx.schema d names p p' ∧ Includes ctx.schema parent selections names
  | [], parent, types, depth, p, p', typed, hasks, h => by
    obtain ⟨-, rfl⟩ := all_nil_ok h
    exact ⟨[], .refl _, fun definition h' => absurd h' not_declares_nil⟩
  | s :: rest, parent, types, depth, p, p', typed, hasks, h => by
    obtain ⟨r, others, p₁, hr, ho, -⟩ := all_cons_ok h
    obtain ⟨first, hfirst, hone⟩ := one_brings hspread s
      (fun definition h' => hasks definition (declares_cons.mpr (.inl h'))) hr
    obtain ⟨second, hsecond, hall⟩ := all_brings hspread rest
      (fun definition h' => hasks definition (declares_cons.mpr (.inr h'))) ho
    refine ⟨_, hfirst.trans hsecond, fun definition h' => List.mem_append.mpr ?_⟩
    exact (declares_cons.mp h').imp (hone definition) (hall definition)

end

end Selections

/-! ### Fragments, variables and operations -/

section Definitions
variable {ctx : Context} {d : Document}

section Fragments
variable (hnodup : (d.fragments.map Document.Fragment.name).Nodup)
include hnodup

/-- **A request for a fragment brings in what its definition asks for**, unless the fragment is found
already. -/
theorem fragment_brings (opened : List Text) (name : Text) (location : Location) {p p' : Progress}
    {f : Typed.Fragment} (h : fragment ctx d.fragments opened name location p = .ok (f, p')) :
    ∃ names, Brings ctx.schema d names p p' := by
  rcases fragment_ok h with ⟨-, rfl⟩ | ⟨-, e, he, ho, -, hdef⟩
  · exact ⟨[], .refl _⟩
  · have hmem := List.mem_of_find?_eq_some he
    obtain ⟨type, typed, p₁, ht, -, ha, -, rfl⟩ := ofDefinition_ok hdef
    obtain ⟨names, hbrings, hincludes⟩ := all_brings
      (fun n l _ _ _ hs => fragment_brings (opened ++ [name]) n l hs) e.selections
      (fun definition h' => .fragmentField hmem ht h') ha
    refine ⟨names, hbrings.used, hbrings.asked, fun g hg hkey => ?_⟩
    rw [OrderedMap.keys_insert] at hkey
    split_ifs at hkey
    · exact hbrings.found g hg hkey
    rcases List.mem_append.mp hkey with hkey | hkey
    · exact hbrings.found g hg hkey
    · refine .inr fun type' ht' => ?_
      obtain rfl : g = e := eq_of_name_eq hnodup hg hmem (List.mem_singleton.mp hkey)
      cases ht'.symm.trans ht
      exact hincludes
termination_by (closedDefinitions d.fragments opened).length
decreasing_by exact length_closedDefinitions_lt he (by rw [ho]; exact Bool.false_ne_true)

theorem fragments_bring : ∀ {fs : List Document.Fragment} {p p' : Progress},
    fs.forM (fun f => discard (fragment ctx d.fragments [] f.name f.location)) p = .ok ((), p') →
    ∃ names, Brings ctx.schema d names p p'
  | [], p, p', h => by
    obtain ⟨-, rfl⟩ := pure_eq_ok.mp h
    exact ⟨[], .refl _⟩
  | f :: fs, p, p', h => by
    obtain ⟨_, p₁, hd, h⟩ := bind_eq_ok.mp h
    obtain ⟨_, hf⟩ := discard_eq_ok.mp hd
    obtain ⟨first, hfirst⟩ := fragment_brings hnodup [] _ _ hf
    obtain ⟨second, hsecond⟩ := fragments_bring h
    exact ⟨_, hfirst.trans hsecond⟩

end Fragments

theorem resolveVariables_bring {location : Location} : ∀ {vs : List Document.Variable}
    {rs : List Typed.Variable} {p p' : Progress},
    (∀ v ∈ vs, d.Asks ctx.schema v.type.namedType) →
    vs.mapM (resolveVariable ctx location) p = .ok (rs, p') →
    Brings ctx.schema d (vs.map fun v => v.type.namedType) p p'
  | [], rs, p, p', hasks, h => by
    rw [List.mapM_nil] at h
    obtain ⟨-, rfl⟩ := pure_eq_ok.mp h
    exact .refl _
  | v :: vs, rs, p, p', hasks, h => by
    obtain ⟨r, rs', p₁, hr, hrs, -⟩ := mapM_cons_eq_ok.mp h
    obtain ⟨hv, hvs⟩ := List.forall_mem_cons.mp hasks
    obtain ⟨type, ht, -, -, rfl⟩ := resolveVariable_ok hr
    exact (Brings.use hv ht p).trans (resolveVariables_bring hvs hrs)

/-- The types of its variables and of the fields that it selects are among the names. -/
def IncludesOperation (schema : Schema) (o : Document.Operation) (names : List Text) : Prop :=
  (∀ v ∈ o.variableDefinitions, v.type.namedType ∈ names) ∧
    ∀ root, schema.rootType? o.operation = some root → Includes schema root o.selections names

theorem operations_bring (hnodup : (d.fragments.map Document.Fragment.name).Nodup) :
    ∀ {os : List Document.Operation} {done done' : OrderedMap Text Typed.Operation}
      {p p' : Progress}, os ⊆ d.operations →
      os.foldlM (operation ctx d.fragments) done p = .ok (done', p') →
      ∃ names, Brings ctx.schema d names p p' ∧ ∀ o ∈ os, IncludesOperation ctx.schema o names
  | [], done, done', p, p', _, h => by
    obtain ⟨-, rfl⟩ := pure_eq_ok.mp h
    exact ⟨[], .refl _, List.forall_mem_nil _⟩
  | o :: os, done, done', p, p', hsub, h => by
    rw [List.foldlM_cons] at h
    obtain ⟨done₁, p₁, ho, h⟩ := bind_eq_ok.mp h
    obtain ⟨name, root, vars, p₂, typed, -, -, hr, hvars, ha, -⟩ := operation_ok ho
    obtain ⟨hmem, hsub⟩ := List.cons_subset.mp hsub
    have hfirst := resolveVariables_bring (fun v hv => .variableType hmem hv) hvars
    obtain ⟨second, hsecond, hincludes⟩ := all_brings
      (fun n l _ _ _ hs => fragment_brings hnodup [] n l hs) o.selections
      (fun definition h' => .operationField hmem hr h') ha
    obtain ⟨third, hthird, hothers⟩ := operations_bring hnodup hsub h
    refine ⟨_, (hfirst.trans hsecond).trans hthird, List.forall_mem_cons.mpr ⟨⟨fun v hv => ?_,
      fun root' hr' definition h' => ?_⟩, fun o' ho' => ⟨fun v hv => ?_,
      fun root' hr' definition h' => ?_⟩⟩⟩
    · exact List.mem_append_left _ (List.mem_append_left _ (List.mem_map_of_mem hv))
    · cases hr'.symm.trans hr
      exact List.mem_append_left _ (List.mem_append_right _ (hincludes definition h'))
    · exact List.mem_append_right _ ((hothers o' ho').1 v hv)
    · exact List.mem_append_right _ ((hothers o' ho').2 root' hr' definition h')

/-- **A document that resolves brings the types that it asks for into use, and no others.** -/
theorem document_brings {operations : OrderedMap Text Typed.Operation} {p : Progress}
    (h : document ctx d ⟨∅, []⟩ = .ok (operations, p)) : ∃ names : List Text,
      (∀ name, name ∈ names ↔ d.Asks ctx.schema name) ∧
        p.typesUsed = ctx.schema.useAll [] (names.map ctx.schema.ownName) := by
  obtain ⟨hnodup, hgains⟩ := document_gains h
  obtain ⟨-, p₁, hfragments, hoperations⟩ := document_ok h
  obtain ⟨first, hfirst⟩ := fragments_bring hnodup hfragments
  obtain ⟨second, hsecond, hincludes⟩ :=
    operations_bring hnodup (List.Subset.refl _) hoperations
  have hbrings := hfirst.trans hsecond
  refine ⟨first ++ second, fun name => ⟨hbrings.asked name, fun hasks => ?_⟩, hbrings.used⟩
  cases hasks with
  | variableType ho hv => exact List.mem_append_right _ ((hincludes _ ho).1 _ hv)
  | operationField ho hr h' => exact List.mem_append_right _ ((hincludes _ ho).2 _ hr _ h')
  | fragmentField hf ht h' =>
    -- Every fragment is found in the end, whether it is spread or not, and none is at the start.
    have hkey := hgains.found (List.mem_append_left _ (List.mem_map_of_mem hf))
    rcases hbrings.found _ hf hkey with hnil | hall
    · cases hnil
    · exact hall _ ht _ h'

end Definitions

end Resolve

namespace Typed

open Document (declares_field not_declares_nil)
open Resolve

/-- The types used by a program are the least set that covers what its document asks for, and each is
listed once. -/
theorem Program.isLeast_typesUsed {schema : Schema} (hkeyed : schema.IsKeyed) {d : Document}
    {options : CompilerOptions} {program : Program}
    (h : Program.ofDocument schema d options = .ok program) :
    program.typesUsed.Nodup ∧
      IsLeast {S | schema.Covers {name | (prepared d options).Asks schema name} S}
        {name | name ∈ program.typesUsed} := by
  obtain ⟨⟨operations, p⟩, hrun, h⟩ := Success.bind_eq_ok.mp h
  obtain rfl := Except.ok.inj h
  obtain ⟨names, hasks, hused⟩ := document_brings hrun
  rw [List.map_id'' hkeyed.ownName] at hused
  have hleast := schema.isLeast_useAll names
  simp only [hasks] at hleast
  rw [hused]
  exact ⟨Schema.nodup_useAll List.nodup_nil names, hleast⟩

/-- **The types used are the least set that covers what the document asks for**, for every schema
that is accepted, however it has been made. Types come into use by a recursion that ends, although
input objects may refer to one another in circles: it nests at most one deeper than the schema has
types. Each type is listed once. The types listed are the least set that has the enums, the input
objects and the scalars, except for those that are built in, that are asked for by the document that
is resolved (with type names put in, if the options ask for that), and with each input object those
that its fields have. -/
theorem ofDocument_typesUsed (edits : List Schema.Edit) {schema : Schema}
    (hschema : (Schema.initial.editAll edits).validated = .ok schema) (d : Document)
    (options : CompilerOptions) :
    (∀ inner, schema.useWith^[schema.types.size + 1] inner = schema.use) ∧
    ∀ program, Program.ofDocument schema d options = .ok program →
      program.typesUsed.Nodup ∧
      IsLeast {S | schema.Covers {name | (prepared d options).Asks schema name} S}
        {name | name ∈ program.typesUsed} := by
  refine ⟨fun inner => ?_, fun program h => ?_⟩
  · funext used name
    have hlength : (schema.unused used).length ≤ schema.types.size :=
      (List.length_filter_le _ _).trans_eq (List.length_map _)
    exact Schema.use_unrolled inner _ used name (Nat.lt_succ_of_le hlength)
  · exact Program.isLeast_typesUsed ((Schema.isKeyed_initial.editAll edits).validated hschema) h

/-! ### Orders, and a field that is not resolved -/

/-- A field of orders. -/
def orderField (name type : Text) : FieldDefinition := { name, type := .named type }

/-- What can be asked of orders. -/
def orderQuery : NamedType :=
  { kind := .object, name := "Query"
    fields := [{ name := "status", args := [{ name := "of", type := .named "Filter" }]
                 type := .named "Status" },
      orderField "size" "Size", orderField "paid" "Money", orderField "count" "Int"] }

/-- Orders are found by filters, which may contain one another. -/
def orderEdits : List Schema.Edit :=
  [.add { kind := .enum, name := "Status" }, .add { kind := .enum, name := "Size" },
    .add { kind := .enum, name := "Currency" }, .add { kind := .enum, name := "Colour" },
    .add { kind := .scalar, name := "Money" },
    .add { kind := .inputObject, name := "Filter"
           inputFields := [{ name := "not", type := .named "Filter" },
             { name := "any", type := .list (.named "Clause") },
             { name := "by", type := .named "Status" }] },
    .add { kind := .inputObject, name := "Clause"
           inputFields := [{ name := "filter", type := .nonNull (.named "Filter") },
             { name := "currency", type := .named "Currency" },
             { name := "above", type := .named "Int" }] },
    .add orderQuery]

/-- The schema of orders. -/
def orderSchema : Schema := (Schema.initial.editAll orderEdits).withDefaultRoots

theorem validated_orderEdits : (Schema.initial.editAll orderEdits).validated = .ok orderSchema := by
  have hok : (Schema.initial.editAll orderEdits).validated.isOk = true := by decide +kernel
  cases h : (Schema.initial.editAll orderEdits).validated with
  | ok schema => rw [Schema.validated_eq h, orderSchema]
  | error e => rw [h] at hok; cases hok

/-- A filter, a selection that is dropped, and a fragment that is not spread. -/
def orderSource : Text :=
  Text.ofString "query Q($of: Filter) { status(of: $of) size @include(if: false) }" ++
    Text.ofString "fragment F on Query { paid ... @skip(if: true) { count } }"

theorem ofDocument_typesUsed_orders : ∃ d program,
    (Schema.initial.editAll orderEdits).validated = .ok orderSchema ∧
    Document.parse orderSource none 3 = .ok d ∧
    Program.ofDocument orderSchema d {} = .ok program ∧
    (∀ inner, orderSchema.useWith^[orderSchema.types.size + 1] inner = orderSchema.use) ∧
    program.typesUsed.Nodup ∧
    IsLeast {S | orderSchema.Covers {name | (prepared d {}).Asks orderSchema name} S}
      {name | name ∈ program.typesUsed} := by
  have hrun : ((Document.parse orderSource none 3).toOption.any fun d =>
      (Program.ofDocument orderSchema d {}).isOk) = true := by decide +kernel
  obtain ⟨d, hd, hok⟩ := (Option.any_eq_true _ _).mp hrun
  have hsound := ofDocument_typesUsed orderEdits validated_orderEdits d {}
  cases h : Program.ofDocument orderSchema d {} with
  | error e => rw [h] at hok; cases hok
  | ok program =>
    exact ⟨d, program, validated_orderEdits, Success.toOption_eq_some.mp hd, h, hsound.1,
      hsound.2 program h⟩

/-- A selection without anything but a name and a selection set. -/
def plainField (name : Text) (selections : List Document.Selection) : Document.Selection :=
  .field ⟨none, name, [], [], {}⟩ selections

/-- A query of a count, and of a size in the selection set of a type name. -/
def sizeBelowTypename : Document :=
  let sizes : Document.Selection := .inline ⟨some "Query", [], {}⟩ [plainField "size" []]
  { operations := [⟨.query, some "Q", [], [],
      [plainField "__typename" [sizes], plainField "count" []], {}, none⟩]
    fragments := []
    order := [.operation] }

theorem asks_sizeBelowTypename : sizeBelowTypename.Asks orderSchema "Size" := by
  have hroot : orderSchema.rootType? .query = some orderQuery := by decide +kernel
  have hstring : orderSchema.type? "String" = some { kind := .scalar, name := "String" } := by
    decide +kernel
  have hquery : orderSchema.type? "Query" = some orderQuery := by decide +kernel
  have hinside : Document.Declares orderSchema (orderField "size" "Size")
      { kind := .scalar, name := "String" } [.inline ⟨some "Query", [], {}⟩ [plainField "size" []]] :=
    .inlineOn (List.mem_singleton_self _) rfl hquery
      (.field (List.mem_singleton_self _) (by decide +kernel))
  have htypename : Schema.fieldDefinition orderQuery "__typename" =
      some Schema.typenameDefinition := by decide +kernel
  exact .operationField (List.mem_singleton_self _) hroot
    (.inside List.mem_cons_self htypename hstring hinside)

/-- Of what is left of that query only the count has a type, which is not listed. -/
theorem covers_prepared_sizeBelowTypename : orderSchema.Covers
    {name | (prepared sizeBelowTypename { addTypename := true }).Asks orderSchema name} ∅ := by
  have hroot : orderSchema.rootType? .query = some orderQuery := by decide +kernel
  have hint : orderSchema.type? "Int" = some { kind := .scalar, name := "Int" } := by
    decide +kernel
  have hcount : Schema.fieldDefinition orderQuery "count" = some (orderField "count" "Int") := by
    decide +kernel
  refine ⟨fun name hasks hlists => ?_, fun name hname => hname.elim⟩
  cases hasks with
  | variableType ho hv =>
    obtain rfl := List.mem_singleton.mp ho
    cases hv
  | operationField ho hr h =>
    obtain rfl := List.mem_singleton.mp ho
    cases hr.symm.trans hroot
    rcases (declares_field hcount hint).mp h with rfl | h
    · exact absurd ((Schema.lists_iff hint).mp hlists) (by decide)
    · exact absurd h not_declares_nil
  | fragmentField hf => cases hf

/-- **A field below a type name brings nothing into use** if type names are put in anew: its type is
asked for by the document, but it is not listed. -/
theorem not_covers_below_typename : ∃ program,
    (Schema.initial.editAll orderEdits).validated = .ok orderSchema ∧
    Program.ofDocument orderSchema sizeBelowTypename { addTypename := true } = .ok program ∧
    ¬ IsLeast {S | orderSchema.Covers {name | sizeBelowTypename.Asks orderSchema name} S}
      {name | name ∈ program.typesUsed} := by
  have hok : (Program.ofDocument orderSchema sizeBelowTypename { addTypename := true }).isOk =
      true := by decide +kernel
  have hsize : orderSchema.type? "Size" = some { kind := .enum, name := "Size" } := by
    decide +kernel
  cases h : Program.ofDocument orderSchema sizeBelowTypename { addTypename := true } with
  | error e => rw [h] at hok; cases hok
  | ok program =>
    refine ⟨program, validated_orderEdits, rfl, fun hleast => ?_⟩
    have hmem : Text.ofString "Size" ∈ program.typesUsed :=
      hleast.1.names _ asks_sizeBelowTypename ⟨_, hsize, .inl rfl⟩
    have hkeyed := (Schema.isKeyed_initial.editAll _).validated validated_orderEdits
    exact (Program.isLeast_typesUsed hkeyed h).2.2 covers_prepared_sizeBelowTypename hmem

end Typed

end QueryCompiler
