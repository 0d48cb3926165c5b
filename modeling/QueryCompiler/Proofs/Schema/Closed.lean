import QueryCompiler.Proofs.Success
import QueryCompiler.Schema.Edit
import Mathlib.Tactic.SplitIfs

/-!
# Valid schemas are closed

In a schema that is accepted every reference leads to a type of the schema that fits its place
(`IsClosed`), and a schema is accepted if that is so (`edit_validate_eq_ok`). Edits keep each type
under its own name and the built-in scalars in the schema (`IsKeyed.editAll`), whichever of them
fail. So questions for possible types have answers in the schema (`Answers`), and
`closed_of_edits` says all of this of a schema that is made by edits.
-/

namespace QueryCompiler.Schema

/-! ### References -/

/-- The kinds of types that fields may have. -/
def outputKinds : List TypeKind := [.scalar, .object, .interface, .union, .enum]

/-- The kinds of types that arguments, variables and the fields of input objects may have. -/
def inputKinds : List TypeKind := [.scalar, .enum, .inputObject]

/-- The kinds of types whose values have fields to select. -/
def compositeKinds : List TypeKind := [.object, .interface, .union]

/-- The schema has a type of the name, which is of one of the kinds. -/
def IsTypeOf (s : Schema) (kinds : List TypeKind) (name : Text) : Prop :=
  ∃ t, s.type? name = some t ∧ t.kind ∈ kinds

/-- **Every reference leads to a type of the schema that fits its place.** -/
structure IsClosed (s : Schema) : Prop where
  query : s.queryType ≠ none
  roots : ∀ o name, s.rootName? o = some name → s.IsTypeOf [.object] name
  fields : ∀ e ∈ s.types.entries, ∀ f ∈ e.2.fields, s.IsTypeOf outputKinds f.type.namedType
  args : ∀ e ∈ s.types.entries, ∀ f ∈ e.2.fields, ∀ a ∈ f.args,
    s.IsTypeOf inputKinds a.type.namedType
  inputFields : ∀ e ∈ s.types.entries, ∀ f ∈ e.2.inputFields,
    s.IsTypeOf inputKinds f.type.namedType
  interfaces : ∀ e ∈ s.types.entries, ∀ name ∈ e.2.interfaces, s.IsTypeOf [.interface] name
  members : ∀ e ∈ s.types.entries, ∀ name ∈ e.2.members, s.IsTypeOf [.object] name

section References
variable {s : Schema} {name : Text}

theorem hasKind_iff {kind : TypeKind} : s.hasKind kind name = true ↔ s.IsTypeOf [kind] name := by
  simp [hasKind, IsTypeOf, Option.any_eq_true]

theorem mem_inputKinds_iff {t : NamedType} : t.kind ∈ inputKinds ↔ t.isInput = true := by
  rw [NamedType.isInput, NamedType.isLeaf]
  cases t.kind <;> decide

theorem mem_outputKinds_iff {kind : TypeKind} : kind ∈ outputKinds ↔ kind ≠ .inputObject := by
  cases kind <;> decide

theorem mem_compositeKinds_iff {t : NamedType} : t.kind ∈ compositeKinds ↔ t.isComposite = true := by
  rw [NamedType.isComposite]
  cases t.kind <;> decide

theorem rootViolations_eq_nil {o : OperationType} : s.rootViolations o = [] ↔
    (o = .query → s.rootName? o ≠ none) ∧
      ∀ name, s.rootName? o = some name → s.IsTypeOf [.object] name := by
  rw [rootViolations]
  cases hname : s.rootName? o with
  | none => simp
  | some name =>
    simp only [← hasKind_iff]
    cases h : s.hasKind .object name <;> simp [h]

theorem outputViolations_eq_nil {type : TypeRef} {site : TypeSite} :
    s.outputViolations type site = [] ↔ s.IsTypeOf outputKinds type.namedType := by
  simp only [outputViolations, IsTypeOf, mem_outputKinds_iff]
  cases s.type? type.namedType with
  | none => simp
  | some t => simp

theorem inputViolations_eq_nil {type : TypeRef} {site : TypeSite} :
    s.inputViolations type site = [] ↔ s.IsTypeOf inputKinds type.namedType := by
  simp only [inputViolations, IsTypeOf, mem_inputKinds_iff]
  cases s.type? type.namedType with
  | none => simp
  | some t => simp

theorem fieldViolations_eq_nil {type : Text} {f : FieldDefinition} :
    s.fieldViolations type f = [] ↔ s.IsTypeOf outputKinds f.type.namedType ∧
      ∀ a ∈ f.args, s.IsTypeOf inputKinds a.type.namedType := by
  rw [fieldViolations, List.append_eq_nil_iff, List.flatMap_eq_nil_iff, outputViolations_eq_nil]
  simp only [inputViolations_eq_nil]

/-- The names of a list that are not of a kind are complained of one by one. -/
theorem complaints_eq_nil {kind : TypeKind} {names : List Text} {complaint : Text → SchemaError} :
    (names.filter fun name => !s.hasKind kind name).map complaint = [] ↔
      ∀ name ∈ names, s.IsTypeOf [kind] name := by
  simp only [List.map_eq_nil_iff, List.filter_eq_nil_iff, Bool.not_eq_true', Bool.not_eq_false,
    hasKind_iff]

theorem typeViolations_eq_nil {t : NamedType} : s.typeViolations name t = [] ↔
    ((((∀ f ∈ t.fields, s.IsTypeOf outputKinds f.type.namedType ∧
        ∀ a ∈ f.args, s.IsTypeOf inputKinds a.type.namedType) ∧
      ∀ f ∈ t.inputFields, s.IsTypeOf inputKinds f.type.namedType) ∧
      ∀ name ∈ t.interfaces, s.IsTypeOf [.interface] name) ∧
      ∀ name ∈ t.members, s.IsTypeOf [.object] name) := by
  rw [typeViolations, List.append_eq_nil_iff, List.append_eq_nil_iff, List.append_eq_nil_iff,
    complaints_eq_nil, complaints_eq_nil, List.flatMap_eq_nil_iff, List.flatMap_eq_nil_iff]
  simp only [fieldViolations_eq_nil, inputViolations_eq_nil]

/-- **Nothing is wrong with a schema exactly if it is closed.** -/
theorem violations_eq_nil : s.violations = [] ↔ s.IsClosed := by
  rw [violations, List.append_eq_nil_iff, List.flatMap_eq_nil_iff, List.flatMap_eq_nil_iff]
  simp only [rootViolations_eq_nil, typeViolations_eq_nil]
  constructor
  · rintro ⟨hroots, htypes⟩
    have hall : ∀ o : OperationType, o ∈ [OperationType.query, .mutation, .subscription] := by
      intro o
      cases o <;> decide
    exact {
      query := (hroots .query (hall _)).1 rfl
      roots := fun o => (hroots o (hall o)).2
      fields := fun e he f hf => ((htypes e he).1.1.1 f hf).1
      args := fun e he f hf => ((htypes e he).1.1.1 f hf).2
      inputFields := fun e he => (htypes e he).1.1.2
      interfaces := fun e he => (htypes e he).1.2
      members := fun e he => (htypes e he).2 }
  · intro h
    refine ⟨fun o _ => ⟨?_, h.roots o⟩, fun e he => ⟨⟨⟨fun f hf => ⟨h.fields e he f hf,
      h.args e he f hf⟩, h.inputFields e he⟩, h.interfaces e he⟩, h.members e he⟩⟩
    rintro rfl
    exact h.query

/-- A schema is accepted if it is closed with its default roots, and it is that schema then. -/
theorem validated_eq_ok {s' : Schema} :
    s.validated = .ok s' ↔ s' = s.withDefaultRoots ∧ s.withDefaultRoots.IsClosed := by
  rw [← violations_eq_nil, validated]
  cases hv : s.withDefaultRoots.violations with
  | nil => simp [eq_comm]
  | cons e rest => simp

/-- **A validation succeeds exactly if the schema is closed with its default roots.** -/
theorem edit_validate_eq_ok :
    (s.edit .validate).2 = .ok () ↔ s.withDefaultRoots.IsClosed := by
  rw [edit]
  cases h : s.validated with
  | ok s' => exact iff_of_true rfl (validated_eq_ok.mp h).2
  | error e =>
    refine iff_of_false (fun h => by cases h) fun hclosed => ?_
    rw [validated_eq_ok.mpr ⟨rfl, hclosed⟩] at h
    cases h

end References

/-! ### Types and their names -/

/-- **Types stand under their own names**, and those of the built-in scalars are there. -/
structure IsKeyed (s : Schema) : Prop where
  name_eq : ∀ e ∈ s.types.entries, e.2.name = e.1
  builtIn : ∀ name ∈ builtInNames, name ∈ s.types.keys

theorem isKeyed_initial : initial.IsKeyed := by
  constructor <;> decide +kernel

section Keys
variable {s s' : Schema} {t : NamedType} {name : Text}

theorem IsKeyed.name_eq_of_type? (h : s.IsKeyed) (ht : s.type? name = some t) : t.name = name :=
  h.name_eq (name, t) (OrderedMap.mem_of_find? ht)

/-- Only the types of a schema matter. -/
theorem IsKeyed.of_types_eq (h : s.IsKeyed) (ht : s'.types = s.types) : s'.IsKeyed := by
  refine ⟨fun e he => h.name_eq e ?_, fun name hname => ?_⟩
  · rwa [ht] at he
  · rw [ht]
    exact h.builtIn name hname

theorem add_eq_ok (h : s.add t = .ok s') : s' = { s with types := s.types.assign t.name t } := by
  rw [add] at h
  split_ifs at h
  exact (Except.ok.inj h).symm

/-- A type that is added stands under its own name, and takes no other type away. -/
theorem IsKeyed.assign (h : s.IsKeyed) (t : NamedType) :
    IsKeyed { s with types := s.types.assign t.name t } := by
  refine ⟨fun e he => ?_, fun name hname => ?_⟩
  · have hfind := OrderedMap.find?_of_mem he
    rw [OrderedMap.find?_assign] at hfind
    split_ifs at hfind with hname
    · rw [hname, Option.some.inj hfind]
    · exact h.name_eq e (OrderedMap.mem_of_find? hfind)
  · exact OrderedMap.mem_keys_assign (h.builtIn name hname) t.name t

/-- An edit keeps types under their own names, whether it fails or not. -/
theorem IsKeyed.edit (h : s.IsKeyed) (e : Edit) : (s.edit e).1.IsKeyed := by
  cases e with
  | add t =>
    rw [Schema.edit]
    cases ht : s.add t with
    | ok s' =>
      rw [add_eq_ok ht]
      exact h.assign t
    | error e => exact h
  | setRoot operation name => exact h.of_types_eq (by cases operation <;> rfl)
  | validate =>
    rw [edit_validate]
    exact h.of_types_eq rfl

/-- **Edits keep types under their own names.** -/
theorem IsKeyed.editAll (h : s.IsKeyed) (edits : List Edit) : (s.editAll edits).IsKeyed := by
  induction edits generalizing s with
  | nil => exact h
  | cons e edits ih => exact ih (h.edit e)

/-- So does a validation that succeeds. -/
theorem IsKeyed.validated (h : s.IsKeyed) (hs : s.validated = .ok s') : s'.IsKeyed :=
  h.of_types_eq (by rw [validated_eq hs]; rfl)

/-- Types under their own names have distinct names. -/
theorem IsKeyed.nodup_names (h : s.IsKeyed) : (s.types.entries.map fun e => e.2.name).Nodup := by
  rw [List.map_congr_left h.name_eq]
  exact s.types.nodup_keys

end Keys

/-! ### Possible types -/

/-- **Questions for possible types have answers in the schema**: they are answered for composite types
and no others, by object types of the schema, and for an interface by all objects that implement it, in
the order of the schema. -/
structure Answers (s : Schema) : Prop where
  answered : ∀ name, (∃ types, s.possibleTypes name = .ok types) ↔ s.IsTypeOf compositeKinds name
  objects : ∀ name types, s.possibleTypes name = .ok types → ∀ t ∈ types, s.IsTypeOf [.object] t
  implementers : ∀ name, s.IsTypeOf [.interface] name → ∃ types, s.possibleTypes name = .ok types ∧
    types.Sublist s.types.keys ∧ ∀ t, t ∈ types ↔
      ∃ type, s.type? t = some type ∧ type.kind = .object ∧ name ∈ type.interfaces

section Possible
variable {s : Schema} {name : Text} {types : List Text}

theorem possibleTypes_eq_ok : s.possibleTypes name = .ok types ↔
    ∃ t, s.type? name = some t ∧ t.isComposite = true ∧ s.possibleTypesOf t = types := by
  rw [possibleTypes, typeNamed]
  cases s.type? name with
  | none => exact iff_of_false (fun h => by cases h) fun ⟨t, h, _⟩ => by cases h
  | some t =>
    show (if t.isComposite = true then Except.ok (s.possibleTypesOf t) else .error _) = _ ↔ _
    split_ifs with hc <;> simp [hc]

theorem implementers_sublist : (s.implementers name).Sublist s.types.keys :=
  (List.filter_sublist).map Prod.fst

theorem mem_implementers {t : Text} : t ∈ s.implementers name ↔
    ∃ type, s.type? t = some type ∧ type.kind = .object ∧ name ∈ type.interfaces := by
  simp only [implementers, List.mem_map, List.mem_filter, Bool.and_eq_true, beq_iff_eq,
    List.contains_iff_mem]
  constructor
  · rintro ⟨e, ⟨he, hkind, hname⟩, rfl⟩
    exact ⟨e.2, OrderedMap.find?_of_mem he, hkind, hname⟩
  · rintro ⟨type, ht, hkind, hname⟩
    exact ⟨(t, type), ⟨OrderedMap.mem_of_find? ht, hkind, hname⟩, rfl⟩

/-- **A closed schema whose types stand under their own names answers questions.** -/
theorem IsClosed.answers (h : s.IsClosed) (hkeyed : s.IsKeyed) : s.Answers := by
  refine ⟨fun name => ?_, fun name types htypes t ht => ?_, fun name hname => ?_⟩
  · simp only [possibleTypes_eq_ok, IsTypeOf, mem_compositeKinds_iff]
    exact ⟨fun ⟨types, t, ht, hc, _⟩ => ⟨t, ht, hc⟩, fun ⟨t, ht, hc⟩ => ⟨_, t, ht, hc, rfl⟩⟩
  · obtain ⟨type, htype, -, rfl⟩ := possibleTypes_eq_ok.mp htypes
    rw [possibleTypesOf] at ht
    split at ht
    case h_1 hkind =>
      obtain rfl := List.mem_singleton.mp ht
      rw [hkeyed.name_eq_of_type? htype]
      exact ⟨type, htype, List.mem_singleton.mpr hkind⟩
    case h_2 hkind => exact h.members _ (OrderedMap.mem_of_find? htype) t ht
    case h_3 hkind =>
      obtain ⟨object, hobject, hkind, -⟩ := mem_implementers.mp ht
      exact ⟨object, hobject, List.mem_singleton.mpr hkind⟩
    case h_4 => cases ht
  · obtain ⟨type, htype, hkind⟩ := hname
    have hkind : type.kind = .interface := List.mem_singleton.mp hkind
    refine ⟨s.implementers name, possibleTypes_eq_ok.mpr ⟨type, htype, ?_, ?_⟩,
      implementers_sublist, fun t => mem_implementers⟩
    · rw [← mem_compositeKinds_iff, hkind]
      decide
    · rw [possibleTypesOf, hkind, hkeyed.name_eq_of_type? htype]

end Possible

/-! ### Schemas that are made by edits -/

/-- **A schema that is accepted is closed**, however it has been made: whichever types were added, roots
named and validations tried before, with success or without. Its types stand under their own names,
those of the built-in scalars are among them, and no two have one name; and questions for possible types
have answers in it. A validation of any schema succeeds exactly if the schema is closed with its default
roots. -/
theorem closed_of_edits (edits : List Edit) :
    (∀ s, (initial.editAll edits).edit .validate = (s, .ok ()) →
      s.IsClosed ∧ s.IsKeyed ∧ (s.types.entries.map fun e => e.2.name).Nodup ∧ s.Answers) ∧
    ∀ s : Schema, (s.edit .validate).2 = .ok () ↔ s.withDefaultRoots.IsClosed := by
  refine ⟨fun s h => ?_, fun s => edit_validate_eq_ok⟩
  have hkeyed : s.IsKeyed := by
    have hall := isKeyed_initial.editAll (edits ++ [.validate])
    rwa [editAll_append, editAll_cons, editAll_nil, h] at hall
  have hclosed : s.IsClosed := by
    have hdefault : s = (initial.editAll edits).withDefaultRoots := by rw [← edit_validate, h]
    rw [hdefault]
    exact edit_validate_eq_ok.mp (by rw [h])
  exact ⟨hclosed, hkeyed, hkeyed.nodup_names, hclosed.answers hkeyed⟩

/-- Shapes and ways to ask for them. A validation fails for want of a query root, one for want of the
shapes, and one since a root is a union; one type has the name of another. -/
def shapeEdits : List Edit :=
  let area : FieldDefinition := { name := "area", type := .named "Float" }
  let like : InputValueDefinition := { name := "like", type := .nonNull (.named "Filter") }
  [.validate,
    .add { kind := .object, name := "Query"
           fields := [{ name := "shapes", args := [like], type := .list (.named "Shape") }] },
    .validate,
    .add { kind := .object, name := "Disc", interfaces := ["Shape"], fields := [area] },
    .add { kind := .interface, name := "Shape", fields := [area] },
    .add { kind := .scalar, name := "Shape" },
    .add { kind := .union, name := "Round", members := ["Disc"] },
    .add { kind := .object, name := "Square", interfaces := ["Shape"], fields := [area] },
    .add { kind := .inputObject, name := "Filter"
           inputFields := [{ name := "not", type := .named "Filter" }] },
    .add { kind := .scalar, name := "ID", description := some "A number." },
    .setRoot .mutation "Round",
    .validate,
    .setRoot .mutation "Square"]

theorem closed_of_edits_shapes : ∃ s,
    (initial.editAll shapeEdits).edit .validate = (s, .ok ()) ∧
      (s.IsClosed ∧ s.IsKeyed ∧ (s.types.entries.map fun e => e.2.name).Nodup ∧ s.Answers) ∧
      s.possibleTypes "Shape" = .ok ["Disc", "Square"] := by
  have hok : ((initial.editAll shapeEdits).edit .validate).2 = .ok () :=
    Success.toOption_eq_some.mp (by decide +kernel)
  exact ⟨_, Prod.ext rfl hok, (closed_of_edits shapeEdits).1 _ (Prod.ext rfl hok),
    Success.toOption_eq_some.mp (by decide +kernel)⟩

end QueryCompiler.Schema
