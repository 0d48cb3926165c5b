import QueryCompiler.Proofs.Schema.Introspected
import QueryCompiler.Proofs.Schema.Readable

/-!
# Definitions and introspection results give one schema

A schema that is written as definitions and the same schema as an introspection result are read alike
(`ofDefinitions_eq_ofIntrospection`): both are refused with one error, or both give one schema. The
two readers name the root types at different times, the one in front of all types and the other after
them, so what is shown of a schema's types in between is that they are added whatever the roots are
(`foldlM_add_withRoots`).
-/

namespace QueryCompiler.Schema

/-! ### Types and root types -/

theorem add_setRoot (s : Schema) (o : OperationType) (name : Text) (t : NamedType) :
    (s.setRoot o name).add t = (s.add t).map fun s => s.setRoot o name := by
  have htypes : (s.setRoot o name).types = s.types := by cases o <;> rfl
  rw [add, add, htypes]
  split_ifs
  · rfl
  · rfl
  · rfl
  · cases o <;> rfl

theorem add_foldl_setRoot (t : NamedType) : ∀ (chosen : List (OperationType × Text)) (s : Schema),
    (chosen.foldl (fun s root => s.setRoot root.1 root.2) s).add t =
      (s.add t).map fun s => chosen.foldl (fun s root => s.setRoot root.1 root.2) s
  | [], s => by
    rw [List.foldl_nil]
    cases s.add t <;> rfl
  | root :: chosen, s => by
    rw [List.foldl_cons, add_foldl_setRoot t chosen, add_setRoot]
    cases s.add t <;> rfl

/-- **Types are added to a schema whatever its root types are.** -/
theorem foldlM_add_withRoots (roots : OperationType → Option Text) (types : List NamedType)
    (s : Schema) :
    types.foldlM add (withRoots roots s) = (types.foldlM add s).map (withRoots roots) := by
  induction types generalizing s with
  | nil => rfl
  | cons t types ih =>
    have hadd : (withRoots roots s).add t = (s.add t).map (withRoots roots) :=
      add_foldl_setRoot t (rootList roots) s
    rw [List.foldlM_cons, List.foldlM_cons, hadd]
    cases s.add t with
    | error e => rfl
    | ok s' => exact ih s'

theorem rootList_ne_nil {roots : OperationType → Option Text} {o : OperationType} {name : Text}
    (h : roots o = some name) : rootList roots ≠ [] := by
  have hmem : (o, name) ∈ rootList roots :=
    List.mem_filterMap.mpr ⟨o, by cases o <;> decide, by rw [h]; rfl⟩
  exact List.ne_nil_of_mem hmem

/-! ### Both readers -/

/-- **The two ways to load a schema agree.** For types that can be written and a choice of root types,
at least one of them, the text of the schema and its introspection result, bare or under `data` and with
or without the types of introspection, are refused with one error or give one schema: the same types in
the same order with all their parts, and the same root types. Names of types may repeat. -/
theorem ofDefinitions_eq_ofIntrospection {types : List NamedType}
    {roots : OperationType → Option Text} (htypes : ∀ t ∈ types, t.IsStandard)
    (hroots : RootsNamed roots) (hsome : ∃ o name, roots o = some name) {listed : List Json}
    (hlisted : Introspected.Lists types listed) (directives : Json) (bare : Bool) :
    ofDefinitions (text roots types) =
      (ofIntrospection (Introspected.answer bare
        (Introspected.result roots listed directives))).mapError .schema := by
  obtain ⟨o, name, hroot⟩ := hsome
  rw [ofDefinitions_text hroots (rootList_ne_nil hroot) htypes,
    ofIntrospection_result htypes hlisted, foldlM_add_withRoots]

/-- A deprecated field with an argument that has a default. -/
def moodsField : FieldDefinition where
  name := "moods"
  args := [{ name := "most", type := .named "Int", defaultValue := some "-1" }]
  type := .list (.nonNull (.named "Mood"))
  isDeprecated := true
  deprecationReason := some "Moods change."

/-- A query with a description, and an enum whose values have one or not. -/
def moodTypes : List NamedType :=
  [{ kind := .object, name := "Query", description := some "What may be asked.",
     fields := [moodsField] },
   { kind := .enum, name := "Mood",
     enumValues := [{ name := "GOOD", description := some "\"good\"" }, { name := "BAD" }] }]

/-- The choice of a query root. -/
def moodRoots : OperationType → Option Text
  | .query => some "Query"
  | _ => none

/-- An object type without members that are asked for. -/
def bareType (name : Text) : Json := .ofMembers [("kind", .string "OBJECT"), ("name", .string name)]

/-- The types, between two of introspection. -/
def moodListed : List Json :=
  [bareType "__Schema"] ++ (moodTypes.map (Introspected.namedType moodTypes) ++ [bareType "__Type"])

theorem isStandard_moodsField : moodsField.IsStandard where
  name := by decide
  description := by decide
  args := by
    have hscan : Token.int "-1" ∈ (Scan.scan "-1").tokens := by decide +kernel
    have hdefault : ∀ t : Text, some ("-1" : Text) = some t → ∃ value : Document.Value,
        value.Fits true nestingLimit ∧ AreSpelled (value.tokens id) ∧ value.text = t := by
      rintro _ ⟨⟩
      exact ⟨.int "-1", trivial, List.forall_mem_singleton.mpr (Scan.isSpelled_of_mem hscan), rfl⟩
    exact List.forall_mem_singleton.mpr ⟨by decide, by decide, ⟨by decide, trivial⟩, hdefault⟩
  type := ⟨by decide, rfl, trivial⟩
  deprecated := rfl
  reason := by decide +kernel

theorem isStandard_moodTypes : ∀ t ∈ moodTypes, t.IsStandard := by
  refine List.forall_mem_cons.mpr ⟨?_, List.forall_mem_singleton.mpr ?_⟩
  · exact {
      name := by decide
      unreserved := by decide
      description := by decide +kernel
      fields := List.forall_mem_singleton.mpr isStandard_moodsField
      interfaces := List.forall_mem_nil _
      members := List.forall_mem_nil _
      enumValues := List.forall_mem_nil _
      inputFields := List.forall_mem_nil _
      objectParts := fun h => absurd rfl h
      unionParts := fun _ => rfl
      enumParts := fun _ => rfl
      inputParts := fun _ => rfl }
  · have hgood : EnumValueDefinition.IsStandard { name := "GOOD", description := some "\"good\"" } :=
      ⟨by decide, by decide, by decide +kernel, rfl, by decide⟩
    have hbad : EnumValueDefinition.IsStandard { name := "BAD" } :=
      ⟨by decide, by decide, by decide, rfl, by decide⟩
    exact {
      name := by decide
      unreserved := by decide
      description := by decide
      fields := List.forall_mem_nil _
      interfaces := List.forall_mem_nil _
      members := List.forall_mem_nil _
      enumValues := List.forall_mem_cons.mpr ⟨hgood, List.forall_mem_singleton.mpr hbad⟩
      inputFields := List.forall_mem_nil _
      objectParts := fun _ _ => ⟨rfl, rfl⟩
      unionParts := fun _ => rfl
      enumParts := fun h => absurd rfl h
      inputParts := fun _ => rfl }

theorem ofDefinitions_eq_ofIntrospection_moods : (∀ t ∈ moodTypes, t.IsStandard) ∧
    RootsNamed moodRoots ∧ (∃ o name, moodRoots o = some name) ∧
    Introspected.Lists moodTypes moodListed ∧
    ofDefinitions (text moodRoots moodTypes) = (ofIntrospection (Introspected.answer false
      (Introspected.result moodRoots moodListed .null))).mapError .schema ∧
    (ofDefinitions (text moodRoots moodTypes)).toOption.isSome = true := by
  have hroots : RootsNamed moodRoots := by
    intro o name h
    cases o with
    | query =>
      cases h
      decide
    | mutation => cases h
    | subscription => cases h
  have hsome : ∃ o name, moodRoots o = some name := ⟨.query, _, rfl⟩
  have hlisted : Introspected.Lists moodTypes moodListed :=
    Introspection.lists_append isStandard_moodTypes (List.forall_mem_singleton.mpr (by decide))
      (List.forall_mem_singleton.mpr (by decide))
  exact ⟨isStandard_moodTypes, hroots, hsome, hlisted,
    ofDefinitions_eq_ofIntrospection isStandard_moodTypes hroots hsome hlisted .null false,
    by decide +kernel⟩

end QueryCompiler.Schema
