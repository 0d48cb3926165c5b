import QueryCompiler.Proofs.Json.Members
import QueryCompiler.Proofs.Schema.Written
import QueryCompiler.Proofs.Success
import QueryCompiler.Schema.Introspection

/-!
# Introspection results

What the standard introspection query answers for a schema: its types with all members that the query
asks for, where lists that a kind of type does not have are `null`, and references to types by kind and
name. Types of introspection itself may stand anywhere among them.

* `Introspected.typeRef`, `Introspected.namedType`, `Introspected.result`: the parts of such an answer.
* `Introspection.namedType_introspected`: a type is read from its part.
* `ofIntrospection_result`: the schema of an answer, bare or under `data`.
-/

namespace QueryCompiler.Schema

/-! ### Answers -/

namespace Introspected

/-- A text, or `null` if there is none. -/
def textOrNull (text : Option Text) : Json := text.elim .null .string

/-- The kind of a type among some types; a name of none of them is that of a built-in scalar. -/
def kindIn (types : List NamedType) (name : Text) : TypeKind :=
  (types.find? fun t => t.name == name).elim .scalar NamedType.kind

/-- The object types that implement an interface, among some types. -/
def implementersIn (types : List NamedType) (name : Text) : List Text :=
  (types.filter fun t => t.kind == .object && t.interfaces.contains name).map NamedType.name

section
variable (types : List NamedType)

/-- A reference to a type by its kind and its name. -/
def namedRef (name : Text) : Json :=
  .ofMembers [("kind", .string (kindIn types name).text), ("name", .string name), ("ofType", .null)]

/-- A wrapping of a type. -/
def wrapped (kind : Text) (inner : Json) : Json :=
  .ofMembers [("kind", .string kind), ("name", .null), ("ofType", inner)]

/-- A reference to a type. -/
def typeRef : TypeRef → Json
  | .named name => namedRef types name
  | .list inner => wrapped "LIST" (typeRef inner)
  | .nonNull inner => wrapped "NON_NULL" (typeRef inner)

/-- An argument or a field of an input object. -/
def inputValue (v : InputValueDefinition) : Json :=
  .ofMembers [("name", .string v.name), ("description", textOrNull v.description),
    ("type", typeRef types v.type), ("defaultValue", textOrNull v.defaultValue)]

/-- A field of an object or interface. -/
def field (f : FieldDefinition) : Json :=
  .ofMembers [("name", .string f.name), ("description", textOrNull f.description),
    ("args", .array (f.args.map (inputValue types))), ("type", typeRef types f.type),
    ("isDeprecated", .bool f.isDeprecated), ("deprecationReason", textOrNull f.deprecationReason)]

/-- A value of an enum. -/
def enumValue (v : EnumValueDefinition) : Json :=
  .ofMembers [("name", .string v.name), ("description", textOrNull v.description),
    ("isDeprecated", .bool v.isDeprecated), ("deprecationReason", textOrNull v.deprecationReason)]

/-- Parts that a type of some kinds has, or `null` for a type of any other kind. -/
def partsOf (kinds : List TypeKind) (kind : TypeKind) (parts : List Json) : Json :=
  if kind ∈ kinds then .array parts else .null

/-- The object types that a type may stand for. -/
def possibleNames (t : NamedType) : List Text :=
  if t.kind = .union then t.members else implementersIn types t.name

/-- A type. -/
def namedType (t : NamedType) : Json :=
  .ofMembers [("kind", .string t.kind.text), ("name", .string t.name),
    ("description", textOrNull t.description),
    ("fields", partsOf [.object, .interface] t.kind (t.fields.map (field types))),
    ("inputFields", partsOf [.inputObject] t.kind (t.inputFields.map (inputValue types))),
    ("interfaces", partsOf [.object, .interface] t.kind (t.interfaces.map (namedRef types))),
    ("enumValues", partsOf [.enum] t.kind (t.enumValues.map enumValue)),
    ("possibleTypes",
      partsOf [.union, .interface] t.kind ((possibleNames types t).map (namedRef types)))]

end

/-- A root type, or `null` if there is none. -/
def rootType (name : Option Text) : Json :=
  name.elim .null fun name => .ofMembers [("name", .string name)]

/-- The schema of an answer, with its types as they are listed and whatever is said of directives. -/
def result (roots : OperationType → Option Text) (listed : List Json) (directives : Json) : Json :=
  .ofMembers [("queryType", rootType (roots .query)), ("mutationType", rootType (roots .mutation)),
    ("subscriptionType", rootType (roots .subscription)), ("types", .array listed),
    ("directives", directives)]

/-- The value is a type of introspection itself. -/
def isReserved (j : Json) : Bool := (j.memberText "name").toOption.any reservedStart.isPrefixOf

/-- **The values list the types** in their order, with types of introspection among them. -/
def Lists (types : List NamedType) (listed : List Json) : Prop :=
  listed.filter (fun j => !isReserved j) = types.map (namedType types)

/-- An answer, bare or under `data`. -/
def answer (bare : Bool) (result : Json) : Json :=
  if bare then .ofMembers [("__schema", result)]
  else .ofMembers [("data", .ofMembers [("__schema", result)])]

end Introspected

/-! ### Reading answers -/

namespace Introspection

open Introspected (textOrNull kindIn namedRef wrapped partsOf)
open Json (member_eq_ok memberText_of)

/-- A member that is a text or `null`. -/
theorem memberText?_textOrNull {j : Json} {key : Text} {text : Option Text}
    (h : j.member? key = some (textOrNull text)) : j.memberText? key = .ok text := by
  rw [Json.memberText?, h]
  cases text <;> rfl

theorem typeRef_named (types : List NamedType) (name : Text) :
    typeRef (namedRef types name) = .ok (.named name) := by
  have hkind : (namedRef types name).memberText "kind" = .ok (kindIn types name).text :=
    memberText_of (by simp +decide [namedRef])
  have hname : (namedRef types name).memberText "name" = .ok name :=
    memberText_of (by simp +decide [namedRef])
  have hnot : (kindIn types name).text ≠ "NON_NULL" ∧ (kindIn types name).text ≠ "LIST" := by
    cases kindIn types name <;> decide
  rw [typeRef, hkind]
  show (if (kindIn types name).text = "NON_NULL" then _ else _) = _
  rw [if_neg hnot.1, if_neg hnot.2, hname]
  rfl

theorem typeRef_list {j inner : Json} (hkind : j.memberText "kind" = .ok "LIST")
    (hinner : j.member "ofType" = .ok inner) : typeRef j = (typeRef inner).map .list := by
  rw [typeRef, hkind]
  simp only [bind, Except.bind]
  rw [if_neg (by decide), if_pos trivial]
  split
  · rename_i e he
    cases hinner.symm.trans he
  · rename_i inner' hinner'
    cases hinner.symm.trans hinner'
    cases typeRef inner <;> rfl

theorem typeRef_nonNull {j inner : Json} (hkind : j.memberText "kind" = .ok "NON_NULL")
    (hinner : j.member "ofType" = .ok inner) : typeRef j = (typeRef inner).map .nonNull := by
  rw [typeRef, hkind]
  simp only [bind, Except.bind]
  rw [if_pos trivial]
  split
  · rename_i e he
    cases hinner.symm.trans he
  · rename_i inner' hinner'
    cases hinner.symm.trans hinner'
    cases typeRef inner <;> rfl

theorem wrapped_kind (kind : Text) (inner : Json) :
    (wrapped kind inner).memberText "kind" = .ok kind :=
  memberText_of (by simp +decide [wrapped])

theorem wrapped_ofType (kind : Text) (inner : Json) :
    (wrapped kind inner).member "ofType" = .ok inner :=
  member_eq_ok.mpr (by simp +decide [wrapped])

/-- **A reference to a type is read back.** -/
theorem typeRef_introspected (types : List NamedType) : ∀ type : TypeRef,
    typeRef (Introspected.typeRef types type) = .ok type
  | .named name => typeRef_named types name
  | .list inner => by
    rw [Introspected.typeRef, typeRef_list (wrapped_kind _ _) (wrapped_ofType _ _),
      typeRef_introspected types inner]
    rfl
  | .nonNull inner => by
    rw [Introspected.typeRef, typeRef_nonNull (wrapped_kind _ _) (wrapped_ofType _ _),
      typeRef_introspected types inner]
    rfl

theorem flagAt_bool {j : Json} {key : Text} {b : Bool} (h : j.member? key = some (.bool b)) :
    flagAt j key = .ok b := by
  rw [flagAt, h]
  rfl

theorem arrayAt_array {j : Json} {key : Text} {values : List Json}
    (h : j.member? key = some (.array values)) : arrayAt j key = values := by
  rw [arrayAt, h]

section
variable (types : List NamedType)

/-- **An argument or a field of an input object is read back.** -/
theorem inputValue_introspected (v : InputValueDefinition) :
    inputValue (Introspected.inputValue types v) = .ok v := by
  have hname : (Introspected.inputValue types v).memberText "name" = .ok v.name :=
    memberText_of (by simp +decide [Introspected.inputValue])
  have hdescription :
      (Introspected.inputValue types v).memberText? "description" = .ok v.description :=
    memberText?_textOrNull (by simp +decide [Introspected.inputValue])
  have htype :
      (Introspected.inputValue types v).member "type" = .ok (Introspected.typeRef types v.type) :=
    member_eq_ok.mpr (by simp +decide [Introspected.inputValue])
  have hdefault :
      (Introspected.inputValue types v).memberText? "defaultValue" = .ok v.defaultValue :=
    memberText?_textOrNull (by simp +decide [Introspected.inputValue])
  rw [inputValue, hname, hdescription, htype, hdefault]
  show (typeRef (Introspected.typeRef types v.type)).bind _ = _
  rw [typeRef_introspected]
  rfl

/-- **A field is read back.** -/
theorem fieldDefinition_introspected (f : FieldDefinition) :
    fieldDefinition (Introspected.field types f) = .ok f := by
  have hname : (Introspected.field types f).memberText "name" = .ok f.name :=
    memberText_of (by simp +decide [Introspected.field])
  have hdescription : (Introspected.field types f).memberText? "description" = .ok f.description :=
    memberText?_textOrNull (by simp +decide [Introspected.field])
  have htype : (Introspected.field types f).member "type" = .ok (Introspected.typeRef types f.type) :=
    member_eq_ok.mpr (by simp +decide [Introspected.field])
  have hdeprecated : flagAt (Introspected.field types f) "isDeprecated" = .ok f.isDeprecated :=
    flagAt_bool (by simp +decide [Introspected.field])
  have hreason :
      (Introspected.field types f).memberText? "deprecationReason" = .ok f.deprecationReason :=
    memberText?_textOrNull (by simp +decide [Introspected.field])
  have hargs :
      arrayAt (Introspected.field types f) "args" = f.args.map (Introspected.inputValue types) :=
    arrayAt_array (by simp +decide [Introspected.field])
  rw [fieldDefinition, hname, hdescription, htype, hdeprecated, hreason, hargs,
    Success.mapM_of_inverse fun v _ => inputValue_introspected types v]
  show (typeRef (Introspected.typeRef types f.type)).bind _ = _
  rw [typeRef_introspected]
  rfl

/-- **A value of an enum is read back.** -/
theorem enumValue_introspected (v : EnumValueDefinition) :
    enumValue (Introspected.enumValue v) = .ok v := by
  have hname : (Introspected.enumValue v).memberText "name" = .ok v.name :=
    memberText_of (by simp +decide [Introspected.enumValue])
  have hdescription : (Introspected.enumValue v).memberText? "description" = .ok v.description :=
    memberText?_textOrNull (by simp +decide [Introspected.enumValue])
  have hdeprecated : flagAt (Introspected.enumValue v) "isDeprecated" = .ok v.isDeprecated :=
    flagAt_bool (by simp +decide [Introspected.enumValue])
  have hreason :
      (Introspected.enumValue v).memberText? "deprecationReason" = .ok v.deprecationReason :=
    memberText?_textOrNull (by simp +decide [Introspected.enumValue])
  rw [enumValue, hname, hdescription, hdeprecated, hreason]
  rfl

/-! ### Types -/

/-- Parts that only types of some kinds have are read as an array for any type. -/
theorem arrayAt_parts {α : Type} {j : Json} {key : Text} {kinds : List TypeKind} {kind : TypeKind}
    {parts : List α} {write : α → Json} (hnone : kind ∉ kinds → parts = [])
    (h : j.member? key = some (partsOf kinds kind (parts.map write))) :
    arrayAt j key = parts.map write := by
  rw [partsOf] at h
  split_ifs at h with hkind
  · exact arrayAt_array h
  · rw [arrayAt, h, hnone hkind, List.map_nil]

theorem namesAt_parts {j : Json} {key : Text} {kinds : List TypeKind} {kind : TypeKind}
    {names : List Text} (hnone : kind ∉ kinds → names = [])
    (h : j.member? key = some (partsOf kinds kind (names.map (namedRef types)))) :
    namesAt j key = .ok names := by
  have hname : ∀ name ∈ names, (namedRef types name).memberText "name" = .ok name := fun name _ =>
    memberText_of (by simp +decide [namedRef])
  rw [partsOf] at h
  split_ifs at h with hkind
  · rw [namesAt, h]
    exact Success.mapM_of_inverse hname
  · rw [namesAt, h, hnone hkind]
    rfl

theorem kindOf?_text (kind : TypeKind) : kindOf? kind.text = some kind := by
  cases kind <;> decide

variable {t : NamedType}

theorem members_introspected (hkind : t.kind = .union) :
    namesAt (Introspected.namedType types t) "possibleTypes" = .ok t.members := by
  have hpossible : (Introspected.namedType types t).member? "possibleTypes" =
      some (partsOf [.union, .interface] t.kind (t.members.map (namedRef types))) := by
    simp +decide [Introspected.namedType, Introspected.possibleNames, hkind]
  exact namesAt_parts types (fun hnot => absurd (hkind ▸ List.mem_cons_self) hnot) hpossible

theorem kind_introspected (t : NamedType) :
    (Introspected.namedType types t).memberText "kind" = .ok t.kind.text :=
  memberText_of (by simp +decide [Introspected.namedType])

theorem name_introspected (t : NamedType) :
    (Introspected.namedType types t).memberText "name" = .ok t.name :=
  memberText_of (by simp +decide [Introspected.namedType])

/-- The parts of a type that are not those of its kind are `null`, and it has none of them. -/
theorem namedTypeOf_introspected (h : t.IsStandard) :
    namedTypeOf t.kind (Introspected.namedType types t) = .ok t := by
  have hobject : t.kind ∉ [TypeKind.object, .interface] → t.fields = [] ∧ t.interfaces = [] := by
    simpa using h.objectParts
  have hinput : t.kind ∉ [TypeKind.inputObject] → t.inputFields = [] := by
    simpa using h.inputParts
  have henum : t.kind ∉ [TypeKind.enum] → t.enumValues = [] := by simpa using h.enumParts
  have hdescription : (Introspected.namedType types t).memberText? "description" = .ok t.description :=
    memberText?_textOrNull (by simp +decide [Introspected.namedType])
  have hfields : arrayAt (Introspected.namedType types t) "fields" =
      t.fields.map (Introspected.field types) :=
    arrayAt_parts (fun hnot => (hobject hnot).1) (by simp +decide [Introspected.namedType])
  have hinputs : arrayAt (Introspected.namedType types t) "inputFields" =
      t.inputFields.map (Introspected.inputValue types) :=
    arrayAt_parts hinput (by simp +decide [Introspected.namedType])
  have hvalues : arrayAt (Introspected.namedType types t) "enumValues" =
      t.enumValues.map Introspected.enumValue :=
    arrayAt_parts henum (by simp +decide [Introspected.namedType])
  have hinterfaces : namesAt (Introspected.namedType types t) "interfaces" = .ok t.interfaces :=
    namesAt_parts types (fun hnot => (hobject hnot).2) (by simp +decide [Introspected.namedType])
  rw [namedTypeOf, name_introspected, hdescription, hfields, hinputs, hvalues, hinterfaces,
    Success.mapM_of_inverse fun f _ => fieldDefinition_introspected types f,
    Success.mapM_of_inverse fun f _ => inputValue_introspected types f,
    Success.mapM_of_inverse fun v _ => enumValue_introspected v]
  dsimp only [bind, Except.bind, pure, Except.pure]
  by_cases hkind : t.kind = .union
  · rw [if_pos hkind, members_introspected types hkind]
  · rw [if_neg hkind]
    show Except.ok { t with members := [] } = _
    rw [← h.unionParts hkind]

/-- **A type that can be written is read back**, with the parts of its kind. -/
theorem namedType_introspected (h : t.IsStandard) :
    namedType (Introspected.namedType types t) = .ok t := by
  rw [namedType, kind_introspected]
  simp only [shaped, Except.mapError, bind, Except.bind]
  rw [kindOf?_text]
  simp only [namedTypeOf_introspected types h]

/-! ### Lists of types -/

theorem addType_introspected (h : t.IsStandard) (s : Schema) :
    addType s (Introspected.namedType types t) = (s.add t).mapError .schema := by
  rw [addType, name_introspected, namedType_introspected types h]
  simp only [shaped, Except.mapError, bind, Except.bind, h.unreserved]
  rfl

/-- A type of introspection is passed over. -/
theorem addType_reserved {j : Json} (h : Introspected.isReserved j = true) (s : Schema) :
    addType s j = .ok s := by
  rw [Introspected.isReserved] at h
  rw [addType]
  cases hname : j.memberText "name" with
  | error e =>
    rw [hname] at h
    cases h
  | ok name =>
    rw [hname] at h
    have hprefix : reservedStart.isPrefixOf name = true := h
    simp only [shaped, Except.mapError, bind, Except.bind, hprefix]
    rfl

theorem isReserved_introspected (h : t.IsStandard) :
    Introspected.isReserved (Introspected.namedType types t) = false := by
  rw [Introspected.isReserved, name_introspected]
  exact h.unreserved

variable {types} in
/-- Types are listed in their order with types of introspection in front of them and behind. -/
theorem lists_append {before after : List Json} (htypes : ∀ t ∈ types, t.IsStandard)
    (hbefore : ∀ j ∈ before, Introspected.isReserved j = true)
    (hafter : ∀ j ∈ after, Introspected.isReserved j = true) :
    Introspected.Lists types
      (before ++ (types.map (Introspected.namedType types) ++ after)) := by
  have hnone : ∀ listed : List Json, (∀ j ∈ listed, Introspected.isReserved j = true) →
      listed.filter (fun j => !Introspected.isReserved j) = [] := fun listed h =>
    List.filter_eq_nil_iff.mpr fun j hj => by simp [h j hj]
  have hall : (types.map (Introspected.namedType types)).filter
      (fun j => !Introspected.isReserved j) = types.map (Introspected.namedType types) := by
    refine List.filter_eq_self.mpr fun j hj => ?_
    obtain ⟨t, ht, rfl⟩ := List.mem_map.mp hj
    rw [isReserved_introspected types (htypes t ht)]
    rfl
  rw [Introspected.Lists, List.filter_append, List.filter_append, hnone before hbefore, hall,
    hnone after hafter, List.nil_append, List.append_nil]

/-- **A list of types adds them to a schema** one after the other, and those of introspection are
passed over. -/
theorem foldlM_addType {rest : List NamedType} (hrest : ∀ t ∈ rest, t.IsStandard)
    {listed : List Json}
    (hlisted : listed.filter (fun j => !Introspected.isReserved j) =
      rest.map (Introspected.namedType types)) (s : Schema) :
    listed.foldlM addType s = (rest.foldlM add s).mapError .schema := by
  induction listed generalizing rest s with
  | nil =>
    cases rest with
    | nil => rfl
    | cons t rest => cases hlisted
  | cons j listed ih =>
    rw [List.foldlM_cons]
    cases hj : Introspected.isReserved j with
    | true =>
      rw [List.filter_cons_of_neg (by simp [hj])] at hlisted
      rw [addType_reserved hj]
      exact ih hrest hlisted s
    | false =>
      rw [List.filter_cons_of_pos (by simp [hj])] at hlisted
      obtain ⟨t, rest, rfl, rfl, hmore⟩ := List.map_eq_cons_iff.mp hlisted.symm
      rw [addType_introspected types (hrest t List.mem_cons_self), List.foldlM_cons]
      cases s.add t with
      | error e => rfl
      | ok s' => exact ih (fun t ht => hrest t (List.mem_cons_of_mem _ ht)) hmore.symm s'

end

/-! ### Root types -/

section
variable {roots : OperationType → Option Text} {listed : List Json} {directives : Json}

theorem setRootFrom_rootType {result : Json} {o : OperationType} {key : Text} {name : Option Text}
    (h : result.member? key = some (Introspected.rootType name)) (s : Schema) :
    setRootFrom result s (o, key) = .ok (name.elim s (s.setRoot o)) := by
  cases name with
  | none => simp only [setRootFrom, h, Introspected.rootType, Option.elim]
  | some name =>
    have hname : (Json.ofMembers [("name", .string name)]).memberText "name" = .ok name :=
      memberText_of (by simp)
    rw [setRootFrom, h]
    show ((shaped ((Json.ofMembers [("name", .string name)]).memberText "name")).bind _) = _
    rw [hname]
    rfl

/-- The root types of an answer are named. -/
theorem foldlM_setRootFrom (s : Schema) :
    rootKeys.foldlM (setRootFrom (Introspected.result roots listed directives)) s =
      .ok (withRoots roots s) := by
  have hquery : (Introspected.result roots listed directives).member? "queryType" =
      some (Introspected.rootType (roots .query)) := by simp +decide [Introspected.result]
  have hmutation : (Introspected.result roots listed directives).member? "mutationType" =
      some (Introspected.rootType (roots .mutation)) := by simp +decide [Introspected.result]
  have hsubscription : (Introspected.result roots listed directives).member? "subscriptionType" =
      some (Introspected.rootType (roots .subscription)) := by simp +decide [Introspected.result]
  simp only [rootKeys, List.foldlM_cons, List.foldlM_nil, setRootFrom_rootType hquery,
    setRootFrom_rootType hmutation, setRootFrom_rootType hsubscription, withRoots, rootList,
    List.filterMap_cons, List.filterMap_nil]
  cases roots .query <;> cases roots .mutation <;> cases roots .subscription <;> rfl

/-- **The schema of an answer that is read**: its types are added one after the other, and its root
types are named. -/
theorem read_result {types : List NamedType} (htypes : ∀ t ∈ types, t.IsStandard)
    (hlisted : Introspected.Lists types listed) :
    read (Introspected.result roots listed directives) =
      ((types.foldlM add initial).map (withRoots roots)).mapError .schema := by
  have hmember : (Introspected.result roots listed directives).member "types" = .ok (.array listed) :=
    member_eq_ok.mpr (by simp +decide [Introspected.result])
  rw [read, hmember]
  show ((Json.array listed).elements.foldlM addType initial).bind _ = _
  rw [show (Json.array listed).elements = listed from rfl, foldlM_addType types htypes hlisted]
  cases types.foldlM add initial with
  | error e => rfl
  | ok s => exact foldlM_setRootFrom s

end

theorem payload_answer (bare : Bool) (result : Json) :
    (payload (Introspected.answer bare result)).member? "__schema" = some result := by
  cases bare with
  | true =>
    have hdata : (Introspected.answer true result).member? "data" = none := by
      simp +decide [Introspected.answer]
    rw [payload, hdata]
    simp [Introspected.answer]
  | false =>
    have hdata : (Introspected.answer false result).member? "data" =
        some (.ofMembers [("__schema", result)]) := by simp [Introspected.answer]
    rw [payload, hdata]
    simp

end Introspection

/-- **The schema of an answer**, bare or under `data`: its types are added one after the other, its
root types are named, and the whole is validated. -/
theorem ofIntrospection_result {roots : OperationType → Option Text} {types : List NamedType}
    (htypes : ∀ t ∈ types, t.IsStandard) {listed : List Json}
    (hlisted : Introspected.Lists types listed) (directives : Json) (bare : Bool) :
    ofIntrospection (Introspected.answer bare (Introspected.result roots listed directives)) =
      ((types.foldlM add initial).map (withRoots roots)).bind validated := by
  rw [ofIntrospection, Introspection.payload_answer]
  dsimp only
  rw [Introspection.read_result htypes hlisted]
  cases types.foldlM add initial <;> rfl

end QueryCompiler.Schema
