import QueryCompiler.Json.Basic
import QueryCompiler.Schema.Validity

/-!
# Schemas from introspection results

The result of the standard introspection query, bare or under `data`, is read into a schema. Types
of introspection itself are passed over. A value of the wrong shape makes the whole result
malformed, whichever part of it has that shape.
-/

namespace QueryCompiler

/-- The value of a key is smaller than the object. -/
theorem Json.sizeOf_of_member {j v : Json} {key : Text} (h : j.member key = .ok v) :
    sizeOf v < sizeOf j := by
  unfold Json.member at h
  split at h
  · rename_i members
    split at h
    · rename_i value hl
      cases h
      obtain ⟨l₁, l₂, hm, -⟩ := List.lookup_eq_some_iff.mp hl
      have hmem : (key, v) ∈ members := by rw [hm]; simp
      have := List.sizeOf_lt_of_mem hmem
      simp only [Prod.mk.sizeOf_spec, Json.object.sizeOf_spec] at *
      omega
    · cases h
  · cases h

namespace Schema.Introspection

/-- A value has the wrong shape, or a type cannot be added to the schema. -/
inductive ReadError
  | shape (error : Json.ShapeError)
  | schema (error : SchemaError)
  deriving DecidableEq

/-- A reading that can only fail by shape. -/
def shaped {α : Type} (r : Except Json.ShapeError α) : Except ReadError α := r.mapError .shape

/-- A reference to a type: wrappings under `ofType` around a name. -/
def typeRef (j : Json) : Except Json.ShapeError TypeRef := do
  let kind ← j.memberText "kind"
  if kind = "NON_NULL" then
    match _h : j.member "ofType" with
    | .error e => .error e
    | .ok inner => return .nonNull (← typeRef inner)
  else if kind = "LIST" then
    match _h : j.member "ofType" with
    | .error e => .error e
    | .ok inner => return .list (← typeRef inner)
  else return .named (← j.memberText "name")
termination_by j
decreasing_by all_goals exact Json.sizeOf_of_member ‹_›

/-- An argument or a field of an input object. -/
def inputValue (j : Json) : Except Json.ShapeError InputValueDefinition := do
  let name ← j.memberText "name"
  let description ← j.memberText? "description"
  let type ← typeRef (← j.member "type")
  let defaultValue ← j.memberText? "defaultValue"
  return { name, description, type, defaultValue }

/-- The elements under a key, if they are an array; none otherwise. -/
def arrayAt (j : Json) (key : Text) : List Json :=
  match j.member? key with
  | some (.array values) => values
  | _ => []

/-- The truth value under a key; false if there is no such member. -/
def flagAt (j : Json) (key : Text) : Except Json.ShapeError Bool :=
  match j.member? key with
  | none => .ok false
  | some value => value.asBool

/-- A field of an object or interface. -/
def fieldDefinition (j : Json) : Except Json.ShapeError FieldDefinition := do
  let name ← j.memberText "name"
  let description ← j.memberText? "description"
  let type ← typeRef (← j.member "type")
  let isDeprecated ← flagAt j "isDeprecated"
  let deprecationReason ← j.memberText? "deprecationReason"
  let args ← (arrayAt j "args").mapM inputValue
  return { name, description, args, type, isDeprecated, deprecationReason }

/-- A value of an enum. -/
def enumValue (j : Json) : Except Json.ShapeError EnumValueDefinition := do
  let name ← j.memberText "name"
  let description ← j.memberText? "description"
  let isDeprecated ← flagAt j "isDeprecated"
  let deprecationReason ← j.memberText? "deprecationReason"
  return { name, description, isDeprecated, deprecationReason }

/-- The names of what iterating the value under a key yields. -/
def namesAt (j : Json) (key : Text) : Except Json.ShapeError (List Text) :=
  ((j.member? key).elim [] Json.elements).mapM fun entry => entry.memberText "name"

/-- The kind of a name. -/
def kindOf? (text : Text) : Option TypeKind :=
  [TypeKind.scalar, .object, .interface, .union, .enum, .inputObject].find? fun k => k.text == text

/-- A type, after its kind. -/
def namedTypeOf (kind : TypeKind) (j : Json) : Except Json.ShapeError NamedType := do
  let name ← j.memberText "name"
  let description ← j.memberText? "description"
  let fields ← (arrayAt j "fields").mapM fieldDefinition
  let inputFields ← (arrayAt j "inputFields").mapM inputValue
  let enumValues ← (arrayAt j "enumValues").mapM enumValue
  let interfaces ← namesAt j "interfaces"
  let members ← if kind = .union then namesAt j "possibleTypes" else pure []
  return { kind, name, description, fields, interfaces, members, enumValues, inputFields }

/-- A type. -/
def namedType (j : Json) : Except ReadError NamedType := do
  let kind ← shaped (j.memberText "kind")
  match kindOf? kind with
  | none => .error (.schema (.unknownKind kind))
  | some kind => shaped (namedTypeOf kind j)

/-- The schema with a type of the result added, unless it is one of introspection itself. -/
def addType (s : Schema) (j : Json) : Except ReadError Schema := do
  let name ← shaped (j.memberText "name")
  if reservedStart.isPrefixOf name then return s
  let t ← namedType j
  (s.add t).mapError .schema

/-- The schema with the root type under a key, if there is one. -/
def setRootFrom (result : Json) (s : Schema) (root : OperationType × Text) :
    Except ReadError Schema :=
  match result.member? root.2 with
  | none => .ok s
  | some .null => .ok s
  | some type => do return s.setRoot root.1 (← shaped (type.memberText "name"))

/-- The keys of the root types. -/
def rootKeys : List (OperationType × Text) :=
  [(.query, "queryType"), (.mutation, "mutationType"), (.subscription, "subscriptionType")]

/-- The schema that the result describes. -/
def read (result : Json) : Except ReadError Schema := do
  let types ← shaped (result.member "types")
  let s ← types.elements.foldlM addType initial
  rootKeys.foldlM (setRootFrom result) s

/-- How a failed reading is reported. -/
def ReadError.report : ReadError → SchemaError
  | .shape _ => .malformedIntrospection
  | .schema error => error

/-- The part of a result that is under `data`, or all of it. -/
def payload (j : Json) : Json := (j.member? "data").getD j

end Introspection

/-- The schema of an introspection result, with its default roots, if it is valid. -/
def ofIntrospection (j : Json) : Except SchemaError Schema :=
  match (Introspection.payload j).member? "__schema" with
  | none => .error .noSchemaMember
  | some result =>
    match Introspection.read result with
    | .error e => .error e.report
    | .ok s => s.validated

end Schema

end QueryCompiler
