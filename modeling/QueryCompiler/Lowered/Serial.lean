import QueryCompiler.Lowered.Basic
import QueryCompiler.Typed.TypeCase

/-!
# Lowered programs as JSON

The JSON form of a lowered program lists its operations, its fragments and the definitions of the
types used. Types are written as references; a part that is not there has no member. The manifest
maps the id of every operation to its name and its text with fragments.
-/

namespace QueryCompiler.Lowered

/-- A list of texts. -/
def textsJson (texts : List Text) : Json := .array (texts.map .string)

/-- A member for a text, if it is there. -/
def textMember (key : Text) : Option Text → Json.Members
  | none => []
  | some text => [(key, .string text)]

/-- An argument. -/
def argumentJson (a : Typed.Argument) : Json :=
  .ofMembers (([("name", .string a.name), ("value", a.value)] : Json.Members) ++
    textMember "type" (a.type.map TypeRef.text))

/-- The member for the arguments of a field, if it has any. -/
def argumentsMember (args : List Typed.Argument) : Json.Members :=
  if args.isEmpty then [] else [("args", .array (args.map argumentJson))]

/-- The members of a field besides those of its body. -/
def FieldHead.members (head : FieldHead) : Json.Members :=
  ([("responseName", .string head.responseName), ("fieldName", .string head.fieldName),
    ("type", .string head.type.text), ("isConditional", .bool head.isConditional),
    ("isDeprecated", .bool head.isDeprecated)] : Json.Members) ++
  argumentsMember head.args ++
  textMember "description" head.description ++
  textMember "deprecationReason" head.deprecationReason

mutual

/-- A field. -/
def Field.toJson : Field → Json
  | .mk head none => .ofMembers head.members
  | .mk head (some body) => .ofMembers (head.members ++ body.members)

/-- The members of a body. -/
def Body.members : Body → Json.Members
  | .mk fields spreads inline =>
    [("fields", .array (fieldsToJson fields)), ("fragmentSpreads", textsJson spreads),
      ("inlineFragments", .array (inlineFragmentsToJson inline))]

/-- An inline fragment. -/
def InlineFragment.toJson : InlineFragment → Json
  | .mk typeCondition possibleTypes fields spreads =>
    .ofMembers [("typeCondition", .string typeCondition),
      ("possibleTypes", textsJson possibleTypes),
      ("fields", .array (fieldsToJson fields)), ("fragmentSpreads", textsJson spreads)]

/-- Fields one after the other. -/
def fieldsToJson : List Field → List Json
  | [] => []
  | field :: rest => field.toJson :: fieldsToJson rest

/-- Inline fragments one after the other. -/
def inlineFragmentsToJson : List InlineFragment → List Json
  | [] => []
  | fragment :: rest => fragment.toJson :: inlineFragmentsToJson rest

end

/-- A variable. -/
def variableJson (v : Typed.Variable) : Json :=
  .ofMembers [("name", .string v.name), ("type", .string v.type.text)]

/-- An operation. -/
def Operation.toJson (o : Operation) : Json :=
  .ofMembers (([("operationName", .string o.name), ("operationType", .string o.operation.text),
    ("rootType", .string o.rootType), ("variables", .array (o.variableDefinitions.map variableJson)),
    ("source", .string o.source), ("fragmentsReferenced", textsJson o.fragmentsReferenced),
    ("sourceWithFragments", .string o.sourceWithFragments)] : Json.Members) ++ o.body.members ++
    textMember "filePath" o.filePath ++ textMember "operationId" o.operationId)

/-- A fragment. -/
def Fragment.toJson (f : Fragment) : Json :=
  .ofMembers (([("fragmentName", .string f.name), ("source", .string f.source),
    ("typeCondition", .string f.typeCondition),
    ("possibleTypes", textsJson f.possibleTypes)] : Json.Members) ++
    f.body.members ++ textMember "filePath" f.filePath)

/-- A value of an enum. -/
def enumValueJson (v : EnumValueDefinition) : Json :=
  .ofMembers (([("name", .string v.name),
    ("isDeprecated", .bool v.isDeprecated)] : Json.Members) ++
    textMember "description" v.description ++ textMember "deprecationReason" v.deprecationReason)

/-- A field of an input object. -/
def inputFieldJson (f : InputValueDefinition) : Json :=
  .ofMembers (([("name", .string f.name), ("type", .string f.type.text)] : Json.Members) ++
    textMember "description" f.description ++ textMember "defaultValue" f.defaultValue)

/-- The members that tell the kind of a type and its parts. -/
def kindMembers (t : NamedType) : Json.Members :=
  match t.kind with
  | .enum => [("kind", .string "EnumType"), ("values", .array (t.enumValues.map enumValueJson))]
  | .inputObject =>
    [("kind", .string "InputObjectType"), ("fields", .array (t.inputFields.map inputFieldJson))]
  | _ => [("kind", .string "ScalarType")]

/-- The definition of a type. -/
def typeJson (t : NamedType) : Json :=
  .ofMembers (([("name", .string t.name)] : Json.Members) ++
    textMember "description" t.description ++ kindMembers t)

/-- The definition of a type used. -/
def usedTypeJson (schema : Option Schema) (name : Text) : Except LoweringError Json :=
  match schema.bind fun s => s.type? name with
  | some t => .ok (typeJson t)
  | none => .error (.undefinedType name)

namespace Program

/-- The JSON form of a lowered program. -/
def toJson (p : Program) : Except LoweringError Json := do
  let types ← p.typesUsed.mapM (usedTypeJson p.schema)
  return .ofMembers [("operations", .array (p.operations.values.map Operation.toJson)),
    ("fragments", .array (p.fragments.values.map Fragment.toJson)), ("typesUsed", .array types)]

/-- The entry of an operation in the manifest. -/
def manifestEntry (entry : Text × Operation) : Except LoweringError (Text × Json) :=
  match entry.2.operationId with
  | none => .error (.noOperationId entry.1)
  | some id => .ok (id, .ofMembers [("name", .string entry.1),
      ("source", .string entry.2.sourceWithFragments)])

/-- The manifest: the name and the text of every operation by its id. -/
def manifest (p : Program) : Except LoweringError Json := do
  return .ofMembers (← p.operations.entries.mapM manifestEntry)

end Program

end QueryCompiler.Lowered
