import QueryCompiler.Document.Basic
import QueryCompiler.OrderedMap

/-!
# Schemas

A schema holds named types in the order of their definition and the names of its root types. It
starts with the five built-in scalars. A type keeps whatever members its source gave it; its kind
decides which of them are read.

* `Schema.add`: one type more, unless its name is taken or reserved.
* `Schema.possibleTypes`: the object types a composite type may stand for.
* `Schema.fieldDefinition`: the fields that a selection on a type may name.
-/

namespace QueryCompiler

/-- The six kinds of type. -/
inductive TypeKind
  | scalar
  | object
  | interface
  | union
  | enum
  | inputObject
  deriving DecidableEq

/-- The name of a kind. -/
def TypeKind.text : TypeKind → Text
  | .scalar => "SCALAR"
  | .object => "OBJECT"
  | .interface => "INTERFACE"
  | .union => "UNION"
  | .enum => "ENUM"
  | .inputObject => "INPUT_OBJECT"

/-- An argument of a field, or a field of an input object. -/
structure InputValueDefinition where
  /-- The name. -/
  name : Text
  /-- The description. -/
  description : Option Text := none
  /-- The type. -/
  type : TypeRef
  /-- The default as a literal. -/
  defaultValue : Option Text := none
  deriving DecidableEq

/-- A field of an object or interface. -/
structure FieldDefinition where
  /-- The name. -/
  name : Text
  /-- The description. -/
  description : Option Text := none
  /-- The arguments. -/
  args : List InputValueDefinition := []
  /-- The type. -/
  type : TypeRef
  /-- Whether the field is deprecated. -/
  isDeprecated : Bool := false
  /-- Why it is. -/
  deprecationReason : Option Text := none
  deriving DecidableEq

/-- A value of an enum. -/
structure EnumValueDefinition where
  /-- The name. -/
  name : Text
  /-- The description. -/
  description : Option Text := none
  /-- Whether the value is deprecated. -/
  isDeprecated : Bool := false
  /-- Why it is. -/
  deprecationReason : Option Text := none
  deriving DecidableEq

/-- A type by name. -/
structure NamedType where
  /-- The kind. -/
  kind : TypeKind
  /-- The name. -/
  name : Text
  /-- The description. -/
  description : Option Text := none
  /-- The fields of an object or interface. -/
  fields : List FieldDefinition := []
  /-- The interfaces an object or interface implements. -/
  interfaces : List Text := []
  /-- The members of a union. -/
  members : List Text := []
  /-- The values of an enum. -/
  enumValues : List EnumValueDefinition := []
  /-- The fields of an input object. -/
  inputFields : List InputValueDefinition := []
  deriving DecidableEq

namespace NamedType

/-- The first field of a name. -/
def field? (t : NamedType) (name : Text) : Option FieldDefinition :=
  t.fields.find? fun f => f.name == name

/-- Values of the type have fields to select. -/
def isComposite (t : NamedType) : Bool :=
  t.kind == .object || t.kind == .interface || t.kind == .union

/-- The type stands for other types. -/
def isAbstract (t : NamedType) : Bool := t.kind == .interface || t.kind == .union

/-- Values of the type have no parts. -/
def isLeaf (t : NamedType) : Bool := t.kind == .scalar || t.kind == .enum

/-- Values of the type may be given to arguments and variables. -/
def isInput (t : NamedType) : Bool := t.isLeaf || t.kind == .inputObject

end NamedType

/-- The place in a schema that refers to a type. -/
inductive TypeSite
  | field (type field : Text)
  | argument (type field argument : Text)
  | inputField (type field : Text)
  deriving DecidableEq

/-- How a place is named. -/
def TypeSite.text : TypeSite → Text
  | .field type name => "field \"" ++ type ++ "." ++ name ++ "\""
  | .argument type name arg => "argument \"" ++ type ++ "." ++ name ++ "(" ++ arg ++ ":)\""
  | .inputField type name => "input field \"" ++ type ++ "." ++ name ++ "\""

/-- What is wrong with a schema or a question to it. -/
inductive SchemaError
  /-- A type has no name. -/
  | unnamedType
  /-- A type has a name that belongs to introspection. -/
  | reservedName (name : Text)
  /-- Two types have one name. -/
  | duplicateType (name : Text)
  /-- There is no type of this name. -/
  | unknownType (name : Text)
  /-- The type has no possible types. -/
  | notComposite (name : Text)
  /-- A place refers to a type that is not there. -/
  | unknownReference (name : Text) (site : TypeSite)
  /-- A place asks for an input type and has another. -/
  | notAnInputType (type : TypeRef) (site : TypeSite)
  /-- A place asks for an output type and has another. -/
  | notAnOutputType (type : TypeRef) (site : TypeSite)
  /-- There is no query root. -/
  | noQueryRoot
  /-- A root is no object type. -/
  | rootNotAnObject (operation : OperationType) (name : Text)
  /-- A type implements what is no interface. -/
  | notAnInterface (type name : Text)
  /-- A union has a member that is no object type. -/
  | memberNotAnObject (type name : Text)
  /-- An introspection result names a kind that is none. -/
  | unknownKind (kind : Text)
  /-- An introspection result has no schema in it. -/
  | noSchemaMember
  /-- An introspection result does not have the shape it should have. -/
  | malformedIntrospection
  deriving DecidableEq

/-- The wording of an error. -/
def SchemaError.message : SchemaError → Text
  | .unnamedType => "Type definition without a name"
  | .reservedName name =>
    "Name \"" ++ name ++ "\" must not begin with \"__\", which is reserved by GraphQL introspection"
  | .duplicateType name => "There can be only one type named \"" ++ name ++ "\""
  | .unknownType name => "Unknown type \"" ++ name ++ "\""
  | .notComposite name => "Type \"" ++ name ++ "\" is not a composite type"
  | .unknownReference name site => "Unknown type \"" ++ name ++ "\" referenced by " ++ site.text
  | .notAnInputType type site =>
    "The type of " ++ site.text ++ " must be an input type but got \"" ++ type.text ++ "\""
  | .notAnOutputType type site =>
    "The type of " ++ site.text ++ " must be an output type but got \"" ++ type.text ++ "\""
  | .noQueryRoot => "Schema does not define a query root type"
  | .rootNotAnObject operation name =>
    "Root " ++ operation.text ++ " type \"" ++ name ++ "\" must be an object type"
  | .notAnInterface type name =>
    "Type \"" ++ type ++ "\" must only implement Interface types, it cannot implement \"" ++ name ++
      "\""
  | .memberNotAnObject type name =>
    "Union type \"" ++ type ++ "\" can only include Object types, it cannot include \"" ++ name ++
      "\""
  | .unknownKind kind => "Unknown type kind \"" ++ kind ++ "\" in introspection result"
  | .noSchemaMember => "Introspection result is missing \"__schema\""
  | .malformedIntrospection => "Malformed introspection result"

/-- Types by name and the names of the root types. -/
structure Schema where
  /-- The types in the order of their definition. -/
  types : OrderedMap Text NamedType
  /-- The root type of queries. -/
  queryType : Option Text := none
  /-- The root type of mutations. -/
  mutationType : Option Text := none
  /-- The root type of subscriptions. -/
  subscriptionType : Option Text := none

namespace Schema

/-- The names of the built-in scalars. -/
def builtInNames : List Text := ["Int", "Float", "String", "Boolean", "ID"]

/-- The name is that of a built-in scalar. -/
def isBuiltInScalar (name : Text) : Bool := builtInNames.contains name

/-- The schema of the built-in scalars, without root types. -/
def initial : Schema where
  types := .ofList (builtInNames.map fun name => (name, { kind := .scalar, name }))

instance : Inhabited Schema := ⟨initial⟩

/-- The start of the names that belong to introspection. -/
def reservedStart : Text := "__"

/-- One type more. A definition of a built-in scalar replaces it in its place, and any other name
must be new and not reserved. -/
def add (s : Schema) (t : NamedType) : Except SchemaError Schema :=
  if t.name.isEmpty then .error .unnamedType
  else if reservedStart.isPrefixOf t.name then .error (.reservedName t.name)
  else if s.types.contains t.name && !isBuiltInScalar t.name then .error (.duplicateType t.name)
  else .ok { s with types := s.types.assign t.name t }

/-- The name of a root type. -/
def rootName? (s : Schema) : OperationType → Option Text
  | .query => s.queryType
  | .mutation => s.mutationType
  | .subscription => s.subscriptionType

/-- Names a root type. -/
def setRoot (s : Schema) (operation : OperationType) (name : Text) : Schema :=
  match operation with
  | .query => { s with queryType := some name }
  | .mutation => { s with mutationType := some name }
  | .subscription => { s with subscriptionType := some name }

/-- The type of a name. -/
def type? (s : Schema) (name : Text) : Option NamedType := s.types.find? name

/-- The type of a name that must be there. -/
def typeNamed (s : Schema) (name : Text) : Except SchemaError NamedType :=
  match s.type? name with
  | some t => .ok t
  | none => .error (.unknownType name)

/-- A root type. -/
def rootType? (s : Schema) (operation : OperationType) : Option NamedType :=
  (s.rootName? operation).bind s.type?

/-- The object types that implement an interface, in the order of their definition. -/
def implementers (s : Schema) (name : Text) : List Text :=
  (s.types.entries.filter fun e => e.2.kind == .object && e.2.interfaces.contains name).map Prod.fst

/-- The object types that a type may stand for: an object itself, the members of a union, the
implementers of an interface, and none for any other type. -/
def possibleTypesOf (s : Schema) (t : NamedType) : List Text :=
  match t.kind with
  | .object => [t.name]
  | .union => t.members
  | .interface => s.implementers t.name
  | _ => []

/-- The object types that a composite type may stand for. -/
def possibleTypes (s : Schema) (name : Text) : Except SchemaError (List Text) := do
  let t ← s.typeNamed name
  if t.isComposite then .ok (s.possibleTypesOf t) else .error (.notComposite name)

/-- The field that every composite type has. -/
def typenameDefinition : FieldDefinition where
  name := "__typename"
  description := some "The name of the current Object type at runtime."
  type := .nonNull (.named "String")

/-- The field that a selection on a type may name: one that the type defines if it is an object or
an interface, or the name of the type if it is composite. -/
def fieldDefinition (parent : NamedType) (name : Text) : Option FieldDefinition :=
  if name == typenameDefinition.name && parent.isComposite then some typenameDefinition
  else if parent.kind == .object || parent.kind == .interface then parent.field? name
  else none

end Schema

end QueryCompiler
