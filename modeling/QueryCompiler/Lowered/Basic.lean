import QueryCompiler.Typed.Basic

/-!
# Lowered selections

What code generators read: the body of a selection set lists the fields that every possible type
has, the fragments that are spread, and for each concrete type that has more an inline fragment with
all fields of that type.
-/

namespace QueryCompiler.Lowered

/-- What a field says besides its body. -/
structure FieldHead where
  /-- The name under which the result holds the field. -/
  responseName : Text
  /-- The name. -/
  fieldName : Text
  /-- The type. -/
  type : TypeRef
  /-- The arguments. -/
  args : List Typed.Argument
  /-- Whether the field is only there under a condition on a variable. -/
  isConditional : Bool
  /-- The description. -/
  description : Option Text
  /-- Whether the field is deprecated. -/
  isDeprecated : Bool
  /-- Why it is. -/
  deprecationReason : Option Text

mutual

/-- A field, with a body if it has a selection set. -/
inductive Field
  | mk (head : FieldHead) (body : Option Body)

/-- The body of a selection set. -/
inductive Body
  | mk (fields : List Field) (spreads : List Text) (inlineFragments : List InlineFragment)

/-- The fields and spreads of one concrete type. -/
inductive InlineFragment
  | mk (typeCondition : Text) (possibleTypes : List Text) (fields : List Field)
      (spreads : List Text)

end

/-- What the field says besides its body. -/
def Field.head : Field → FieldHead
  | .mk head _ => head

/-- The body of the field. -/
def Field.body : Field → Option Body
  | .mk _ body => body

namespace Body

/-- The body without fields, spreads and inline fragments. -/
def empty : Body := .mk [] [] []

/-- The fields of every possible type. -/
def fields : Body → List Field
  | .mk fields _ _ => fields

/-- The fragments that are spread. -/
def spreads : Body → List Text
  | .mk _ spreads _ => spreads

/-- The types that have more. -/
def inlineFragments : Body → List InlineFragment
  | .mk _ _ inlineFragments => inlineFragments

end Body

namespace InlineFragment

/-- The concrete type. -/
def typeCondition : InlineFragment → Text
  | .mk typeCondition _ _ _ => typeCondition

/-- The object types that it is for. -/
def possibleTypes : InlineFragment → List Text
  | .mk _ possibleTypes _ _ => possibleTypes

/-- All fields of the type. -/
def fields : InlineFragment → List Field
  | .mk _ _ fields _ => fields

/-- The fragments that are spread on the type. -/
def spreads : InlineFragment → List Text
  | .mk _ _ _ spreads => spreads

end InlineFragment

/-- An operation. -/
structure Operation where
  /-- The file the source was read from, if it is known. -/
  filePath : Option Text
  /-- The name. -/
  name : Text
  /-- The kind. -/
  operation : OperationType
  /-- The name of the root type. -/
  rootType : Text
  /-- The variables. -/
  variableDefinitions : List Typed.Variable
  /-- The canonical text. -/
  source : Text
  /-- The root selection set. -/
  body : Body
  /-- The fragments that are spread at any depth. -/
  fragmentsReferenced : List Text
  /-- The canonical text, and those of the fragments after it. -/
  sourceWithFragments : Text
  /-- The digest of that text, if ids are asked for. -/
  operationId : Option Text

/-- A fragment. -/
structure Fragment where
  /-- The file the source was read from, if it is known. -/
  filePath : Option Text
  /-- The name. -/
  name : Text
  /-- The canonical text. -/
  source : Text
  /-- The name of the type. -/
  typeCondition : Text
  /-- The object types it may be spread on. -/
  possibleTypes : List Text
  /-- The selection set. -/
  body : Body

/-- The lowered operations and fragments of a document. -/
structure Program where
  /-- The schema. -/
  schema : Option Schema
  /-- The operations by name. -/
  operations : OrderedMap Text Operation
  /-- The fragments by name. -/
  fragments : OrderedMap Text Fragment
  /-- The enums, input objects and custom scalars in the order in which they were met. -/
  typesUsed : List Text
  /-- The options of the compilation. -/
  options : CompilerOptions

end QueryCompiler.Lowered
