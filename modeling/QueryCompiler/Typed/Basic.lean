import QueryCompiler.Document.Value
import QueryCompiler.Options
import QueryCompiler.Schema.Validity

/-!
# Typed selections

A selection set knows the concrete object types it may be evaluated against. A selection is a field,
a type condition, a condition on a variable, or a spread that carries the selections of its
fragment. The set inside a selection may be missing: a field without parts has none, and a condition
without one is malformed.
-/

namespace QueryCompiler

namespace Typed

/-- An argument of a field, with the type that the schema gives it. -/
structure Argument where
  /-- The name. -/
  name : Text
  /-- The value. -/
  value : Json
  /-- The type, if the field has such an argument. -/
  type : Option TypeRef

/-- A variable of an operation. -/
structure Variable where
  /-- The name. -/
  name : Text
  /-- The type. -/
  type : TypeRef

/-- What a field says besides its selection set. -/
structure FieldHead where
  /-- The name under which the result holds the field. -/
  responseKey : Text
  /-- The name. -/
  name : Text
  /-- The alias, if there is one. -/
  aliasName : Option Text := none
  /-- The arguments. -/
  args : List Argument := []
  /-- The type. -/
  type : TypeRef
  /-- The description. -/
  description : Option Text := none
  /-- Whether the field is deprecated. -/
  isDeprecated : Bool := false
  /-- Why it is. -/
  deprecationReason : Option Text := none
  /-- Whether the field is only there under a condition on a variable. -/
  isConditional : Bool := false

mutual

/-- Selections on an object of one of some possible types. -/
inductive SelectionSet
  | mk (possibleTypes : List Text) (selections : List Selection)

/-- A selection. -/
inductive Selection
  /-- A field. -/
  | field (head : FieldHead) (nested : Option SelectionSet)
  /-- Selections on objects of a type. -/
  | typeCondition (type : Text) (nested : Option SelectionSet)
  /-- Selections under a variable that must be true, or false if inverted. -/
  | booleanCondition (variableName : Text) (inverted : Bool) (nested : Option SelectionSet)
  /-- The selections of a fragment on a type. -/
  | spread (fragmentName : Text) (type : Text) (nested : Option SelectionSet)

end

/-- The possible types of a selection set. -/
def SelectionSet.possibleTypes : SelectionSet → List Text
  | .mk possibleTypes _ => possibleTypes

/-- The selections of a selection set. -/
def SelectionSet.selections : SelectionSet → List Selection
  | .mk _ selections => selections

/-- The selection set inside a selection. -/
def Selection.nested : Selection → Option SelectionSet
  | .field _ nested => nested
  | .typeCondition _ nested => nested
  | .booleanCondition _ _ nested => nested
  | .spread _ _ nested => nested

/-- A field and its selection set. -/
structure Field where
  /-- What the field says besides its selection set. -/
  head : FieldHead
  /-- The selection set. -/
  nested : Option SelectionSet

/-- The types that are allowed, in their order. -/
def intersect (types allowed : List Text) : List Text := types.filter allowed.contains

/-- Every type of a subset is among the types. -/
def covers (types subset : List Text) : Bool := subset.all types.contains

/-- An operation. -/
structure Operation where
  /-- The file the source was read from, if it is known. -/
  filePath : Option Text
  /-- The name. -/
  name : Text
  /-- The kind. -/
  operation : OperationType
  /-- The name of the root type. -/
  rootType : Text
  /-- The variables. -/
  variableDefinitions : List Variable
  /-- The canonical text. -/
  source : Text
  /-- The root selection set. -/
  selectionSet : Option SelectionSet

/-- A fragment. -/
structure Fragment where
  /-- The file the source was read from, if it is known. -/
  filePath : Option Text
  /-- The name. -/
  name : Text
  /-- The canonical text. -/
  source : Text
  /-- The name of the type. -/
  typeCondition : Text
  /-- The object types it may be spread on. -/
  possibleTypes : List Text
  /-- The selection set. -/
  selectionSet : Option SelectionSet

/-- The operations and fragments of a document, resolved against a schema. -/
structure Program where
  /-- The schema. -/
  schema : Option Schema
  /-- The operations by name. -/
  operations : OrderedMap Text Operation
  /-- The fragments by name. -/
  fragments : OrderedMap Text Fragment
  /-- The enums, input objects and custom scalars in the order in which they were met. -/
  typesUsed : List Text
  /-- The options of the compilation. -/
  options : CompilerOptions

@[simp] theorem mem_intersect {types allowed : List Text} {t : Text} :
    t ∈ intersect types allowed ↔ t ∈ types ∧ t ∈ allowed := by
  simp [intersect]

@[simp] theorem covers_iff {types subset : List Text} :
    covers types subset = true ↔ ∀ t ∈ subset, t ∈ types := by
  simp [covers]

end Typed

end QueryCompiler
