import QueryCompiler.Source.Location
import QueryCompiler.TypeRef

/-!
# Executable documents

A document is a list of operations and a list of fragment definitions, with the order in which the
two kinds of definition follow one another. Selections nest: a field and an inline fragment carry a
selection set, which is empty where the source has none.
-/

namespace QueryCompiler

/-- The three kinds of operation. -/
inductive OperationType
  | query
  | mutation
  | subscription
  deriving DecidableEq

/-- The keyword of a kind of operation. -/
def OperationType.text : OperationType → Text
  | .query => "query"
  | .mutation => "mutation"
  | .subscription => "subscription"

namespace Document

/-- A literal or a variable. Numbers keep their spelling. -/
inductive Value
  | variable (name : Text)
  | int (literal : Text)
  | float (literal : Text)
  | string (text : Text)
  | boolean (b : Bool)
  | null
  | enum (name : Text)
  | list (values : List Value)
  | object (fields : List (Text × Value))

/-- A value by name. -/
structure Argument where
  /-- The name. -/
  name : Text
  /-- The value. -/
  value : Value

/-- A directive and its place. -/
structure Directive where
  /-- The name. -/
  name : Text
  /-- The arguments. -/
  arguments : List Argument
  /-- The place of the directive. -/
  location : Location

/-- What a field selection says besides its selection set. -/
structure Field where
  /-- The alias, if there is one. -/
  aliasName : Option Text
  /-- The name. -/
  name : Text
  /-- The arguments. -/
  arguments : List Argument
  /-- The directives. -/
  directives : List Directive
  /-- The place of the selection. -/
  location : Location

/-- The name under which the result holds the field. -/
def Field.responseKey (field : Field) : Text := field.aliasName.getD field.name

/-- A spread of a fragment. -/
structure Spread where
  /-- The name of the fragment. -/
  name : Text
  /-- The directives. -/
  directives : List Directive
  /-- The place of the selection. -/
  location : Location

/-- What an inline fragment says besides its selection set. -/
structure InlineFragment where
  /-- The type, if there is one. -/
  typeCondition : Option Text
  /-- The directives. -/
  directives : List Directive
  /-- The place of the selection. -/
  location : Location

/-- A selection: a field, a spread, or an inline fragment. -/
inductive Selection
  | field (head : Field) (selections : List Selection)
  | spread (head : Spread)
  | inline (head : InlineFragment) (selections : List Selection)

namespace Selection

/-- The directives of a selection. -/
def directives : Selection → List Directive
  | .field head _ => head.directives
  | .spread head => head.directives
  | .inline head _ => head.directives

/-- The place of a selection. -/
def location : Selection → Location
  | .field head _ => head.location
  | .spread head => head.location
  | .inline head _ => head.location

/-- The selection set of a selection; empty if it has none. -/
def selections : Selection → List Selection
  | .field _ selections => selections
  | .spread _ => []
  | .inline _ selections => selections

end Selection

/-- A variable of an operation. -/
structure Variable where
  /-- The name, without its dollar sign. -/
  name : Text
  /-- The type. -/
  type : TypeRef
  /-- The default, if there is one. -/
  defaultValue : Option Value

/-- An operation; the shorthand form has no name. -/
structure Operation where
  /-- The kind. -/
  operation : OperationType
  /-- The name, if there is one. -/
  name : Option Text
  /-- The variables. -/
  variableDefinitions : List Variable
  /-- The directives. -/
  directives : List Directive
  /-- The root selection set. -/
  selections : List Selection
  /-- The place of the definition. -/
  location : Location
  /-- The file the source was read from, if it is known. -/
  filePath : Option Text

/-- A named fragment. -/
structure Fragment where
  /-- The name. -/
  name : Text
  /-- The type. -/
  typeCondition : Text
  /-- The directives. -/
  directives : List Directive
  /-- The selection set. -/
  selections : List Selection
  /-- The place of the definition. -/
  location : Location
  /-- The file the source was read from, if it is known. -/
  filePath : Option Text

/-- The two kinds of definition. -/
inductive DefinitionKind
  | operation
  | fragment
  deriving DecidableEq

end Document

/-- An executable document. -/
structure Document where
  /-- The operations in order. -/
  operations : List Document.Operation
  /-- The fragment definitions in order. -/
  fragments : List Document.Fragment
  /-- The kind of each definition in order. -/
  order : List Document.DefinitionKind

namespace Document

/-- The document without definitions. -/
def empty : Document := ⟨[], [], []⟩

/-- The definitions of one document and then those of another. -/
def append (a b : Document) : Document :=
  ⟨a.operations ++ b.operations, a.fragments ++ b.fragments, a.order ++ b.order⟩

/-- The definitions of all documents in order. -/
def concat (documents : List Document) : Document := documents.foldl append empty

/-- A definition. -/
inductive Definition
  | operation (definition : Operation)
  | fragment (definition : Fragment)

/-- The document of a single definition. -/
def Definition.document : Definition → Document
  | .operation definition => ⟨[definition], [], [.operation]⟩
  | .fragment definition => ⟨[], [definition], [.fragment]⟩

/-- The document of a list of definitions. -/
def ofDefinitions (definitions : List Definition) : Document where
  operations := definitions.filterMap fun
    | .operation definition => some definition
    | .fragment _ => none
  fragments := definitions.filterMap fun
    | .operation _ => none
    | .fragment definition => some definition
  order := definitions.map fun
    | .operation _ => .operation
    | .fragment _ => .fragment

end Document

end QueryCompiler
