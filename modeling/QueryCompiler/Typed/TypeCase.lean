import QueryCompiler.Typed.Basic

/-!
# Type cases

A type case says which fields a selection set has, by the type of the object. The default record has
the fields that are selected for every possible type. Every further record has a subset of the
possible types and all fields that apply to it; the subsets are disjoint and in the order in which
they came about.

The case is built by one walk over the selections. A type condition that does not cover all possible
types registers its subset: records that it cuts are split in two, and types that no record has yet
get a new record that starts with the fields of the default one. A field goes to every record that
its types cover, and a field for all types to the default record as well. Fields with one response
key become one field. Spreads are not entered.
-/

namespace QueryCompiler

/-- Why a program cannot be lowered. -/
inductive LoweringError
  /-- A type condition has no selection set. -/
  | bareTypeCondition (type : Text)
  /-- A condition on a variable has no selection set. -/
  | bareBooleanCondition (variableName : Text)
  /-- An operation has no selection set. -/
  | bareOperation (name : Text)
  /-- A fragment has no selection set. -/
  | bareFragment (name : Text)
  /-- Selection sets are nested too deep. -/
  | selectionNesting (limit : Nat) (responseKey : Text)
  /-- An operation refers to a fragment that is not there. -/
  | missingFragment (name operation : Text)
  /-- A step of the lowering is missing. -/
  | missingStep
  /-- A type that is used is not in the schema. -/
  | undefinedType (name : Text)
  /-- An operation has no id. -/
  | noOperationId (operation : Text)
  deriving DecidableEq

/-- The wording of an error. -/
def LoweringError.message : LoweringError → Text
  | .bareTypeCondition type =>
    "Malformed IR: type condition on " ++ type ++ " has no selection set"
  | .bareBooleanCondition variableName =>
    "Malformed IR: condition on $" ++ variableName ++ " has no selection set"
  | .bareOperation name => "Malformed IR: operation \"" ++ name ++ "\" has no selection set"
  | .bareFragment name => "Malformed IR: fragment \"" ++ name ++ "\" has no selection set"
  | .selectionNesting limit responseKey =>
    "Selection sets nested deeper than " ++ Text.ofNat limit ++ " levels at field \"" ++
      responseKey ++ "\""
  | .missingFragment name operation =>
    "Cannot find fragment \"" ++ name ++ "\" referenced by operation \"" ++ operation ++ "\""
  | .missingStep =>
    "compileToLegacyIR requires a partitioner, reference collector and spread merger"
  | .undefinedType name => "Type \"" ++ name ++ "\" is not defined in the schema"
  | .noOperationId operation =>
    "Operation \"" ++ operation ++ "\" has no operation id; enable generateOperationIds"

namespace Typed

/-- The fields for some of the possible types. -/
structure TypeRecord where
  /-- The types. -/
  possibleTypes : List Text
  /-- The fields, with different response keys. -/
  fields : List Field

/-- The fields of a selection set by the type of the object. -/
structure TypeCase where
  /-- The fields for every possible type. -/
  default : TypeRecord
  /-- The fields for types that have more. -/
  records : List TypeRecord

/-! ### Fields with one response key -/

/-- The selection sets of two fields in one: the selections of the first and then of the second, on
the possible types of the first. -/
def mergeNested : Option SelectionSet → Option SelectionSet → Option SelectionSet
  | first, none => first
  | none, some second => some second
  | some first, some second =>
    some (.mk first.possibleTypes (first.selections ++ second.selections))

/-- Two fields in one, which is conditional only if both are. -/
def Field.merge (first second : Field) : Field where
  head := { first.head with
    isConditional := first.head.isConditional && second.head.isConditional }
  nested := mergeNested first.nested second.nested

/-- The fields with one more: merged into the first of its response key, or at the end. -/
def addField : List Field → Field → List Field
  | [], field => [field]
  | first :: rest, field =>
    if first.head.responseKey = field.head.responseKey then first.merge field :: rest
    else first :: addField rest field

namespace TypeCase

/-- The case of a set in which nothing is selected. -/
def start (possibleTypes : List Text) : TypeCase := ⟨⟨possibleTypes, []⟩, []⟩

/-- The types are all the possible types. -/
def isDefault (c : TypeCase) (types : List Text) : Bool := covers types c.default.possibleTypes

/-- The types that are not among others, in their order. -/
def without (types others : List Text) : List Text := types.filter fun t => !others.contains t

/-- The records, each of them split in two where a subset cuts it, and the types of the subset that
no record has. -/
def split : List TypeRecord → List Text → List TypeRecord × List Text
  | [], subset => ([], subset)
  | record :: rest, subset =>
    let inside := intersect record.possibleTypes subset
    if inside.isEmpty then
      let (records, left) := split rest subset
      (record :: records, left)
    else
      let (records, left) := split rest (without subset inside)
      if inside.length = record.possibleTypes.length then (record :: records, left)
      else
        (⟨inside, record.fields⟩ :: ⟨without record.possibleTypes inside, record.fields⟩ :: records,
          left)

/-- The case in which a subset of the possible types is a union of records, unless it is all of
them. -/
def register (c : TypeCase) (subset : List Text) : TypeCase :=
  if c.isDefault subset then c
  else
    let (records, left) := split c.records subset
    { c with records := if left.isEmpty then records else records ++ [⟨left, c.default.fields⟩] }

/-- A record with one field more. -/
def addTo (field : Field) (record : TypeRecord) : TypeRecord :=
  { record with fields := addField record.fields field }

/-- The case with a field for some types. -/
def add (c : TypeCase) (types : List Text) (field : Field) : TypeCase :=
  if c.isDefault types then ⟨addTo field c.default, c.records.map (addTo field)⟩
  else
    let c := c.register types
    { c with records := c.records.map fun record =>
      if covers types record.possibleTypes then addTo field record else record }

end TypeCase

/-- A field that is conditional if it was or if it stands under a condition. -/
def FieldHead.under (conditional : Bool) (head : FieldHead) : FieldHead :=
  { head with isConditional := head.isConditional || conditional }

mutual

/-- The case after a selection for some types, under a condition or not. -/
def Selection.walk (types : List Text) (conditional : Bool) (c : TypeCase) :
    Selection → Except LoweringError TypeCase
  | .field head nested => .ok (c.add types ⟨head.under conditional, nested⟩)
  | .typeCondition type none => .error (.bareTypeCondition type)
  | .typeCondition _ (some (.mk possibleTypes selections)) =>
    let narrowed := intersect possibleTypes types
    if narrowed.isEmpty then .ok c
    else walkAll narrowed conditional (c.register narrowed) selections
  | .booleanCondition variableName _ none => .error (.bareBooleanCondition variableName)
  | .booleanCondition _ _ (some (.mk _ selections)) => walkAll types true c selections
  | .spread _ _ _ => .ok c

/-- The case after selections one after the other. -/
def walkAll (types : List Text) (conditional : Bool) (c : TypeCase) :
    List Selection → Except LoweringError TypeCase
  | [] => .ok c
  | selection :: rest => do
    let c ← selection.walk types conditional c
    walkAll types conditional c rest

end

/-- The type case of a selection set. -/
def SelectionSet.typeCase (s : SelectionSet) : Except LoweringError TypeCase :=
  walkAll s.possibleTypes false (.start s.possibleTypes) s.selections

end Typed

end QueryCompiler
