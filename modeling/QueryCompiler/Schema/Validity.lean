import QueryCompiler.Schema.Basic

/-!
# Valid schemas

Every type that a schema refers to must be there and fit its place: roots are object types, fields
have output types, arguments and input fields have input types, only interfaces are implemented, and
the members of a union are object types. `Schema.violations` lists what is wrong, in the order of
the definitions; `Schema.validated` refuses a schema with the first of them.
-/

namespace QueryCompiler.Schema

/-- The root type that is named, or else the type of the usual name if there is one. -/
def rootOr (types : OrderedMap Text NamedType) (usual : Text) : Option Text → Option Text
  | some name => some name
  | none => if types.contains usual then some usual else none

/-- The schema in which the types with the usual names are the roots that are not named. -/
def withDefaultRoots (s : Schema) : Schema :=
  { s with
    queryType := rootOr s.types "Query" s.queryType
    mutationType := rootOr s.types "Mutation" s.mutationType
    subscriptionType := rootOr s.types "Subscription" s.subscriptionType }

/-- The type of the name has the kind. -/
def hasKind (s : Schema) (kind : TypeKind) (name : Text) : Bool :=
  (s.type? name).any fun t => t.kind == kind

/-- What is wrong with a root type. -/
def rootViolations (s : Schema) (operation : OperationType) : List SchemaError :=
  match s.rootName? operation with
  | none => if operation = .query then [.noQueryRoot] else []
  | some name => if s.hasKind .object name then [] else [.rootNotAnObject operation name]

/-- What is wrong with a reference to an output type. -/
def outputViolations (s : Schema) (type : TypeRef) (site : TypeSite) : List SchemaError :=
  match s.type? type.namedType with
  | none => [.unknownReference type.namedType site]
  | some t => if t.kind == .inputObject then [.notAnOutputType type site] else []

/-- What is wrong with a reference to an input type. -/
def inputViolations (s : Schema) (type : TypeRef) (site : TypeSite) : List SchemaError :=
  match s.type? type.namedType with
  | none => [.unknownReference type.namedType site]
  | some t => if t.isInput then [] else [.notAnInputType type site]

/-- What is wrong with a field of a type. -/
def fieldViolations (s : Schema) (type : Text) (field : FieldDefinition) : List SchemaError :=
  s.outputViolations field.type (.field type field.name) ++
    field.args.flatMap fun arg => s.inputViolations arg.type (.argument type field.name arg.name)

/-- What is wrong with a type. -/
def typeViolations (s : Schema) (name : Text) (t : NamedType) : List SchemaError :=
  t.fields.flatMap (s.fieldViolations name) ++
  t.inputFields.flatMap (fun f => s.inputViolations f.type (.inputField name f.name)) ++
  (t.interfaces.filter fun i => !s.hasKind .interface i).map (.notAnInterface name) ++
  (t.members.filter fun m => !s.hasKind .object m).map (.memberNotAnObject name)

/-- What is wrong with a schema, the roots first. -/
def violations (s : Schema) : List SchemaError :=
  [OperationType.query, .mutation, .subscription].flatMap s.rootViolations ++
    s.types.entries.flatMap fun e => s.typeViolations e.1 e.2

/-- The schema with its default roots, if nothing is wrong with it. -/
def validated (s : Schema) : Except SchemaError Schema :=
  match s.withDefaultRoots.violations with
  | [] => .ok s.withDefaultRoots
  | e :: _ => .error e

/-! ### Default roots -/

theorem rootOr_idem (types : OrderedMap Text NamedType) (usual : Text) (named : Option Text) :
    rootOr types usual (rootOr types usual named) = rootOr types usual named := by
  cases named with
  | some name => rfl
  | none =>
    by_cases h : types.contains usual = true
    · simp [rootOr, h]
    · simp [rootOr, h]

/-- **Default roots are chosen once.** -/
theorem withDefaultRoots_idem (s : Schema) :
    s.withDefaultRoots.withDefaultRoots = s.withDefaultRoots := by
  simp [withDefaultRoots, rootOr_idem]

/-- A schema that is accepted is the schema with its default roots. -/
theorem validated_eq {s s' : Schema} (h : s.validated = .ok s') : s' = s.withDefaultRoots := by
  unfold validated at h
  split at h
  · exact (Except.ok.inj h).symm
  · cases h

end QueryCompiler.Schema
