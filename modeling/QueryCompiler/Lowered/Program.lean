import QueryCompiler.Digest.Sha256
import QueryCompiler.Lowered.Selections
import QueryCompiler.Typed.Resolve

/-!
# Lowering programs

Every operation and every fragment is lowered. An operation also gets the list of the fragments it
refers to, its text with theirs, and an id if the options ask for one.
-/

namespace QueryCompiler

/-- A document cannot be compiled: it cannot be resolved, or it cannot be lowered. -/
inductive CompileError
  | resolve (error : ResolveError)
  | lower (error : LoweringError)
  deriving DecidableEq

namespace Lowered

/-- The id of an operation: the digest of its text and those of its fragments. -/
def operationIdOf (source : Text) : Text := Sha256.hexDigest source

/-- The texts of the fragments that an operation refers to. -/
def fragmentSources (p : Typed.Program) (operation : Text) (names : List Text) :
    Except LoweringError (List Text) :=
  names.mapM fun name =>
    match p.fragments.find? name with
    | some fragment => .ok fragment.source
    | none => .error (.missingFragment name operation)

/-- The text of an operation and those of fragments, each on lines of its own. -/
def withFragments (source : Text) (fragments : List Text) : Text :=
  fragments.foldl (fun text fragment => text ++ Octet.lf :: fragment) source

/-- An operation of a program. -/
def Operation.ofTyped (steps : Steps) (p : Typed.Program) (o : Typed.Operation) :
    Except LoweringError Operation := do
  let some s := o.selectionSet | .error (.bareOperation o.name)
  let names := steps.collect s
  let sources ← fragmentSources p o.name names
  let source := withFragments o.source sources
  let id := if p.options.generateOperationIds then some (operationIdOf source) else none
  let body ← Lowered.body (.ofOptions steps p.options) s
  return {
    filePath := o.filePath
    name := o.name
    operation := o.operation
    rootType := o.rootType
    variableDefinitions := o.variableDefinitions
    source := o.source
    body
    fragmentsReferenced := names
    sourceWithFragments := source
    operationId := id }

/-- A fragment of a program. -/
def Fragment.ofTyped (steps : Steps) (p : Typed.Program) (f : Typed.Fragment) :
    Except LoweringError Fragment := do
  let some s := f.selectionSet | .error (.bareFragment f.name)
  let body ← Lowered.body (.ofOptions steps p.options) s
  return {
    filePath := f.filePath
    name := f.name
    source := f.source
    typeCondition := f.typeCondition
    possibleTypes := f.possibleTypes
    body }

/-- The entries of a map with their values lowered, in order. -/
def lowerEntries {α β : Type} (lower : α → Except LoweringError β) (m : OrderedMap Text α) :
    Except LoweringError (OrderedMap Text β) := do
  return .ofList (← m.entries.mapM fun e => do return (e.1, ← lower e.2))

namespace Program

/-- A program, lowered by the steps that are given. -/
def ofTypedWith (steps : Steps) (p : Typed.Program) : Except LoweringError Program := do
  let operations ← lowerEntries (Operation.ofTyped steps p) p.operations
  let fragments ← lowerEntries (Fragment.ofTyped steps p) p.fragments
  return {
    schema := p.schema
    operations
    fragments
    typesUsed := p.typesUsed
    options := p.options }

/-- A program, lowered. -/
def ofTyped (p : Typed.Program) : Except LoweringError Program := ofTypedWith {} p

/-- A document, resolved and lowered. -/
def ofDocument (schema : Schema) (d : Document) (options : CompilerOptions) :
    Except CompileError Program := do
  let p ← (Typed.Program.ofDocument schema d options).mapError .resolve
  (ofTyped p).mapError .lower

/-! ### Steps that may be missing -/

/-- The steps of a lowering, any of which may be missing. -/
structure PartialSteps where
  /-- Makes the type case of a selection set. -/
  partition : Option (Typed.SelectionSet → Except LoweringError Typed.TypeCase) :=
    some Typed.SelectionSet.typeCase
  /-- Lists the fragments that a selection set refers to. -/
  collect : Option (Typed.SelectionSet → List Text) := some Typed.SelectionSet.closure
  /-- Folds spread fragments into a selection set. -/
  merge : Option (Typed.SelectionSet → Typed.SelectionSet) := some Typed.SelectionSet.inlined

/-- The steps, if none is missing. -/
def PartialSteps.complete? (s : PartialSteps) : Option Steps := do
  return { partition := ← s.partition, collect := ← s.collect, merge := ← s.merge }

/-- A program, lowered if no step is missing. -/
def ofTypedIfComplete (steps : PartialSteps) (p : Typed.Program) : Except LoweringError Program :=
  match steps.complete? with
  | none => .error .missingStep
  | some steps => ofTypedWith steps p

end Program

end Lowered

end QueryCompiler
