import QueryCompiler.Document.Printer
import QueryCompiler.Document.Typename
import QueryCompiler.Typed.Basic
import QueryCompiler.Typed.TypesUsed

/-!
# Resolving documents

A document is resolved against a schema into a typed program. Fragments come first, each of them
once and on demand: the first spread of a fragment resolves it, with the fragments it spreads in
turn, and later spreads share the result. A spread of a fragment that is still being resolved closes
a cycle.

Selections are resolved by recursion on the document, given what resolves a spread (`Resolve.all`).
Fragments are resolved by recursion on the definitions that are not yet open (`Resolve.fragment`).
-/

namespace QueryCompiler

/-- What is wrong with a document, seen from a schema. -/
inductive DocumentFault
  /-- Two fragments have one name. -/
  | duplicateFragment (name : Text)
  /-- An operation has no name. -/
  | anonymousOperation
  /-- Two operations have one name. -/
  | duplicateOperation (name : Text)
  /-- The schema has no root type for an operation. -/
  | noRootType (operation : OperationType)
  /-- A variable has a type that is no input type. -/
  | notAnInputVariable (name : Text) (type : TypeRef)
  /-- There is no such type. -/
  | unknownType (name : Text)
  /-- There is no such fragment. -/
  | unknownFragment (name : Text)
  /-- A fragment spreads itself, through the fragments of a list. -/
  | fragmentCycle (name : Text) (via : List Text)
  /-- Fragments spread one another too deep. -/
  | fragmentNesting (limit : Nat) (name : Text)
  /-- A fragment is on a type without fields. -/
  | fragmentOnLeaf (name type : Text)
  /-- An inline fragment is on a type without fields. -/
  | inlineOnLeaf (type : Text)
  /-- The type has no such field. -/
  | unknownField (name type : Text)
  /-- A field needs a selection set. -/
  | missingSelections (name : Text) (type : TypeRef)
  /-- Selection sets are nested too deep. -/
  | selectionNesting (limit : Nat) (responseKey : Text)
  /-- A field must not have a selection set. -/
  | unexpectedSelections (name : Text) (type : TypeRef)
  /-- A conditional directive has no condition. -/
  | missingCondition (directive : Text)
  /-- The condition of a directive is neither a boolean nor a variable. -/
  | badCondition (directive : Text)
  deriving DecidableEq

/-- The wording of a fault. -/
def DocumentFault.message : DocumentFault → Text
  | .duplicateFragment name => "There can be only one fragment named \"" ++ name ++ "\"."
  | .anonymousOperation =>
    "Anonymous operations are not supported; every operation must be named."
  | .duplicateOperation name => "There can be only one operation named \"" ++ name ++ "\"."
  | .noRootType operation => "Schema is not configured for " ++ operation.text ++ " operations."
  | .notAnInputVariable name type =>
    "Variable \"$" ++ name ++ "\" cannot be non-input type \"" ++ type.text ++ "\"."
  | .unknownType name => "Unknown type \"" ++ name ++ "\"."
  | .unknownFragment name => "Unknown fragment \"" ++ name ++ "\"."
  | .fragmentCycle name via =>
    "Cannot spread fragment \"" ++ name ++ "\" within itself" ++
      Text.wrap " via " (Text.joinNonEmpty ", " via) [] ++ "."
  | .fragmentNesting limit name =>
    "Fragment spreads nested deeper than " ++ Text.ofNat limit ++ " levels at fragment \"" ++ name ++
      "\"."
  | .fragmentOnLeaf name type =>
    "Fragment \"" ++ name ++ "\" cannot condition on non composite type \"" ++ type ++ "\"."
  | .inlineOnLeaf type => "Fragment cannot condition on non composite type \"" ++ type ++ "\"."
  | .unknownField name type =>
    "Cannot query field \"" ++ name ++ "\" on type \"" ++ type ++ "\"."
  | .missingSelections name type =>
    "Field \"" ++ name ++ "\" of type \"" ++ type.text ++ "\" must have a selection of subfields."
  | .selectionNesting limit responseKey =>
    "Selection sets nested deeper than " ++ Text.ofNat limit ++ " levels at field \"" ++
      responseKey ++ "\"."
  | .unexpectedSelections name type =>
    "Field \"" ++ name ++ "\" must not have a selection since type \"" ++ type.text ++
      "\" has no subfields."
  | .missingCondition directive =>
    "Directive \"@" ++ directive ++ "\" argument \"if\" of type \"Boolean!\" is required."
  | .badCondition directive =>
    "Argument \"if\" of \"@" ++ directive ++ "\" must be a Boolean literal or a variable."

/-- A document cannot be resolved: something is wrong at a place, or a number cannot be converted. -/
inductive ResolveError
  | document (fault : DocumentFault) (location : Location)
  | number (error : Document.RangeError)
  deriving DecidableEq

namespace Resolve

open Document (Value)
open Typed (FieldHead intersect)

/-- What a resolution has found so far. -/
structure Progress where
  /-- The fragments that are resolved, by name. -/
  fragments : OrderedMap Text Typed.Fragment
  /-- The types used, in the order in which they were met. -/
  typesUsed : List Text

/-- A step of a resolution. -/
abbrev Step (α : Type) := StateT Progress (Except ResolveError) α

/-- Fails at a place. -/
def fail {α : Type} (fault : DocumentFault) (location : Location) : Step α :=
  throw (.document fault location)

/-- What a resolution is about. -/
structure Context where
  /-- The schema. -/
  schema : Schema
  /-- The number of levels that selection sets, and that fragments, may nest. -/
  limit : Nat

variable (ctx : Context)

/-- The type of a name. -/
def lookupType (name : Text) (location : Location) : Step NamedType :=
  match ctx.schema.type? name with
  | some t => return t
  | none => fail (.unknownType name) location

/-- Brings a type into use. -/
def useType (name : Text) : Step Unit :=
  modify fun p => { p with typesUsed := ctx.schema.use p.typesUsed name }

/-! ### Conditions -/

/-- The directive makes its selection conditional. -/
def isCondition (d : Document.Directive) : Bool :=
  d.name == ("include" : Text) || d.name == ("skip" : Text)

/-- A selection under the conditions of its directives, the first one innermost. A literal keeps the
selection or drops it, whatever the directives after it say. -/
def underConditions (possibleTypes : List Text) (selection : Typed.Selection) :
    List Document.Directive → Except ResolveError (Option Typed.Selection)
  | [] => .ok (some selection)
  | d :: rest =>
    if isCondition d then
      let isSkip := d.name == ("skip" : Text)
      match d.arguments.find? fun a => a.name == ("if" : Text) with
      | none => .error (.document (.missingCondition d.name) d.location)
      | some argument =>
        match argument.value with
        | .boolean b =>
          if b = isSkip then .ok none else underConditions possibleTypes selection rest
        | .variable name =>
          underConditions possibleTypes
            (.booleanCondition name isSkip (some (.mk possibleTypes [selection]))) rest
        | _ => .error (.document (.badCondition d.name) d.location)
    else underConditions possibleTypes selection rest

/-! ### Fields -/

/-- The type of an argument: that of the last definition of its name. -/
def argumentType (definition : FieldDefinition) (name : Text) : Option TypeRef :=
  (definition.args.filter fun a => a.name == name).getLast?.map fun a => a.type

/-- An argument with its value and its type. -/
def argument (definition : FieldDefinition) (a : Document.Argument) : Step Typed.Argument := do
  match a.value.toJson with
  | .error e => throw (.number e)
  | .ok value => return ⟨a.name, value, argumentType definition a.name⟩

/-- A field without its selection set, and the type it has. -/
def fieldHead (parent : NamedType) (f : Document.Field) : Step (FieldHead × NamedType) := do
  match Schema.fieldDefinition parent f.name with
  | none => fail (.unknownField f.name parent.name) f.location
  | some definition =>
    let type ← lookupType ctx definition.type.namedType f.location
    useType ctx type.name
    let args ← f.arguments.mapM (argument definition)
    let described := !Schema.reservedStart.isPrefixOf f.name
    return ({
      responseKey := f.responseKey
      name := f.name
      aliasName := f.aliasName
      args
      type := definition.type
      description := if described then definition.description else none
      isDeprecated := definition.isDeprecated
      deprecationReason := definition.deprecationReason }, type)

/-- The possible types of the set inside a field, if it must have one; refuses a selection set where
there must be none, none where there must be one, and one that is nested too deep. -/
def nestedTypes (head : FieldHead) (type : NamedType) (hasSelections : Bool) (depth : Nat)
    (location : Location) : Step (Option (List Text)) :=
  if type.isComposite then
    if !hasSelections then fail (.missingSelections head.name head.type) location
    else if ctx.limit ≤ depth then fail (.selectionNesting ctx.limit head.responseKey) location
    else return some (ctx.schema.possibleTypesOf type)
  else if hasSelections then fail (.unexpectedSelections head.name head.type) location
  else return none

/-! ### Selections -/

/-- The type of an inline fragment: the one it names, or that of the set it stands in. -/
def inlineType (parent : NamedType) (f : Document.InlineFragment) : Step NamedType := do
  let type ← match f.typeCondition with
    | some name => lookupType ctx name f.location
    | none => pure parent
  if type.isComposite then return type else fail (.inlineOnLeaf type.name) f.location

/-- A spread of a fragment into a set with some possible types. -/
def spreadOf (possibleTypes : List Text) (f : Typed.Fragment) : Typed.Selection :=
  .spread f.name f.typeCondition
    (some (.mk (intersect possibleTypes f.possibleTypes)
      (f.selectionSet.elim [] Typed.SelectionSet.selections)))

mutual

/-- A selection in a set on a type with some possible types, at a depth of field selection sets that
is one for the root; nothing if a literal condition drops it. -/
def one (spread : Text → Location → Step Typed.Fragment) (parent : NamedType)
    (possibleTypes : List Text) (depth : Nat) :
    Document.Selection → Step (Option Typed.Selection)
  | .field f selections => do
    let (head, type) ← fieldHead ctx parent f
    let nested ← match ← nestedTypes ctx head type (!selections.isEmpty) depth f.location with
      | none => pure none
      | some types =>
        let inner ← all spread type types (depth + 1) selections
        pure (some (.mk types inner))
    underConditions possibleTypes (.field head nested) f.directives
  | .inline f selections => do
    let type ← inlineType ctx parent f
    let types := intersect (ctx.schema.possibleTypesOf type) possibleTypes
    let inner ← all spread type types depth selections
    underConditions possibleTypes (.typeCondition type.name (some (.mk types inner))) f.directives
  | .spread f => do
    let fragment ← spread f.name f.location
    underConditions possibleTypes (spreadOf possibleTypes fragment) f.directives

/-- The selections of a set, without those that are dropped. -/
def all (spread : Text → Location → Step Typed.Fragment) (parent : NamedType)
    (possibleTypes : List Text) (depth : Nat) :
    List Document.Selection → Step (List Typed.Selection)
  | [] => return []
  | selection :: rest => do
    let first ← one spread parent possibleTypes depth selection
    let others ← all spread parent possibleTypes depth rest
    return first.toList ++ others

end

/-! ### Fragments -/

/-- The definitions whose names are not open. -/
def closedDefinitions (definitions : List Document.Fragment) (opened : List Text) :
    List Document.Fragment :=
  definitions.filter fun d => !opened.contains d.name

theorem length_closedDefinitions_lt {definitions : List Document.Fragment} {opened : List Text}
    {name : Text} {d : Document.Fragment}
    (hd : definitions.find? (fun d => d.name == name) = some d) (hn : ¬ opened.contains name) :
    (closedDefinitions definitions (opened ++ [name])).length <
      (closedDefinitions definitions opened).length := by
  have hname : d.name = name := by simpa using List.find?_some hd
  have hmem : d ∈ closedDefinitions definitions opened := by
    simp [closedDefinitions, List.mem_of_find?_eq_some hd, hname] at hn ⊢
    exact hn
  have hsub : closedDefinitions definitions (opened ++ [name]) =
      (closedDefinitions definitions opened).filter fun d => !(d.name == name) := by
    unfold closedDefinitions
    rw [List.filter_filter]
    apply List.filter_congr
    intro e _
    by_cases h : e.name = name <;> simp [h]
  rw [hsub]
  refine List.length_filter_lt_length_iff_exists.mpr ⟨d, hmem, by simp [hname]⟩

/-- The names after the first occurrence of a name. -/
def after (name : Text) (names : List Text) : List Text :=
  (names.dropWhile fun n => n != name).tail

/-- The fragment of a definition, whose spreads are resolved by `spread`. -/
def ofDefinition (spread : Text → Location → Step Typed.Fragment) (d : Document.Fragment) :
    Step Typed.Fragment := do
  let type ← lookupType ctx d.typeCondition d.location
  if !type.isComposite then fail (.fragmentOnLeaf d.name type.name) d.location
  let possibleTypes := ctx.schema.possibleTypesOf type
  let selections ← all ctx spread type possibleTypes 1 d.selections
  let fragment : Typed.Fragment := {
    filePath := d.filePath
    name := d.name
    source := d.text
    typeCondition := type.name
    possibleTypes
    selectionSet := some (.mk possibleTypes selections) }
  modify fun p => { p with fragments := p.fragments.insert d.name fragment }
  return fragment

/-- The fragment of a name that is spread at a place, while the fragments of the names `opened` are
being resolved, the outermost first. -/
def fragment (definitions : List Document.Fragment) (opened : List Text) (name : Text)
    (location : Location) : Step Typed.Fragment := do
  match (← get).fragments.find? name with
  | some fragment => return fragment
  | none =>
    match _hd : definitions.find? fun d => d.name == name with
    | none => fail (.unknownFragment name) location
    | some d =>
      if _hn : opened.contains name then fail (.fragmentCycle name (after name opened)) location
      else if ctx.limit ≤ opened.length then fail (.fragmentNesting ctx.limit name) location
      else
        ofDefinition ctx (fun n l => fragment definitions (opened ++ [name]) n l) d
termination_by (closedDefinitions definitions opened).length
decreasing_by exact length_closedDefinitions_lt _hd _hn

/-! ### Operations -/

/-- A variable, whose type must be an input type. -/
def resolveVariable (location : Location) (v : Document.Variable) : Step Typed.Variable := do
  let type ← lookupType ctx v.type.namedType location
  if !type.isInput then fail (.notAnInputVariable v.name v.type) location
  useType ctx type.name
  return ⟨v.name, v.type⟩

/-- An operation, when some are resolved. -/
def operation (definitions : List Document.Fragment) (done : OrderedMap Text Typed.Operation)
    (o : Document.Operation) : Step (OrderedMap Text Typed.Operation) := do
  match o.name with
  | none => fail .anonymousOperation o.location
  | some name =>
    if done.contains name then fail (.duplicateOperation name) o.location
    match ctx.schema.rootType? o.operation with
    | none => fail (.noRootType o.operation) o.location
    | some root =>
      let vars ← o.variableDefinitions.mapM (resolveVariable ctx o.location)
      let types := ctx.schema.possibleTypesOf root
      let selections ← all ctx (fragment ctx definitions []) root types 1 o.selections
      return done.insert name {
        filePath := o.filePath
        name
        operation := o.operation
        rootType := root.name
        variableDefinitions := vars
        source := o.text
        selectionSet := some (.mk types selections) }

/-! ### Documents -/

/-- The first definition whose name an earlier one has. -/
def duplicate? : (names : List Text) → List Document.Fragment → Option Document.Fragment
  | _, [] => none
  | names, d :: rest => if names.contains d.name then some d else duplicate? (d.name :: names) rest

/-- All fragments and then all operations of a document. -/
def document (d : Document) : Step (OrderedMap Text Typed.Operation) := do
  match duplicate? [] d.fragments with
  | some f => fail (.duplicateFragment f.name) f.location
  | none =>
    d.fragments.forM fun f => discard (fragment ctx d.fragments [] f.name f.location)
    d.operations.foldlM (operation ctx d.fragments) ∅

/-- The fragments of a document in the order of their definitions. -/
def inDefinitionOrder (d : Document) (resolved : OrderedMap Text Typed.Fragment) :
    OrderedMap Text Typed.Fragment :=
  .ofList (d.fragments.filterMap fun f => (resolved.find? f.name).map fun r => (f.name, r))

end Resolve

namespace Typed

/-- The document that is resolved: with type names added if the options ask for them. -/
def prepared (d : Document) (options : CompilerOptions) : Document :=
  if options.addTypename then d.addTypename else d

/-- The program of a document. -/
def Program.ofDocument (schema : Schema) (d : Document) (options : CompilerOptions) :
    Except ResolveError Program := do
  let d := prepared d options
  let (operations, progress) ←
    (Resolve.document ⟨schema, options.maxSelectionDepth.toNat⟩ d).run ⟨∅, []⟩
  return {
    schema := some schema
    operations
    fragments := Resolve.inDefinitionOrder d progress.fragments
    typesUsed := progress.typesUsed
    options }

end Typed

end QueryCompiler
