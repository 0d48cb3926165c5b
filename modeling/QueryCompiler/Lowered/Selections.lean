import QueryCompiler.Lowered.Basic
import QueryCompiler.Typed.Fragments
import QueryCompiler.Typed.TypeCase

/-!
# Lowering selection sets

A selection set is lowered by way of its type case, and the sets inside its fields in turn, down to
a limit of nested sets.

* `visibleSpreads`: the fragments that are spread on objects of some types.
* `typeCaseOf`: the case of a set, with spreads entered or not.
* `body`: a set and its type case become a body.
* `field`: a field and the sets inside it.
-/

namespace QueryCompiler

/-! ### Spreads -/

namespace Typed

mutual

/-- The spreads of a selection that an object of any of the types meets. -/
def Selection.visibleSpreads (types : List Text) : Selection → Except LoweringError (List Text)
  | .field _ _ => .ok []
  | .spread fragmentName _ _ => .ok [fragmentName]
  | .typeCondition type none => .error (.bareTypeCondition type)
  | .typeCondition _ (some (.mk possibleTypes selections)) =>
    if covers possibleTypes types then visibleSpreadsOfAll types selections else .ok []
  | .booleanCondition variableName _ none => .error (.bareBooleanCondition variableName)
  | .booleanCondition _ _ (some (.mk _ selections)) => visibleSpreadsOfAll types selections

/-- The spreads of selections one after the other. -/
def visibleSpreadsOfAll (types : List Text) : List Selection → Except LoweringError (List Text)
  | [] => .ok []
  | selection :: rest => do
    let first ← selection.visibleSpreads types
    return first ++ (← visibleSpreadsOfAll types rest)

end

/-- The fragments that a selection set spreads, outside the sets of fields, on objects of any of the
types; a type condition counts if it covers all of them. -/
def SelectionSet.visibleSpreads (s : SelectionSet) (types : List Text) :
    Except LoweringError (List Text) :=
  visibleSpreadsOfAll types s.selections

/-- The fragments that a selection set spreads on objects of any possible type. -/
def SelectionSet.spreads (s : SelectionSet) : Except LoweringError (List Text) :=
  s.visibleSpreads s.possibleTypes

end Typed

namespace Lowered

open Typed (SelectionSet TypeCase TypeRecord covers)

/-- The steps of a lowering that may be exchanged. -/
structure Steps where
  /-- Makes the type case of a selection set. -/
  partition : SelectionSet → Except LoweringError TypeCase := SelectionSet.typeCase
  /-- Lists the fragments that a selection set refers to. -/
  collect : SelectionSet → List Text := SelectionSet.closure
  /-- Folds spread fragments into a selection set. -/
  merge : SelectionSet → SelectionSet := SelectionSet.inlined

/-- How selection sets are lowered. -/
structure Settings where
  /-- The steps. -/
  steps : Steps := {}
  /-- Whether the fields of spread fragments take part in a type case. -/
  mergeSpreads : Bool
  /-- The number of levels of selection sets that are accepted. -/
  limit : Nat

/-- The settings that compiler options ask for. -/
def Settings.ofOptions (steps : Steps) (options : CompilerOptions) : Settings where
  steps
  mergeSpreads := options.mergeInFieldsFromFragmentSpreads
  limit := options.maxSelectionDepth.toNat

variable (settings : Settings)

/-- The type case of a selection set. -/
def typeCaseOf (s : SelectionSet) : Except LoweringError TypeCase :=
  settings.steps.partition (if settings.mergeSpreads then settings.steps.merge s else s)

/-- A record adds no code: its types are all the possible types, or it has no fields. -/
def addsNothing (s : SelectionSet) (record : TypeRecord) : Bool :=
  covers record.possibleTypes s.possibleTypes || record.fields.isEmpty

/-- The inline fragments of a record, one for each of its types. -/
def inlineFragments (lowerField : Typed.Field → Except LoweringError Field) (s : SelectionSet)
    (record : TypeRecord) : Except LoweringError (List InlineFragment) := do
  let fields ← record.fields.mapM lowerField
  let spreads ← s.visibleSpreads record.possibleTypes
  return record.possibleTypes.map fun type => .mk type [type] fields spreads

/-- The body of a selection set with a type case, whose fields are lowered by a function. -/
def bodyOf (lowerField : Typed.Field → Except LoweringError Field) (s : SelectionSet)
    (typeCase : TypeCase) : Except LoweringError Body := do
  let fields ← typeCase.default.fields.mapM lowerField
  let records := typeCase.records.filter fun record => !addsNothing s record
  let inline ← records.mapM (inlineFragments lowerField s)
  return .mk fields (← s.spreads) inline.flatten

/-- What a field says besides its body. -/
def headOf (head : Typed.FieldHead) : FieldHead where
  responseName := head.responseKey
  fieldName := head.name
  type := head.type
  args := head.args
  isConditional := head.isConditional
  description := head.description
  isDeprecated := head.isDeprecated
  deprecationReason := head.deprecationReason

/-- A field, with at most `levels` levels of selection sets inside it. -/
def fieldWithin : (levels : Nat) → Typed.Field → Except LoweringError Field
  | _, ⟨head, none⟩ => .ok (.mk (headOf head) none)
  | 0, ⟨head, some _⟩ => .error (.selectionNesting settings.limit head.responseKey)
  | levels + 1, ⟨head, some s⟩ => do
    let typeCase ← typeCaseOf settings s
    let body ← bodyOf (fieldWithin levels) s typeCase
    return .mk (headOf head) (some body)

/-- A field of a root selection set. -/
def field (f : Typed.Field) : Except LoweringError Field :=
  fieldWithin settings (settings.limit - 1) f

/-- A root selection set with a given type case. -/
def bodyWith (s : SelectionSet) (typeCase : TypeCase) : Except LoweringError Body :=
  bodyOf (field settings) s typeCase

/-- A root selection set. -/
def body (s : SelectionSet) : Except LoweringError Body := do
  bodyWith settings s (← typeCaseOf settings s)

end Lowered

end QueryCompiler
