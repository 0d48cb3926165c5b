import QueryCompiler.Typed.Basic

/-!
# Spread fragments

* `SelectionSet.closure`: the names of the fragments that are spread at any depth, each at its first
  occurrence. The selections of a fragment are walked once, at its first spread.
* `SelectionSet.inlined`: every spread becomes a type condition on the type of its fragment. Sets
  inside fields stay as they are.
-/

namespace QueryCompiler.Typed

/-! ### Closure -/

mutual

/-- The names found so far, and those that a selection set adds. -/
def SelectionSet.addSpreads (names : List Text) : SelectionSet → List Text
  | .mk _ selections => addSpreadsOfAll names selections

/-- The names found so far, and those that a selection adds. -/
def Selection.addSpreads (names : List Text) : Selection → List Text
  | .field _ nested => addSpreadsOfNested names nested
  | .typeCondition _ nested => addSpreadsOfNested names nested
  | .booleanCondition _ _ nested => addSpreadsOfNested names nested
  | .spread fragmentName _ nested =>
    if names.contains fragmentName then names
    else addSpreadsOfNested (names ++ [fragmentName]) nested

/-- The names found so far, and those that selections add one after the other. -/
def addSpreadsOfAll (names : List Text) : List Selection → List Text
  | [] => names
  | selection :: rest => addSpreadsOfAll (selection.addSpreads names) rest

/-- The names found so far, and those that a selection set adds if it is there. -/
def addSpreadsOfNested (names : List Text) : Option SelectionSet → List Text
  | none => names
  | some set => set.addSpreads names

end

/-- The fragments that a selection set spreads at any depth, in the order of their first spread. -/
def SelectionSet.closure (s : SelectionSet) : List Text := s.addSpreads []

/-! ### Inlining -/

mutual

/-- A selection set whose spreads are type conditions. -/
def SelectionSet.inlined : SelectionSet → SelectionSet
  | .mk possibleTypes selections => .mk possibleTypes (inlinedAll selections)

/-- A selection without spreads outside fields. -/
def Selection.inlined : Selection → Selection
  | .field head nested => .field head nested
  | .typeCondition type nested => .typeCondition type (inlinedNested nested)
  | .booleanCondition variableName inverted nested =>
    .booleanCondition variableName inverted (inlinedNested nested)
  | .spread _ type nested => .typeCondition type (inlinedNested nested)

/-- Selections without spreads outside fields. -/
def inlinedAll : List Selection → List Selection
  | [] => []
  | selection :: rest => selection.inlined :: inlinedAll rest

/-- The selection set, if it is there, without spreads outside fields. -/
def inlinedNested : Option SelectionSet → Option SelectionSet
  | none => none
  | some set => some set.inlined

end

end QueryCompiler.Typed
