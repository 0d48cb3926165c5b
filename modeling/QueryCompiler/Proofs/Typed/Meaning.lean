import QueryCompiler.Typed.Resolve
import Mathlib.Data.List.Forall2

/-!
# The meaning of selection sets

On an object of a concrete type, and under an assignment of booleans to the variables, a selection
set stands for a list of fields. It is said twice:

* `Document.Selects`: the rules for documents. The conditions of a selection are evaluated, an inline
  fragment and a spread are entered if their type condition may be the type, and a spread stands for
  the selections of the definition of its name.
* `Typed.SelectionSet.reached`: the walk through a typed selection set, which carries the possible
  types of every part.

`Represents` relates the two, down to some depth of fields inside fields, and `Means` down to every
depth. A program lists the operations and fragments of its document, each of which means what the
document says there (`OperationMeans`, `FragmentMeans`).
-/

namespace QueryCompiler

/-- The object type `t` is one of those that the type of a name may stand for. -/
def Schema.IsPossible (s : Schema) (name t : Text) : Prop :=
  ∃ types, s.possibleTypes name = .ok types ∧ t ∈ types

namespace Document

/-! ### Documents -/

/-- The boolean that is given to a directive; none if it is not given one. -/
def Directive.condition? (assignment : Text → Bool) (d : Directive) : Option Bool :=
  (d.arguments.find? fun a => a.name == ("if" : Text)).bind fun a =>
    match a.value with
    | .boolean b => some b
    | .variable name => some (assignment name)
    | _ => none

/-- The directive does not keep its selection out. -/
def Directive.allows (assignment : Text → Bool) (d : Directive) : Bool :=
  if d.name = ("include" : Text) then d.condition? assignment != some false
  else if d.name = ("skip" : Text) then d.condition? assignment != some true
  else true

/-- The selection is selected: none of its directives keeps it out. -/
def Selection.isSelected (assignment : Text → Bool) (s : Selection) : Bool :=
  s.directives.all (Directive.allows assignment)

/-- A field of a document with its selection set. -/
abbrev FieldNode := Field × List Selection

section Rules
variable (schema : Schema) (definitions : List Fragment) (assignment : Text → Bool) (t : Text)

/-- **The fields that selections select** on an object of type `t`, in order. -/
inductive Selects : List Selection → List FieldNode → Prop
  | nil : Selects [] []
  | excluded {s rest fields} : s.isSelected assignment = false → Selects rest fields →
      Selects (s :: rest) fields
  | field {f selections rest fields} : (Selection.field f selections).isSelected assignment = true →
      Selects rest fields → Selects (.field f selections :: rest) ((f, selections) :: fields)
  | inlineAny {f selections rest inner fields} :
      (Selection.inline f selections).isSelected assignment = true → f.typeCondition = none →
      Selects selections inner → Selects rest fields →
      Selects (.inline f selections :: rest) (inner ++ fields)
  | inlineOn {f selections rest type inner fields} :
      (Selection.inline f selections).isSelected assignment = true → f.typeCondition = some type →
      schema.IsPossible type t → Selects selections inner → Selects rest fields →
      Selects (.inline f selections :: rest) (inner ++ fields)
  | inlineOff {f selections rest type fields} :
      (Selection.inline f selections).isSelected assignment = true → f.typeCondition = some type →
      ¬ schema.IsPossible type t → Selects rest fields →
      Selects (.inline f selections :: rest) fields
  | spreadOn {f rest d inner fields} : (Selection.spread f).isSelected assignment = true →
      definitions.find? (fun d => d.name == f.name) = some d →
      schema.IsPossible d.typeCondition t → Selects d.selections inner → Selects rest fields →
      Selects (.spread f :: rest) (inner ++ fields)
  | spreadOff {f rest d fields} : (Selection.spread f).isSelected assignment = true →
      definitions.find? (fun d => d.name == f.name) = some d →
      ¬ schema.IsPossible d.typeCondition t → Selects rest fields →
      Selects (.spread f :: rest) fields

variable {schema definitions assignment t}

/-- Selections select one list of fields at most. -/
theorem Selects.unique {selections : List Selection} {fields fields' : List FieldNode}
    (h : Selects schema definitions assignment t selections fields)
    (h' : Selects schema definitions assignment t selections fields') : fields = fields' := by
  induction h generalizing fields' with
  | nil => cases h'; rfl
  | excluded hs _ ih =>
    cases h' with
    | excluded _ hr => exact ih hr
    | field hs' _ => rw [hs] at hs'; cases hs'
    | inlineAny hs' _ _ _ => rw [hs] at hs'; cases hs'
    | inlineOn hs' _ _ _ _ => rw [hs] at hs'; cases hs'
    | inlineOff hs' _ _ _ => rw [hs] at hs'; cases hs'
    | spreadOn hs' _ _ _ _ => rw [hs] at hs'; cases hs'
    | spreadOff hs' _ _ _ => rw [hs] at hs'; cases hs'
  | field hs _ ih =>
    cases h' with
    | excluded hs' _ => rw [hs] at hs'; cases hs'
    | field _ hr => rw [ih hr]
  | inlineAny hs hc _ _ ih₁ ih₂ =>
    cases h' with
    | excluded hs' _ => rw [hs] at hs'; cases hs'
    | inlineAny _ _ hi hr => rw [ih₁ hi, ih₂ hr]
    | inlineOn _ hc' _ _ _ => rw [hc] at hc'; cases hc'
    | inlineOff _ hc' _ _ => rw [hc] at hc'; cases hc'
  | inlineOn hs hc hp _ _ ih₁ ih₂ =>
    cases h' with
    | excluded hs' _ => rw [hs] at hs'; cases hs'
    | inlineAny _ hc' _ _ => rw [hc] at hc'; cases hc'
    | inlineOn _ _ _ hi hr => rw [ih₁ hi, ih₂ hr]
    | inlineOff _ hc' hp' _ =>
      rw [hc] at hc'
      obtain rfl := Option.some.inj hc'
      exact absurd hp hp'
  | inlineOff hs hc hp _ ih =>
    cases h' with
    | excluded hs' _ => rw [hs] at hs'; cases hs'
    | inlineAny _ hc' _ _ => rw [hc] at hc'; cases hc'
    | inlineOn _ hc' hp' _ _ =>
      rw [hc] at hc'
      obtain rfl := Option.some.inj hc'
      exact absurd hp' hp
    | inlineOff _ _ _ hr => exact ih hr
  | spreadOn hs hd hp _ _ ih₁ ih₂ =>
    cases h' with
    | excluded hs' _ => rw [hs] at hs'; cases hs'
    | spreadOn _ hd' _ hi hr =>
      rw [hd] at hd'
      obtain rfl := Option.some.inj hd'
      rw [ih₁ hi, ih₂ hr]
    | spreadOff _ hd' hp' _ =>
      rw [hd] at hd'
      obtain rfl := Option.some.inj hd'
      exact absurd hp hp'
  | spreadOff hs hd hp _ ih =>
    cases h' with
    | excluded hs' _ => rw [hs] at hs'; cases hs'
    | spreadOn _ hd' hp' _ _ =>
      rw [hd] at hd'
      obtain rfl := Option.some.inj hd'
      exact absurd hp' hp
    | spreadOff _ _ _ hr => exact ih hr

/-- Selections that follow one another select the fields of both. -/
theorem Selects.append {first second : List Selection} {fields fields' : List FieldNode}
    (h : Selects schema definitions assignment t first fields)
    (h' : Selects schema definitions assignment t second fields') :
    Selects schema definitions assignment t (first ++ second) (fields ++ fields') := by
  induction h with
  | nil => exact h'
  | excluded hs _ ih => exact .excluded hs ih
  | field hs _ ih => exact .field hs ih
  | inlineAny hs hc hi _ _ ih => rw [List.append_assoc]; exact .inlineAny hs hc hi ih
  | inlineOn hs hc hp hi _ _ ih => rw [List.append_assoc]; exact .inlineOn hs hc hp hi ih
  | inlineOff hs hc hp _ ih => exact .inlineOff hs hc hp ih
  | spreadOn hs hd hp hi _ _ ih => rw [List.append_assoc]; exact .spreadOn hs hd hp hi ih
  | spreadOff hs hd hp _ ih => exact .spreadOff hs hd hp ih

end Rules

/-! ### Fields that are mentioned -/

/-- A field that selections mention, be it selected or not: in an inline fragment or through the
definition of a spread too. -/
inductive Mentions (definitions : List Fragment) : List Selection → FieldNode → Prop
  | field {f nested rest} : Mentions definitions (.field f nested :: rest) (f, nested)
  | inline {f nested rest node} : Mentions definitions nested node →
      Mentions definitions (.inline f nested :: rest) node
  | spread {f d rest node} : definitions.find? (fun d => d.name == f.name) = some d →
      Mentions definitions d.selections node → Mentions definitions (.spread f :: rest) node
  | later {s rest node} : Mentions definitions rest node → Mentions definitions (s :: rest) node

end Document

namespace Typed

/-! ### Typed selections -/

mutual

/-- The fields that an object of type `t` reaches in a selection under an assignment. -/
def Selection.reached (assignment : Text → Bool) (t : Text) : Selection → List Field
  | .field head nested => [⟨head, nested⟩]
  | .typeCondition _ none => []
  | .typeCondition _ (some (.mk types selections)) =>
    if t ∈ types then reachedByAll assignment t selections else []
  | .booleanCondition _ _ none => []
  | .booleanCondition name inverted (some (.mk _ selections)) =>
    if assignment name ≠ inverted then reachedByAll assignment t selections else []
  | .spread _ _ none => []
  | .spread _ _ (some (.mk types selections)) =>
    if t ∈ types then reachedByAll assignment t selections else []

/-- The fields that an object of type `t` reaches in selections one after the other. -/
def reachedByAll (assignment : Text → Bool) (t : Text) : List Selection → List Field
  | [] => []
  | s :: rest => s.reached assignment t ++ reachedByAll assignment t rest

end

/-- The fields that an object of type `t` reaches in a selection set under an assignment. -/
def SelectionSet.reached (s : SelectionSet) (assignment : Text → Bool) (t : Text) : List Field :=
  reachedByAll assignment t s.selections

mutual

/-- The fields of a selection, reached by some object or not. -/
def Selection.fields : Selection → List Field
  | .field head nested => [⟨head, nested⟩]
  | .typeCondition _ none => []
  | .typeCondition _ (some (.mk _ selections)) => fieldsOfAll selections
  | .booleanCondition _ _ none => []
  | .booleanCondition _ _ (some (.mk _ selections)) => fieldsOfAll selections
  | .spread _ _ none => []
  | .spread _ _ (some (.mk _ selections)) => fieldsOfAll selections

/-- The fields of selections, reached by some object or not. -/
def fieldsOfAll : List Selection → List Field
  | [] => []
  | s :: rest => s.fields ++ fieldsOfAll rest

end

/-! ### The two meanings agree -/

open Document (FieldNode Selects Mentions)

/-- A typed field says what a field of the document says; `inside` holds of their selection sets, on
the possible types of the field. -/
structure FieldOf (schema : Schema) (inside : List Document.Selection → SelectionSet → Prop)
    (f : Field) (node : FieldNode) : Prop where
  responseKey : f.head.responseKey = node.1.responseKey
  name : f.head.name = node.1.name
  aliasName : f.head.aliasName = node.1.aliasName
  args : List.Forall₂ (fun a (b : Document.Argument) => a.name = b.name ∧ b.value.toJson = .ok a.value)
    f.head.args node.1.arguments
  leaf : f.nested = none → node.2 = []
  nested : ∀ s, f.nested = some s →
    schema.possibleTypes f.head.type.namedType = .ok s.possibleTypes ∧ inside node.2 s

/-- **A typed selection set means what selections mean**, down to a depth of fields inside fields: on
each of its possible types and under each assignment the selections select one list of fields, and
the set reaches the same, one by one and in order; and each field of the set, reached or not, is one
that the selections mention. -/
def Represents (schema : Schema) (definitions : List Document.Fragment) :
    (depth : Nat) → List Document.Selection → SelectionSet → Prop
  | 0, _, _ => True
  | depth + 1, selections, s =>
    (∀ t ∈ s.possibleTypes, ∀ assignment, ∃ fields,
      (∀ l, Selects schema definitions assignment t selections l ↔ l = fields) ∧
        List.Forall₂ (FieldOf schema (Represents schema definitions depth))
          (s.reached assignment t) fields) ∧
    ∀ f ∈ fieldsOfAll s.selections, ∃ node, Mentions definitions selections node ∧
      FieldOf schema (Represents schema definitions depth) f node

/-- A typed selection set means what selections mean, down to every depth. -/
def Means (schema : Schema) (definitions : List Document.Fragment)
    (selections : List Document.Selection) (s : SelectionSet) : Prop :=
  ∀ depth, Represents schema definitions depth selections s

/-- An entry of the operations of a program means an operation of a document with some fragments. -/
structure OperationMeans (schema : Schema) (definitions : List Document.Fragment)
    (e : Text × Operation) (o : Document.Operation) : Prop where
  name : o.name = some e.1
  selections : ∃ root s, schema.rootType? o.operation = some root ∧ e.2.selectionSet = some s ∧
    s.possibleTypes = schema.possibleTypesOf root ∧ Means schema definitions o.selections s

/-- An entry of the fragments of a program means a fragment of a document with some fragments. -/
structure FragmentMeans (schema : Schema) (definitions : List Document.Fragment)
    (e : Text × Fragment) (f : Document.Fragment) : Prop where
  name : e.1 = f.name
  types : schema.possibleTypes f.typeCondition = .ok e.2.possibleTypes
  selections : ∃ s, e.2.selectionSet = some s ∧ s.possibleTypes = e.2.possibleTypes ∧
    Means schema definitions f.selections s

end Typed

end QueryCompiler
