import QueryCompiler.Schema.Validity

/-!
# Edits of a schema

A schema is made by edits: types are added, root types are named, and the whole is validated. An
edit that fails changes nothing, except that a validation leaves the default roots behind, whether
it fails or not (`edit_validate`).
-/

namespace QueryCompiler.Schema

/-- An edit of a schema. -/
inductive Edit
  /-- A type is added. -/
  | add (t : NamedType)
  /-- A root type is named. -/
  | setRoot (operation : OperationType) (name : Text)
  /-- The schema is validated. -/
  | validate

/-- The schema after an edit, and whether the edit has failed. -/
def edit (s : Schema) : Edit → Schema × Except SchemaError Unit
  | .add t =>
    match s.add t with
    | .ok s' => (s', .ok ())
    | .error e => (s, .error e)
  | .setRoot operation name => (s.setRoot operation name, .ok ())
  | .validate =>
    match s.validated with
    | .ok s' => (s', .ok ())
    | .error e => (s.withDefaultRoots, .error e)

/-- The schema after edits, of which some may have failed. -/
def editAll (s : Schema) (edits : List Edit) : Schema := edits.foldl (fun s e => (s.edit e).1) s

@[simp] theorem edit_validate (s : Schema) : (s.edit .validate).1 = s.withDefaultRoots := by
  show (match s.validated with
    | .ok s' => (s', .ok ())
    | .error e => (s.withDefaultRoots, .error e) : Schema × Except SchemaError Unit).1 = _
  cases h : s.validated with
  | ok s' => exact validated_eq h
  | error e => rfl

@[simp] theorem editAll_nil (s : Schema) : s.editAll [] = s := rfl

@[simp] theorem editAll_cons (s : Schema) (e : Edit) (edits : List Edit) :
    s.editAll (e :: edits) = (s.edit e).1.editAll edits := rfl

theorem editAll_append (s : Schema) (first second : List Edit) :
    s.editAll (first ++ second) = (s.editAll first).editAll second := List.foldl_append

end QueryCompiler.Schema
