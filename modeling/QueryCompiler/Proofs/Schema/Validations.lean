import QueryCompiler.Proofs.Schema.Closed

/-!
# Validations leave no trace

A validation writes the default roots into the schema, and it does so before it knows whether the
schema is right. Until the next validation the schema differs from what it would be without this
one; after it the two are the same, whatever was added and named in between.

* `changes`: the edits that are no validations.
* `edit_withDefaultRoots`: an edit has the same outcome before and after the default roots are
  chosen, and the schemas that it leaves have the same default roots.
* `withDefaultRoots_changes`: so a run of edits and its changes alone lead to schemas that are the
  same once the default roots are chosen.
* `edit_validate_changes`: the next validation ends alike after both.
-/

namespace QueryCompiler.Schema

/-- The edit adds to the schema or names a root of it: it is no validation. -/
def Edit.isChange : Edit → Bool
  | .add _ | .setRoot _ _ => true
  | .validate => false

/-- The edits without the validations among them. -/
def changes (edits : List Edit) : List Edit := edits.filter Edit.isChange

/-! ### Default roots that were chosen before -/

/-- A default root is still the default when there are more types. -/
theorem rootOr_rootOr {types types' : OrderedMap Text NamedType}
    (h : ∀ name ∈ types.keys, name ∈ types'.keys) (usual : Text) (named : Option Text) :
    rootOr types' usual (rootOr types usual named) = rootOr types' usual named := by
  cases named with
  | some name => rfl
  | none =>
    by_cases hu : types.contains usual = true
    · have hu' : types'.contains usual = true :=
        (types'.contains_iff usual).mpr (h usual ((types.contains_iff usual).mp hu))
      simp only [rootOr, hu, hu', if_true]
    · simp only [rootOr, hu, Bool.false_eq_true, if_false]

/-- Where there are more types, it does not matter whether default roots were chosen before. -/
theorem withDefaultRoots_of_types {s : Schema} {types : OrderedMap Text NamedType}
    (h : ∀ name ∈ s.types.keys, name ∈ types.keys) :
    withDefaultRoots { s.withDefaultRoots with types := types } =
      withDefaultRoots { s with types := types } := by
  simp only [withDefaultRoots, rootOr_rootOr h]

/-- A root that is named takes the place of a default one. -/
theorem withDefaultRoots_setRoot (s : Schema) (operation : OperationType) (name : Text) :
    (s.withDefaultRoots.setRoot operation name).withDefaultRoots =
      (s.setRoot operation name).withDefaultRoots := by
  cases operation <;> simp only [setRoot, withDefaultRoots, rootOr_idem]

/-- The checks on a new type read nothing but the types. -/
theorem add_withDefaultRoots (s : Schema) (t : NamedType) : s.withDefaultRoots.add t =
    (s.add t).map fun s' => { s.withDefaultRoots with types := s'.types } := by
  have htypes : s.withDefaultRoots.types = s.types := rfl
  rw [add, add, htypes]
  split_ifs <;> rfl

/-! ### Edits -/

/-- **An edit does not see whether the default roots have been chosen**: it succeeds or fails alike,
and what it leaves is the same once they are chosen. -/
theorem edit_withDefaultRoots (s : Schema) (e : Edit) :
    (s.withDefaultRoots.edit e).2 = (s.edit e).2 ∧
      (s.withDefaultRoots.edit e).1.withDefaultRoots = (s.edit e).1.withDefaultRoots := by
  cases e with
  | add t =>
    rw [edit, edit, add_withDefaultRoots]
    cases h : s.add t with
    | error e => exact ⟨rfl, withDefaultRoots_idem s⟩
    | ok s' =>
      obtain rfl := add_eq_ok h
      exact ⟨rfl, withDefaultRoots_of_types fun name hname =>
        OrderedMap.mem_keys_assign hname t.name t⟩
  | setRoot operation name => exact ⟨rfl, withDefaultRoots_setRoot s operation name⟩
  | validate =>
    rw [edit_validate, edit_validate, withDefaultRoots_idem]
    simp only [edit, validated, withDefaultRoots_idem, and_true]

/-- Schemas that are the same with their default roots are so after an edit, which has the same
outcome on both. -/
theorem edit_congr {s s' : Schema} (h : s.withDefaultRoots = s'.withDefaultRoots) (e : Edit) :
    (s.edit e).2 = (s'.edit e).2 ∧
      (s.edit e).1.withDefaultRoots = (s'.edit e).1.withDefaultRoots := by
  obtain ⟨houtcome, hschema⟩ := edit_withDefaultRoots s e
  obtain ⟨houtcome', hschema'⟩ := edit_withDefaultRoots s' e
  rw [h] at houtcome hschema
  exact ⟨houtcome.symm.trans houtcome', hschema.symm.trans hschema'⟩

/-- **A run and its changes lead to schemas that are the same with their default roots.** The
induction is on the edits, and the two runs start from schemas of which this holds: a validation is
a step of the one run only. -/
theorem withDefaultRoots_changes {s s' : Schema} (h : s.withDefaultRoots = s'.withDefaultRoots)
    (edits : List Edit) :
    (s.editAll edits).withDefaultRoots = (s'.editAll (changes edits)).withDefaultRoots := by
  induction edits generalizing s s' with
  | nil => exact h
  | cons e edits ih =>
    cases e with
    | add t => exact ih (edit_congr h (.add t)).2
    | setRoot operation name => exact ih (edit_congr h (.setRoot operation name)).2
    | validate =>
      refine ih (s := (s.edit .validate).1) ?_
      rw [edit_validate, withDefaultRoots_idem, h]

/-- **Earlier validations leave no trace.** Whatever types are added and roots are named from any
schema on, the fresh one above all, and whichever validations are tried in between, with success or
without: if these are left out, the validation at the end has the same outcome, success or the same
error, and it leaves the same schema, with the same types in the same order and the same roots. -/
theorem edit_validate_changes (s : Schema) (edits : List Edit) :
    (s.editAll edits).edit .validate = (s.editAll (changes edits)).edit .validate := by
  have hroots := withDefaultRoots_changes (s := s) rfl edits
  refine Prod.ext ?_ (edit_congr hroots .validate).1
  rw [edit_validate, edit_validate, hroots]

/-- Before the validation at the end the two schemas may differ. -/
example :
    let edits : List Edit := [.add { kind := .object, name := "Query" }, .validate]
    (initial.editAll edits).queryType = some "Query" ∧
      (initial.editAll (changes edits)).queryType = none := by
  decide +kernel

end QueryCompiler.Schema
