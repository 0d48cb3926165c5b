import QueryCompiler.Proofs.Json.Members
import QueryCompiler.Proofs.Schema.Roots
import QueryCompiler.Proofs.Schema.Validations

/-!
# Malformed introspection results are contained

A loader of introspection results looks values up, asks for texts and goes through lists, and a value
may have another shape at every one of these accesses. What goes wrong while a result is read is
caught; what is looked up before that is looked up only where it is.

* `load`: the loader access by access. An access that fails ends it, unless the failure is caught.
* `load_of_some`, `load_of_none`: nothing fails before the result is read.
* `load_eq`: so it is `ofIntrospection`, which cannot fail by shape at all.
* `isChangedTo_read`: a result that is read is a run of edits of the fresh schema.
* `load_eq_malformed`: the failures that are caught are those that are reported as malformed.
* `load_contained`: a loader fails with an error of schemas, or gives a schema that was validated.
-/

namespace QueryCompiler.Schema

/-! ### Runs of changes -/

/-- The second schema is made from the first by adding types and naming roots. -/
def IsChangedTo (s s' : Schema) : Prop :=
  ∃ edits : List Edit, (∀ e ∈ edits, e.isChange = true) ∧ s.editAll edits = s'

theorem IsChangedTo.refl (s : Schema) : s.IsChangedTo s :=
  ⟨[], fun _ h => absurd h List.not_mem_nil, rfl⟩

theorem IsChangedTo.trans {s s' s'' : Schema} (h : s.IsChangedTo s') (h' : s'.IsChangedTo s'') :
    s.IsChangedTo s'' := by
  obtain ⟨edits, hedits, rfl⟩ := h
  obtain ⟨edits', hedits', rfl⟩ := h'
  exact ⟨edits ++ edits', fun e he => (List.mem_append.mp he).elim (hedits e) (hedits' e),
    editAll_append s edits edits'⟩

theorem isChangedTo_add {s s' : Schema} {t : NamedType} (h : s.add t = .ok s') :
    s.IsChangedTo s' := by
  refine ⟨[.add t], by simp [Edit.isChange], ?_⟩
  rw [editAll_cons, edit, h, editAll_nil]

theorem isChangedTo_setRoot (s : Schema) (operation : OperationType) (name : Text) :
    s.IsChangedTo (s.setRoot operation name) :=
  ⟨[.setRoot operation name], by simp [Edit.isChange], rfl⟩

/-- What every step of a traversal does by changes, the traversal does. -/
theorem isChangedTo_foldlM {ε α : Type} {f : Schema → α → Except ε Schema}
    (hf : ∀ s a s', f s a = .ok s' → s.IsChangedTo s') : ∀ {as : List α} {s s' : Schema},
    as.foldlM f s = .ok s' → s.IsChangedTo s'
  | [], s, _, h => by
    obtain rfl := Except.ok.inj h
    exact .refl s
  | a :: as, s, _, h => by
    rw [List.foldlM_cons] at h
    obtain ⟨s₁, h₁, h⟩ := Success.bind_eq_ok.mp h
    exact (hf s a s₁ h₁).trans (isChangedTo_foldlM hf h)

/-- What is wrong with a schema is not the shape of a value. -/
theorem ne_malformed_of_mem_violations {s : Schema} {e : SchemaError} (h : e ∈ s.violations) :
    e ≠ .malformedIntrospection := by
  rintro rfl
  simp only [violations, rootViolations, typeViolations, fieldViolations, outputViolations,
    inputViolations, List.mem_append, List.mem_flatMap, List.mem_map, List.mem_filter] at h
  grind

theorem failsOnly_validated (s : Schema) :
    Success.FailsOnly (fun e => e ≠ .malformedIntrospection) s.validated := by
  rw [validated]
  cases hv : s.withDefaultRoots.violations with
  | nil => exact Success.failsOnly_ok _
  | cons e rest =>
    exact Success.failsOnly_error (ne_malformed_of_mem_violations (hv ▸ List.mem_cons_self))

namespace Introspection

/-! ### The loader -/

/-- A computation in which an error of shape is caught, and reported as one of schemas. -/
def contained {α : Type} (r : Except ReadError α) : Except ReadError α :=
  r.mapError fun e => .schema e.report

/-- The loader access by access. What is under `data` and `__schema` is looked up before anything is
caught, and the schema is validated after that. -/
def load (j : Json) : Except ReadError Schema := do
  let root ← if j.hasMember "data" then shaped (j.member "data") else pure j
  if root.hasMember "__schema" then
    let result ← shaped (root.member "__schema")
    let made ← contained (read result)
    made.validated.mapError .schema
  else .error (.schema .noSchemaMember)

/-- **A member that is there is found.** -/
theorem shaped_member {j value : Json} {key : Text} (h : j.member? key = some value) :
    shaped (j.member key) = .ok value := by
  rw [Json.member_eq_ok.mpr h]
  rfl

/-- What is under `data` is looked up only if there is something. -/
theorem load_eq_of_payload (j : Json) : load j =
    if (payload j).hasMember "__schema" then
      shaped ((payload j).member "__schema") >>= fun result =>
        contained (read result) >>= fun made => made.validated.mapError .schema
    else .error (.schema .noSchemaMember) := by
  rw [load, payload]
  cases hdata : j.member? "data" with
  | none =>
    rw [Json.hasMember, hdata]
    rfl
  | some value =>
    rw [Json.hasMember, hdata, shaped_member hdata]
    rfl

theorem load_of_none {j : Json} (h : (payload j).member? "__schema" = none) :
    load j = .error (.schema .noSchemaMember) := by
  rw [load_eq_of_payload, Json.hasMember, h]
  rfl

theorem load_of_some {j result : Json} (h : (payload j).member? "__schema" = some result) :
    load j = contained (read result) >>= fun made => made.validated.mapError .schema := by
  rw [load_eq_of_payload, Json.hasMember, h, shaped_member h]
  rfl

/-- **The loader never fails by shape**: it fails with the errors of `ofIntrospection`. -/
theorem load_eq (j : Json) : load j = (ofIntrospection j).mapError .schema := by
  rw [ofIntrospection]
  cases h : (payload j).member? "__schema" with
  | none => exact load_of_none h
  | some result =>
    rw [load_of_some h]
    dsimp only
    cases read result <;> rfl

/-! ### What is read -/

/-- A result that is read is a run of edits. -/
theorem isChangedTo_read {result : Json} {made : Schema} (h : read result = .ok made) :
    initial.IsChangedTo made := by
  obtain ⟨types, -, h⟩ := Success.bind_eq_ok.mp h
  obtain ⟨s, hs, h⟩ := Success.bind_eq_ok.mp h
  refine (isChangedTo_foldlM (fun s j s' h => ?_) hs).trans
    (isChangedTo_foldlM (fun s root s' h => ?_) h)
  · rcases addType_eq_ok h with rfl | ⟨t, ht⟩
    · exact .refl s'
    · exact isChangedTo_add ht
  · rw [setRootFrom] at h
    split at h
    · exact Except.ok.inj h ▸ .refl s
    · exact Except.ok.inj h ▸ .refl s
    · obtain ⟨name, -, h⟩ := Success.bind_eq_ok.mp h
      exact Except.ok.inj h ▸ isChangedTo_setRoot s root.1 name

/-- A result is called malformed only for a shape that was met while it was read. -/
theorem load_eq_malformed {j : Json} : load j = .error (.schema .malformedIntrospection) ↔
    ∃ result e, (payload j).member? "__schema" = some result ∧ read result = .error (.shape e) := by
  constructor
  · intro h
    cases hpayload : (payload j).member? "__schema" with
    | none =>
      rw [load_of_none hpayload] at h
      cases h
    | some result =>
      rw [load_of_some hpayload] at h
      cases hread : read result with
      | ok made =>
        -- what is read is right in shape, and a schema is not found wrong in it
        have hvalidated : Success.FailsOnly (fun e => e ≠ .schema .malformedIntrospection)
            (made.validated.mapError ReadError.schema) :=
          (failsOnly_validated made).mapError fun e he hs => he (ReadError.schema.inj hs)
        rw [hread] at h
        exact absurd rfl (hvalidated _ h)
      | error e =>
        rw [hread] at h
        cases e with
        | shape e => exact ⟨result, e, rfl, hread⟩
        | schema e =>
          obtain rfl := ReadError.schema.inj (Except.error.inj h)
          exact absurd (failsOnly_read result _ hread) id
  · rintro ⟨result, e, hpayload, hread⟩
    rw [load_of_some hpayload, hread]
    rfl

/-- A schema that the loader gives was made by edits, of which the last one is a validation. -/
theorem exists_of_load {j : Json} {s : Schema} (h : load j = .ok s) :
    ∃ made, initial.IsChangedTo made ∧ made.edit .validate = (s, .ok ()) := by
  cases hpayload : (payload j).member? "__schema" with
  | none =>
    rw [load_of_none hpayload] at h
    cases h
  | some result =>
    rw [load_of_some hpayload] at h
    obtain ⟨made, hmade, hvalid⟩ := Success.bind_eq_ok.mp h
    have hvalid : made.validated = .ok s := Success.mapError_eq_ok.mp hvalid
    refine ⟨made, isChangedTo_read (Success.mapError_eq_ok.mp hmade), ?_⟩
    rw [edit, hvalid]

/-- **Malformed introspection results are contained.** Whatever the value is, the loader fails with an
error of schemas, or it gives a schema: one that types and roots were put into, and that was then
validated with success. So a failure by shape never gets out, although shapes do fail: a result is
called malformed exactly if one does while the result is read. -/
theorem load_contained (j : Json) :
    load j = (ofIntrospection j).mapError .schema ∧
      (∀ e, load j ≠ .error (.shape e)) ∧
      ((∃ e, load j = .error (.schema e)) ∨ ∃ made s, initial.IsChangedTo made ∧
        made.edit .validate = (s, .ok ()) ∧ load j = .ok s) ∧
      (load j = .error (.schema .malformedIntrospection) ↔ ∃ result e,
        (payload j).member? "__schema" = some result ∧ read result = .error (.shape e)) := by
  refine ⟨load_eq j, fun e => ?_, ?_, load_eq_malformed⟩
  · rw [load_eq]
    cases ofIntrospection j <;> exact fun h => by cases h
  · cases ho : ofIntrospection j with
    | error e =>
      left
      exact ⟨e, by rw [load_eq, ho]; rfl⟩
    | ok s =>
      have hload : load j = .ok s := by rw [load_eq, ho]; rfl
      obtain ⟨made, hchanged, hvalid⟩ := exists_of_load hload
      exact Or.inr ⟨made, s, hchanged, hvalid, hload⟩

/-- A number stands where a type should, and nothing is under `data`. -/
example : load (.ofMembers [("__schema", .ofMembers [("types", .int 1)])]) =
      .error (.schema .malformedIntrospection) ∧
    load (.ofMembers [("data", .null)]) = .error (.schema .noSchemaMember) := ⟨rfl, rfl⟩

end Introspection

end QueryCompiler.Schema
