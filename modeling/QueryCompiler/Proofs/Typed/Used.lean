import QueryCompiler.Proofs.Typed.Asked

/-!
# The types used by a program

A resolution changes the types used in one way only: it brings types of the schema into use, one
after the other (`Resolve.document_brings`). So they are all types of the schema
(`Typed.ofDocument_knows`), and so are the types of the variables (`Typed.ofDocument_variables`).
-/

namespace QueryCompiler

namespace Schema

/-- All names are those of types of the schema. -/
def Knows (s : Schema) (names : List Text) : Prop := ∀ name ∈ names, ∃ t, s.type? name = some t

theorem Knows.useAll {s : Schema} {used : List Text} (h : s.Knows used) (names : List Text) :
    s.Knows (s.useAll used names) :=
  have hlists : ∀ name, s.Lists name → ∃ t, s.type? name = some t := fun _ ⟨t, ht, _⟩ => ⟨t, ht⟩
  useAll_subset h ⟨fun name _ hl => hlists name hl, fun _ _ _ _ _ _ _ hl => hlists _ hl⟩

end Schema

namespace Resolve

/-! ### Variables -/

section Variables
variable {ctx : Context} {definitions : List Document.Fragment}

theorem resolveVariables_type {location : Location} : ∀ {vs : List Document.Variable}
    {rs : List Typed.Variable} {p p' : Progress},
    vs.mapM (resolveVariable ctx location) p = .ok (rs, p') →
    ∀ r ∈ rs, ∃ type, ctx.schema.type? r.type.namedType = some type
  | [], rs, p, p', h => by
    rw [List.mapM_nil] at h
    obtain ⟨rfl, -⟩ := pure_eq_ok.mp h
    exact List.forall_mem_nil _
  | v :: vs, rs, p, p', h => by
    obtain ⟨r, rs', p₁, hr, hrs, rfl⟩ := mapM_cons_eq_ok.mp h
    obtain ⟨type, htype, -, rfl, -⟩ := resolveVariable_ok hr
    exact List.forall_mem_cons.mpr ⟨⟨type, htype⟩, resolveVariables_type hrs⟩

theorem operations_variables : ∀ {os : List Document.Operation}
    {done done' : OrderedMap Text Typed.Operation} {p p' : Progress},
    os.foldlM (operation ctx definitions) done p = .ok (done', p') →
    (∀ e ∈ done.entries, ∀ v ∈ e.2.variableDefinitions,
      ∃ type, ctx.schema.type? v.type.namedType = some type) →
    ∀ e ∈ done'.entries, ∀ v ∈ e.2.variableDefinitions,
      ∃ type, ctx.schema.type? v.type.namedType = some type
  | [], done, done', p, p', h, hdone => by
    obtain ⟨rfl, -⟩ := pure_eq_ok.mp h
    exact hdone
  | o :: os, done, done', p, p', h, hdone => by
    rw [List.foldlM_cons] at h
    obtain ⟨done₁, p₁, ho, h⟩ := bind_eq_ok.mp h
    obtain ⟨name, root, vars, p₂, typed, -, hnew, -, hvars, -, rfl⟩ := operation_ok ho
    refine operations_variables h fun e he => ?_
    have hkey : name ∉ done.keys := by
      rw [← OrderedMap.contains_iff, hnew]
      exact Bool.false_ne_true
    rw [OrderedMap.entries_insert hkey] at he
    rcases List.mem_append.mp he with he | he
    · exact hdone e he
    · obtain rfl := List.mem_singleton.mp he
      exact resolveVariables_type hvars

end Variables

end Resolve

/-! ### Programs -/

namespace Typed

open Resolve

section Programs
variable {schema : Schema} {d : Document} {options : CompilerOptions} {program : Program}
  (h : Program.ofDocument schema d options = .ok program)
include h

/-- **The types used are types of the schema.** -/
theorem ofDocument_knows : program.schema = some schema ∧ schema.Knows program.typesUsed := by
  obtain ⟨⟨operations, p⟩, hrun, h⟩ := Success.bind_eq_ok.mp h
  obtain rfl := Except.ok.inj h
  obtain ⟨names, -, hused⟩ := document_brings hrun
  have hstart : schema.Knows [] := List.forall_mem_nil _
  refine ⟨rfl, ?_⟩
  rw [hused]
  exact hstart.useAll _

/-- The types of variables are types of the schema. -/
theorem ofDocument_variables : ∀ e ∈ program.operations.entries, ∀ v ∈ e.2.variableDefinitions,
    ∃ type, schema.type? v.type.namedType = some type := by
  obtain ⟨⟨operations, p⟩, hrun, h⟩ := Success.bind_eq_ok.mp h
  obtain rfl := Except.ok.inj h
  obtain ⟨-, p₁, -, hoperations⟩ := document_ok hrun
  exact operations_variables hoperations (List.forall_mem_nil _)

end Programs

end Typed

end QueryCompiler
