import QueryCompiler.Schema.Basic

/-!
# The types that code generators must know

Enums, input objects and scalars that are not built in count as used when a variable or a selected
field has them, and so do those that the fields of a used input object have. Types are listed in the
order in which a walk from the first one meets them, an input object before the types of its fields.
-/

namespace QueryCompiler.Schema

/-- A type that is listed when it is used. -/
def isListed (t : NamedType) : Bool :=
  t.kind == .enum || t.kind == .inputObject || (t.kind == .scalar && !isBuiltInScalar t.name)

/-- The types that come into use with a type. -/
def typesBelow (t : NamedType) : List Text :=
  if t.kind = .inputObject then t.inputFields.map fun f => f.type.namedType else []

/-- The names of the schema that are not among the types used. -/
def unused (s : Schema) (used : List Text) : List Text :=
  s.types.keys.filter fun name => !used.contains name

theorem length_unused_lt (s : Schema) {used : List Text} {name : Text} {t : NamedType}
    (hn : used.contains name = false) (ht : s.type? name = some t) :
    (s.unused (used ++ [name])).length < (s.unused used).length := by
  have hk : name ∈ s.types.keys :=
    (OrderedMap.find?_isSome _ _).mp (by rw [show s.types.find? name = some t from ht]; rfl)
  have hsub : s.unused (used ++ [name]) = (s.unused used).filter fun n => !(n == name) := by
    unfold unused
    rw [List.filter_filter]
    apply List.filter_congr
    intro n _
    by_cases h : n = name <;> simp [h]
  rw [hsub]
  have hmem : name ∈ s.unused used := by simpa [unused, hk] using hn
  generalize s.unused used = l at hmem
  induction l with
  | nil => cases hmem
  | cons a l ih =>
    by_cases h : a = name
    · subst h
      simp only [List.filter_cons, beq_self_eq_true, Bool.not_true, Bool.false_eq_true, ↓reduceIte,
        List.length_cons]
      exact Nat.lt_succ_of_le (List.length_filter_le _ _)
    · have hl : name ∈ l := by
        rcases List.mem_cons.mp hmem with rfl | hl
        · exact absurd rfl h
        · exact hl
      have := ih hl
      simp only [List.filter_cons, List.length_cons]
      split <;> simp_all

/-- The types used, when those of a list of names come into use after those used so far. -/
def useAll (s : Schema) (used : List Text) : (names : List Text) → List Text
  | [] => used
  | name :: names =>
    if _hn : used.contains name then useAll s used names
    else
      match _ht : s.type? name with
      | none => useAll s used names
      | some t =>
        if isListed t then useAll s (used ++ [name]) (typesBelow t ++ names)
        else useAll s used names
termination_by names => ((s.unused used).length, names.length)
decreasing_by
  · exact Prod.Lex.right _ (by simp)
  · exact Prod.Lex.right _ (by simp)
  · exact Prod.Lex.left _ _ (length_unused_lt s (by simpa using _hn) _ht)
  · exact Prod.Lex.right _ (by simp)

/-- The types used, when one more type comes into use. -/
def use (s : Schema) (used : List Text) (name : Text) : List Text := s.useAll used [name]

end QueryCompiler.Schema
