import QueryCompiler.Document.Parser
import QueryCompiler.Proofs.Lowered.Within
import QueryCompiler.Proofs.TypeCase.Coarsest
import QueryCompiler.Proofs.Typed.Made
import QueryCompiler.Schema.Definitions
import Mathlib.Data.List.Nodup

/-!
# One inline fragment for each type

A body has an inline fragment for every type of every record of its type case. The records are
disjoint, and each of them is taken from the possible types of one condition, in their order. So a
body has two inline fragments on one type only if some list of possible types repeats the type.
Implementers are never repeated, but the members of a union may be: such a schema is accepted, and
there are bodies with two inline fragments on one type (`inlineFragments_not_nodup`). This is the only
reason for such a body (`repeated_inlineFragment`).
-/

namespace QueryCompiler

namespace Schema

/-- A union of the schema names the member more than once. -/
def Repeats (s : Schema) (name : Text) : Prop :=
  ∃ e ∈ s.types.entries, e.2.kind = .union ∧ 1 < e.2.members.count name

instance (s : Schema) (name : Text) : Decidable (s.Repeats name) :=
  inferInstanceAs (Decidable (∃ e ∈ s.types.entries, e.2.kind = .union ∧ 1 < e.2.members.count name))

/-- **No type of a schema stands for another one twice**, unless a union repeats that one. -/
theorem count_possibleTypesOf {s : Schema} {member : Text} (h : ¬ s.Repeats member) {name : Text}
    {t : NamedType} (ht : s.type? name = some t) : (s.possibleTypesOf t).count member ≤ 1 := by
  unfold possibleTypesOf
  split
  case h_1 => exact List.count_le_length
  case h_2 hkind => exact Nat.not_lt.mp fun hlt => h ⟨_, OrderedMap.mem_of_find? ht, hkind, hlt⟩
  case h_3 =>
    exact List.nodup_iff_count_le_one.mp
      ((List.filter_sublist.map Prod.fst).nodup s.types.nodup_keys) member
  case h_4 => exact Nat.zero_le 1

end Schema

namespace Typed

/-! ### Lists of possible types -/

mutual

theorem Selection.occurs_of_mem_typeLists {types : List Text} : ∀ {s : Selection},
    types ∈ s.typeLists → ∃ x set, Occurs x [s] ∧ x.nested = some set ∧ set.possibleTypes = types
  | .field _ _, h => occurs_of_mem_typeListsOfNested rfl h
  | .typeCondition _ _, h => occurs_of_mem_typeListsOfNested rfl h
  | .booleanCondition _ _ _, h => occurs_of_mem_typeListsOfNested rfl h
  | .spread _ _ _, h => occurs_of_mem_typeListsOfNested rfl h

theorem occurs_of_mem_typeListsOfNested {types : List Text} {s : Selection} :
    ∀ {nested : Option SelectionSet}, s.nested = nested → types ∈ typeListsOfNested nested →
      ∃ x set, Occurs x [s] ∧ x.nested = some set ∧ set.possibleTypes = types
  | none, _, h => by cases h
  | some (.mk possibleTypes selections), hs, h => by
    rcases List.mem_cons.mp h with rfl | h
    · exact ⟨s, _, .here, hs, rfl⟩
    · obtain ⟨x, set, hx, hset⟩ := occurs_of_mem_typeListsOfAll h
      exact ⟨x, set, .inside hs hx, hset⟩

/-- The lists of selections are the possible types of sets that occur among them. -/
theorem occurs_of_mem_typeListsOfAll {types : List Text} : ∀ {selections : List Selection},
    types ∈ typeListsOfAll selections →
      ∃ x set, Occurs x selections ∧ x.nested = some set ∧ set.possibleTypes = types
  | s :: rest, h => by
    rcases List.mem_append.mp h with h | h
    · obtain ⟨x, set, hx, hset⟩ := s.occurs_of_mem_typeLists h
      exact ⟨x, set, occurs_append.mpr (Or.inl hx), hset⟩
    · obtain ⟨x, set, hx, hset⟩ := occurs_of_mem_typeListsOfAll h
      exact ⟨x, set, .later hx, hset⟩

end

mutual

theorem Selection.typeLists_inlined : ∀ s : Selection, s.inlined.typeLists = s.typeLists
  | .field _ _ => rfl
  | .typeCondition _ nested => typeListsOfNested_inlined nested
  | .booleanCondition _ _ nested => typeListsOfNested_inlined nested
  | .spread _ _ nested => typeListsOfNested_inlined nested

theorem typeListsOfNested_inlined : ∀ nested : Option SelectionSet,
    typeListsOfNested (inlinedNested nested) = typeListsOfNested nested
  | none => rfl
  | some (.mk possibleTypes selections) =>
    congrArg (possibleTypes :: ·) (typeListsOfAll_inlined selections)

/-- Spreads that become type conditions keep their possible types. -/
theorem typeListsOfAll_inlined : ∀ selections : List Selection,
    typeListsOfAll (inlinedAll selections) = typeListsOfAll selections
  | [] => rfl
  | s :: rest => congrArg₂ (· ++ ·) s.typeLists_inlined (typeListsOfAll_inlined rest)

end

/-- The parts of a type case are taken from the possible types of conditions. -/
theorem walk_drawn {types : List Text} {selections : List Selection} {c : TypeCase}
    (h : walkAll types false (.start types) selections = .ok c) :
    ∀ part ∈ c.parts, Drawn (typeListsOfAll selections) part := by
  have hd : (TypeCase.start types).isDefault types = true := covers_iff.mpr fun _ ht => ht
  exact walkAll_drawn (TypeCase.valid_start _) (fun _ ht => ht) (fun part hp => by cases hp)
    (Or.inl hd) (fun narrowed hn => conditionTypesOfAll_drawn hn) h

end Typed

namespace Lowered

open Typed

/-- The parts of the case of a set that is lowered are taken from lists of possible types in it. -/
theorem typeCaseOf_drawn {spreads : Bool} {limit : Nat} {s : SelectionSet} {c : TypeCase}
    (h : typeCaseOf ⟨{}, spreads, limit⟩ s = .ok c) :
    ∀ part ∈ c.parts, Drawn (typeListsOfAll s.selections) part := by
  obtain ⟨types, selections⟩ := s
  cases spreads with
  | false => exact walk_drawn h
  | true =>
    show ∀ part ∈ c.parts, Drawn (typeListsOfAll selections) part
    rw [← typeListsOfAll_inlined]
    exact walk_drawn h

/-! ### Bodies -/

/-- The inline fragments of a body are on the types of records of its case, record by record. -/
theorem typeConditions_bodyOf {lowerField : Typed.Field → Except LoweringError Field}
    {s : SelectionSet} {c : TypeCase} {b : Body} (h : bodyOf lowerField s c = .ok b) :
    b.inlineFragments.map InlineFragment.typeCondition =
      (c.records.filter fun r => !addsNothing s r).flatMap TypeRecord.possibleTypes := by
  obtain ⟨-, -, groups, hgroups, he⟩ := bodyOf_eq_ok h
  rw [he, List.map_flatten, List.flatMap]
  congr 1
  rw [← List.forall₂_eq_eq_eq, List.forall₂_map_left_iff, List.forall₂_map_right_iff]
  refine (Success.mapM_eq_ok.mp hgroups).flip.imp fun group r hr => ?_
  obtain ⟨fields, -, hr⟩ := Success.bind_eq_ok.mp hr
  obtain ⟨found, -, hr⟩ := Success.bind_eq_ok.mp hr
  obtain rfl := Except.ok.inj hr
  rw [List.map_map]
  exact List.map_id _

/-- Records that are apart have a type once between them, if each of them does. -/
theorem count_flatMap_le_one {t : Text} : ∀ {records : List TypeRecord},
    records.Pairwise (fun r r' => Apart r.possibleTypes r'.possibleTypes) →
    (∀ r ∈ records, r.possibleTypes.count t ≤ 1) →
      (records.flatMap TypeRecord.possibleTypes).count t ≤ 1
  | [], _, _ => Nat.zero_le 1
  | r :: rest, hapart, hcount => by
    rw [List.pairwise_cons] at hapart
    rw [List.forall_mem_cons] at hcount
    rw [List.flatMap_cons, List.count_append]
    by_cases ht : t ∈ r.possibleTypes
    · have hrest : t ∉ rest.flatMap TypeRecord.possibleTypes := fun hmem => by
        obtain ⟨r', hr', ht'⟩ := List.mem_flatMap.mp hmem
        exact hapart.1 r' hr' t ht ht'
      rw [List.count_eq_zero_of_not_mem hrest]
      exact hcount.1
    · rw [List.count_eq_zero_of_not_mem ht, Nat.zero_add]
      exact count_flatMap_le_one hapart.2 hcount.2

/-- **A body has one inline fragment on a type** if no list of possible types in its set repeats the
type. -/
theorem Body.MadeFrom.count_le_one {spreads : Bool} {limit : Nat} {s : SelectionSet} {b : Body}
    (h : b.MadeFrom spreads limit s) {t : Text} (hlists : ∀ x set, Occurs x s.selections →
      x.nested = some set → set.possibleTypes.count t ≤ 1) :
    (b.inlineFragments.map InlineFragment.typeCondition).count t ≤ 1 := by
  obtain ⟨levels, c, hc, hb⟩ := h
  have hdisjoint := (caseFor_typeCaseOf hc).valid.disjoint
  rw [TypeCase.parts, List.pairwise_map] at hdisjoint
  rw [typeConditions_bodyOf hb]
  refine count_flatMap_le_one (hdisjoint.filter _) fun r hr => ?_
  have hpart : r.possibleTypes ∈ c.parts := List.mem_map_of_mem (List.mem_filter.mp hr).1
  obtain ⟨types, ht, hsub⟩ := typeCaseOf_drawn hc _ hpart
  obtain ⟨x, set, hx, hset, rfl⟩ := occurs_of_mem_typeListsOfAll ht
  exact (hsub.count_le t).trans (hlists x set hx hset)

/-! ### Programs -/

/-- **Two inline fragments are on one type only if a union of the schema repeats the type.** In the
body of every compiled operation, of every compiled fragment and of every field inside them, at any
depth, the inline fragments are on distinct types if no union names a member twice. -/
theorem repeated_inlineFragment {schema : Schema} {d : Document} {options : CompilerOptions}
    {program : Program} (h : Program.ofDocument schema d options = .ok program) {b : Body}
    (hb : program.Has b) :
    (∀ t, 1 < (b.inlineFragments.map InlineFragment.typeCondition).count t → schema.Repeats t) ∧
      ((∀ t, ¬ schema.Repeats t) → (b.inlineFragments.map InlineFragment.typeCondition).Nodup) := by
  obtain ⟨p, root, set, hp, hroot, hmade, hoccurs⟩ := hb.made h
  have hcount : ∀ t, ¬ schema.Repeats t →
      (b.inlineFragments.map InlineFragment.typeCondition).count t ≤ 1 := by
    intro t ht
    have hm : Resolve.Makes ⟨schema, options.maxSelectionDepth.toNat⟩ (fun _ => True)
        fun types => types.count t ≤ 1 :=
      ⟨fun htype => Schema.count_possibleTypesOf ht htype, fun h hs => (hs.count_le t).trans h,
        fun _ _ => trivial⟩
    exact hmade.count_le_one fun x set hx hset =>
      (ofDocument_made hp hm hroot (hoccurs x hx)).types set hset
  refine ⟨fun t hlt => ?_, fun hnone => List.nodup_iff_count_le_one.mpr fun t => hcount t (hnone t)⟩
  by_contra ht
  exact absurd hlt (Nat.not_lt.mpr (hcount t ht))

/-- A union of two objects, and another one that names the first twice. -/
def unionSchemaText : Text :=
  Text.ofString "type Query { u: U } type A { x: Int } type B { y: Int } " ++
    Text.ofString "union U=A|B union V=A|A"

/-- A type condition inside a field of the first union. -/
def conditionSource (type : Text) : Text :=
  Text.ofString "query Q\x7bu\x7b... on " ++ type ++ Text.ofString "\x7b__typename\x7d\x7d\x7d"

/-- The types of the inline fragments inside the first field of the first operation. -/
def firstConditions (program : Program) : Option (List Text) := do
  let e ← program.operations.entries.head?
  let f ← e.2.body.fields.head?
  let b ← f.body
  return b.inlineFragments.map InlineFragment.typeCondition

theorem exists_of_firstConditions {program : Program} {types : List Text}
    (h : firstConditions program = some types) : ∃ b, program.Has b ∧
      b.inlineFragments.map InlineFragment.typeCondition = types := by
  obtain ⟨e, he, h⟩ := Option.bind_eq_some_iff.mp h
  obtain ⟨f, hf, h⟩ := Option.bind_eq_some_iff.mp h
  obtain ⟨b, hb, h⟩ := Option.bind_eq_some_iff.mp h
  refine ⟨b, Or.inl ⟨e, List.mem_of_head? he, ?_⟩, Option.some.inj h⟩
  exact .inside (List.mem_append_left _ (List.mem_of_head? hf)) hb .refl

/-- The schema, and the document with a condition on a type. -/
def readUnions (type : Text) : Option (Schema × Document) := do
  return (← (Schema.ofDefinitions unionSchemaText).toOption,
    ← (Document.parse (conditionSource type) none 3).toOption)

theorem repeated_inlineFragment_union : ∃ schema d program b, readUnions "A" = some (schema, d) ∧
    Program.ofDocument schema d {} = .ok program ∧ program.Has b ∧
    b.inlineFragments.map InlineFragment.typeCondition = (["A"] : List Text) ∧
    ∀ t, 1 < (b.inlineFragments.map InlineFragment.typeCondition).count t → schema.Repeats t := by
  have hlisted : ((readUnions "A").any fun r => (Program.ofDocument r.1 r.2 {}).toOption.any
      fun program => firstConditions program = some (["A"] : List Text)) = true := by decide +kernel
  obtain ⟨⟨schema, d⟩, hr, hlisted⟩ := (Option.any_eq_true _ _).mp hlisted
  obtain ⟨program, hprogram, hlisted⟩ := (Option.any_eq_true _ _).mp hlisted
  have hok := Success.toOption_eq_some.mp hprogram
  obtain ⟨b, hb, he⟩ := exists_of_firstConditions (of_decide_eq_true hlisted)
  exact ⟨schema, d, program, b, hr, hok, hb, he, (repeated_inlineFragment hok hb).1⟩

/-- **A schema with a union that repeats a member is accepted, and a body may then have two inline
fragments on one type.** -/
theorem inlineFragments_not_nodup : ∃ schema d program b, readUnions "V" = some (schema, d) ∧
    Program.ofDocument schema d {} = .ok program ∧ program.Has b ∧
    ¬ (b.inlineFragments.map InlineFragment.typeCondition).Nodup := by
  have hlisted : ((readUnions "V").any fun r => (Program.ofDocument r.1 r.2 {}).toOption.any
      fun program => firstConditions program = some (["A", "A"] : List Text)) = true := by decide +kernel
  obtain ⟨⟨schema, d⟩, hr, hlisted⟩ := (Option.any_eq_true _ _).mp hlisted
  obtain ⟨program, hprogram, hlisted⟩ := (Option.any_eq_true _ _).mp hlisted
  obtain ⟨b, hb, he⟩ := exists_of_firstConditions (of_decide_eq_true hlisted)
  refine ⟨schema, d, program, b, hr, Success.toOption_eq_some.mp hprogram, hb, ?_⟩
  rw [he]
  decide

end Lowered

end QueryCompiler
