import QueryCompiler.Proofs.Lowered.Referenced
import QueryCompiler.Proofs.Typed.Levels

/-!
# What the selections of a program are made of

Every selection of a resolved program gets its possible types from the types of the schema, narrowed
or not, and every field its head from the definition of the field.

* `IsOwn`: a selection stands among others outside the selections of spreads. Whatever occurs in a
  program is an own selection of an operation or a fragment (`Program.CarriesAll.exists_isOwn`).
* `Makes`: possible types and heads are of some kinds wherever a resolution makes them.
* `all_made`, `ofDocument_made`: so they are in selections that resolve, and in a whole program.
-/

namespace QueryCompiler

namespace Typed

/-! ### Selections outside spreads -/

/-- A selection stands among selections, at any depth outside the selections of spreads. -/
inductive IsOwn (x : Selection) : List Selection → Prop
  | here {rest} : IsOwn x (x :: rest)
  | inside {s nested rest} : Selection.nested s = some nested →
      (∀ name type set, s ≠ .spread name type set) → IsOwn x nested.selections →
      IsOwn x (s :: rest)
  | later {s rest} : IsOwn x rest → IsOwn x (s :: rest)

theorem not_isOwn_nil {x : Selection} : ¬ IsOwn x [] := by
  intro h
  cases h

theorem IsOwn.of_append {x : Selection} {first second : List Selection}
    (h : IsOwn x (first ++ second)) : IsOwn x first ∨ IsOwn x second := by
  induction first with
  | nil => exact Or.inr h
  | cons s rest ih =>
    cases h with
    | here => exact Or.inl .here
    | inside hs hn h => exact Or.inl (.inside hs hn h)
    | later h => exact (ih h).imp_left .later

/-- **What occurs among linked selections is their own**, or that of a fragment. -/
theorem Occurs.isOwn {table : Table} {x : Selection} {selections : List Selection}
    (h : Occurs x selections) (hlinked : Linked table selections) :
    IsOwn x selections ∨ ∃ name inner, table name = some inner ∧ IsOwn x inner := by
  induction h with
  | here => exact Or.inl .here
  | @inside s nested rest hs _ ih =>
    have hown := ih (hlinked.head.inside hs)
    by_cases hspread : ∃ name type set, s = .spread name type set
    · obtain ⟨name, type, set, rfl⟩ := hspread
      obtain ⟨set', rfl, ht⟩ := hlinked name type set .here
      obtain rfl := Option.some.inj hs
      exact Or.inr (hown.elim (fun h => ⟨name, _, ht, h⟩) id)
    · refine hown.imp_left (.inside hs fun name type set he => hspread ⟨name, type, set, he⟩)
  | later _ ih => exact (ih hlinked.tail).imp_left .later

/-- What occurs in a program is an own selection of an operation or a fragment. -/
theorem Program.CarriesAll.exists_isOwn {schema : Schema} {d : Document} {program : Program}
    (h : program.CarriesAll schema d) {s : SelectionSet} (hs : program.IsRoot s) {x : Selection}
    (hx : Occurs x s.selections) : ∃ root, program.IsRoot root ∧ IsOwn x root.selections := by
  have hholds : program.Holds s := by
    rcases hs with ⟨e, he, hset⟩ | ⟨e, he, hset⟩
    · exact .operation he hset
    · exact .fragment he hset
  rcases hx.isOwn (h.linked hholds) with hx | ⟨name, inner, ht, hx⟩
  · exact ⟨s, hs, hx⟩
  · obtain ⟨f, hf, hset⟩ := Option.bind_eq_some_iff.mp ht
    obtain ⟨root, hroot, rfl⟩ := Option.map_eq_some_iff.mp hset
    exact ⟨root, Or.inr ⟨_, OrderedMap.mem_of_find? hf, hroot⟩, hx⟩

/-! ### Heads and possible types -/

/-- The head of the selection is of a kind if it is a field, and the possible types of its set are of
a kind if it has one. -/
structure Selection.IsMade (heads : FieldHead → Prop) (lists : List Text → Prop) (x : Selection) :
    Prop where
  head : ∀ head nested, x = .field head nested → heads head
  types : ∀ set, x.nested = some set → lists set.possibleTypes

/-- All selections outside spreads are made of such heads and possible types. -/
def AreMade (heads : FieldHead → Prop) (lists : List Text → Prop) (selections : List Selection) :
    Prop :=
  ∀ x, IsOwn x selections → x.IsMade heads lists

section AreMade
variable {heads : FieldHead → Prop} {lists : List Text → Prop} {s : Selection} {types : List Text}

theorem AreMade.append {first second : List Selection} (h : AreMade heads lists first)
    (h' : AreMade heads lists second) : AreMade heads lists (first ++ second) :=
  fun x hx => hx.of_append.elim (h x) (h' x)

/-- A selection is made of what it is made of itself and of what its set is made of, which is not
asked of a spread. -/
theorem areMade_single (hs : s.IsMade heads lists)
    (hinner : ∀ set, s.nested = some set → (∀ name type set, s ≠ .spread name type set) →
      AreMade heads lists set.selections) : AreMade heads lists [s] := by
  intro x hx
  cases hx with
  | here => exact hs
  | inside hset hn hx => exact hinner _ hset hn x hx
  | later hx => exact absurd hx not_isOwn_nil

theorem AreMade.guarded (ht : lists types) (h : AreMade heads lists [s])
    (guards : List (Text × Bool)) : AreMade heads lists [guarded types s guards] := by
  induction guards generalizing s with
  | nil => exact h
  | cons g rest ih =>
    refine ih (areMade_single ⟨fun _ _ he => (by cases he), fun set hset => ?_⟩ fun set hset _ => ?_)
    · obtain rfl := Option.some.inj hset
      exact ht
    · obtain rfl := Option.some.inj hset
      exact h

theorem AreMade.kept (ht : lists types) (h : AreMade heads lists [s])
    (directives : List Document.Directive) : AreMade heads lists (kept types directives s) := by
  rw [Typed.kept]
  split_ifs
  · exact fun x hx => absurd hx not_isOwn_nil
  · exact h.guarded ht _

end AreMade

end Typed

namespace Resolve

open Typed (AreMade areMade_single FieldHead)

/-- The possible types of all types of a schema are of a kind, with every part of such a list; and the
heads of all fields that resolve on a type of the schema are of a kind. -/
structure Makes (ctx : Context) (heads : FieldHead → Prop) (lists : List Text → Prop) : Prop where
  possible : ∀ {name type}, ctx.schema.type? name = some type →
    lists (ctx.schema.possibleTypesOf type)
  part : ∀ {types part}, lists types → List.Sublist part types → lists part
  head : ∀ {name parent f head type p p'}, ctx.schema.type? name = some parent →
    fieldHead ctx parent f p = .ok ((head, type), p') → heads head

section Selections
variable {ctx : Context} {spread : Text → Location → Step Typed.Fragment}
  {heads : FieldHead → Prop} {lists : List Text → Prop}

mutual

theorem one_made (hm : Makes ctx heads lists) : ∀ (s : Document.Selection) {name : Text}
    {parent : NamedType} {types : List Text} {depth : Nat} {p p' : Progress}
    {r : Option Typed.Selection}, ctx.schema.type? name = some parent → lists types →
    one ctx spread parent types depth s p = .ok (r, p') → AreMade heads lists r.toList
  | .field f selections, name, parent, types, depth, p, p', r, hparent, ht, h => by
    obtain ⟨head, type, p₁, hh, h⟩ := one_field_ok h
    have hhead := hm.head hparent hh
    obtain ⟨definition, -, htype, -⟩ := fieldHead_ok hh
    rcases h with ⟨-, -, -, hu⟩ | ⟨-, -, -, inner, hi, hu⟩
    · rw [underConditions_kept hu]
      refine .kept ht (areMade_single ⟨fun _ _ he => ?_, fun _ hset => by cases hset⟩
        fun _ hset => by cases hset) _
      obtain ⟨rfl, -⟩ := Typed.Selection.field.inj he
      exact hhead
    · rw [underConditions_kept hu]
      have htypes := hm.possible htype
      refine .kept ht (areMade_single ⟨fun _ _ he => ?_, fun set hset => ?_⟩
        fun set hset _ => ?_) _
      · obtain ⟨rfl, -⟩ := Typed.Selection.field.inj he
        exact hhead
      · obtain rfl := Option.some.inj hset
        exact htypes
      · obtain rfl := Option.some.inj hset
        exact all_made hm selections htype htypes hi
  | .inline f selections, name, parent, types, depth, p, p', r, hparent, ht, h => by
    obtain ⟨type, inner, -, hnone, hsome, hi, hu⟩ := one_inline_ok h
    rw [underConditions_kept hu]
    have htype : ∃ name, ctx.schema.type? name = some type := by
      cases hf : f.typeCondition with
      | none =>
        rw [hnone hf]
        exact ⟨name, hparent⟩
      | some name => exact ⟨name, hsome name hf⟩
    obtain ⟨typeName, htype⟩ := htype
    have htypes := hm.part (hm.possible htype) (List.filter_sublist (p := types.contains))
    refine .kept ht (areMade_single ⟨fun _ _ he => (by cases he), fun set hset => ?_⟩
      fun set hset _ => ?_) _
    · obtain rfl := Option.some.inj hset
      exact htypes
    · obtain rfl := Option.some.inj hset
      exact all_made hm selections htype htypes hi
  | .spread f, name, parent, types, depth, p, p', r, hparent, ht, h => by
    obtain ⟨fragment, -, hu⟩ := one_spread_ok h
    rw [underConditions_kept hu]
    refine .kept ht (areMade_single ⟨fun _ _ he => (by cases he), fun set hset => ?_⟩
      fun set _ hn => absurd rfl (hn _ _ _)) _
    obtain rfl := Option.some.inj hset
    exact hm.part ht List.filter_sublist

/-- **Selections that resolve are made of such heads and possible types.** -/
theorem all_made (hm : Makes ctx heads lists) : ∀ (selections : List Document.Selection)
    {name : Text} {parent : NamedType} {types : List Text} {depth : Nat} {p p' : Progress}
    {typed : List Typed.Selection}, ctx.schema.type? name = some parent → lists types →
    all ctx spread parent types depth selections p = .ok (typed, p') → AreMade heads lists typed
  | [], name, parent, types, depth, p, p', typed, _, _, h => by
    obtain ⟨rfl, -⟩ := all_nil_ok h
    exact fun x hx => absurd hx Typed.not_isOwn_nil
  | s :: rest, name, parent, types, depth, p, p', typed, hparent, ht, h => by
    obtain ⟨r, others, p₁, hr, ho, rfl⟩ := all_cons_ok h
    exact (one_made hm s hparent ht hr).append (all_made hm rest hparent ht ho)

end

end Selections

end Resolve

namespace Typed

open Resolve

/-- **Whatever occurs in a program is made of such heads and possible types**, inside spreads too. -/
theorem ofDocument_made {schema : Schema} {d : Document} {options : CompilerOptions}
    {program : Program} {heads : FieldHead → Prop} {lists : List Text → Prop}
    (h : Program.ofDocument schema d options = .ok program)
    (hm : Makes ⟨schema, options.maxSelectionDepth.toNat⟩ heads lists) {s : SelectionSet}
    (hs : program.IsRoot s) {x : Selection} (hx : Occurs x s.selections) :
    x.IsMade heads lists := by
  obtain ⟨root, hroot, hx⟩ := (Program.ofDocument_carriesAll h).exists_isOwn hs hx
  exact ofDocument_keeps (fun htype ha => all_made hm _ htype (hm.possible htype) ha) h hroot x hx

end Typed

end QueryCompiler
