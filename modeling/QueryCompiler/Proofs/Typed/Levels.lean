import QueryCompiler.Proofs.TypeCase.Insides
import QueryCompiler.Proofs.Typed.Requests
import QueryCompiler.Proofs.Typed.Rules

/-!
# Levels of selection sets

Resolving counts the levels of selection sets from the root of each operation and of each fragment,
and refuses a field that is too far down. What a spread carries was counted from the root of its
fragment, so it takes part in no other count.

* `WellFormed`: only fields stand without a selection set.
* `NestsWithin`: selection sets stand inside each other on so many levels at most.
* `Resolves.wellFormed`, `all_nests`: what selections resolve to is well-formed, and its fields nest
  within the levels that are left.
* `fragment_keeps`: what holds of all selections that resolve from a root holds of every fragment.
* `ofDocument_roots`: so all roots of a program are well-formed, and nest within the limit.
-/

namespace QueryCompiler

namespace Typed

/-! ### Well-formed selections -/

/-- Whatever stands among the selections without a selection set, at any depth, is a field. -/
def WellFormed (selections : List Selection) : Prop :=
  ∀ x, Occurs x selections → x.nested = none → ∃ head, x = .field head none

namespace WellFormed

variable {s : Selection} {types : List Text} {first second rest inner : List Selection}

theorem nil : WellFormed [] := by
  intro x hx
  cases hx

theorem append (h : WellFormed first) (h' : WellFormed second) : WellFormed (first ++ second) :=
  fun x hx => (occurs_append.mp hx).elim (h x) (h' x)

theorem head (h : WellFormed (s :: rest)) : WellFormed [s] := by
  rw [← List.singleton_append] at h
  exact fun x hx => h x (occurs_append.mpr (Or.inl hx))

theorem tail (h : WellFormed (s :: rest)) : WellFormed rest := fun x hx => h x (.later hx)

theorem inside (h : WellFormed (s :: rest)) (hs : s.nested = some (.mk types inner)) :
    WellFormed inner :=
  fun x hx => h x (.inside hs hx)

theorem leaf (head : FieldHead) : WellFormed [.field head none] := by
  intro x hx _
  cases hx with
  | here => exact ⟨head, rfl⟩
  | inside hs _ => cases hs
  | later h => cases h

/-- A selection with a selection set is well-formed if the set is. -/
theorem single (hs : s.nested = some (.mk types inner)) (h : WellFormed inner) :
    WellFormed [s] := by
  intro x hx hnone
  cases hx with
  | here => cases hs.symm.trans hnone
  | inside hs' hx =>
    obtain rfl := Option.some.inj (hs.symm.trans hs')
    exact h x hx hnone
  | later hx => cases hx

theorem guarded (h : WellFormed [s]) (guards : List (Text × Bool)) :
    WellFormed [guarded types s guards] := by
  induction guards generalizing s with
  | nil => exact h
  | cons g rest ih => exact ih (single rfl h)

theorem kept (h : WellFormed [s]) (directives : List Document.Directive) :
    WellFormed (kept types directives s) := by
  rw [Typed.kept]
  split_ifs
  · exact nil
  · exact h.guarded _

end WellFormed

/-- **What selections resolve to is well-formed.** -/
theorem Resolves.wellFormed {schema : Schema} {definitions : List Document.Fragment}
    {types : List Text} {selections : List Document.Selection} {typed : List Selection}
    (h : Resolves schema definitions types selections typed) : WellFormed typed := by
  induction h with
  | nil => exact .nil
  | leaf _ _ _ ih => exact ((WellFormed.leaf _).kept _).append ih
  | field _ _ _ _ hinner ih => exact ((WellFormed.single rfl hinner).kept _).append ih
  | inlineAny _ _ _ _ hinner ih => exact ((WellFormed.single rfl hinner).kept _).append ih
  | inlineOn _ _ _ _ hinner ih => exact ((WellFormed.single rfl hinner).kept _).append ih
  | spread _ _ _ _ hinner ih => exact ((WellFormed.single rfl hinner).kept _).append ih

/-! ### Walks over well-formed selections -/

mutual

theorem Selection.isFilled_of_wellFormed {types : List Text} : ∀ {s : Selection}, WellFormed [s] →
    s.isFilled types = true ∧ s.inlined.isFilled types = true
  | .field _ _, _ => ⟨rfl, rfl⟩
  | .typeCondition _ none, h | .booleanCondition _ _ none, h | .spread _ _ none, h => by
    obtain ⟨head, he⟩ := h _ .here rfl
    cases he
  | .typeCondition _ (some (.mk possibleTypes selections)), h => by
    obtain ⟨hfilled, hinlined⟩ := allFilled_of_wellFormed (h.inside rfl)
    refine ⟨?_, ?_⟩
    · rw [Selection.isFilled, hfilled, Bool.or_true]
    · rw [Selection.inlined, inlinedNested, SelectionSet.inlined, Selection.isFilled, hinlined,
        Bool.or_true]
  | .booleanCondition _ _ (some (.mk _ selections)), h => allFilled_of_wellFormed (h.inside rfl)
  | .spread _ _ (some (.mk possibleTypes selections)), h => by
    obtain ⟨-, hinlined⟩ := allFilled_of_wellFormed (h.inside rfl)
    refine ⟨rfl, ?_⟩
    rw [Selection.inlined, inlinedNested, SelectionSet.inlined, Selection.isFilled, hinlined,
      Bool.or_true]

/-- The conditions of well-formed selections have their sets, also where spreads have become
conditions. -/
theorem allFilled_of_wellFormed {types : List Text} : ∀ {selections : List Selection},
    WellFormed selections →
      allFilled types selections = true ∧ allFilled types (inlinedAll selections) = true
  | [], _ => ⟨rfl, rfl⟩
  | s :: rest, h => by
    obtain ⟨hfilled, hinlined⟩ := s.isFilled_of_wellFormed h.head
    obtain ⟨hfilled', hinlined'⟩ := allFilled_of_wellFormed h.tail
    refine ⟨?_, ?_⟩
    · rw [allFilled, hfilled, hfilled', Bool.and_self]
    · rw [inlinedAll, allFilled, hinlined, hinlined', Bool.and_self]

end

mutual

theorem Selection.exists_visibleSpreads {types : List Text} : ∀ {s : Selection}, WellFormed [s] →
    ∃ names, s.visibleSpreads types = .ok names
  | .field _ _, _ => ⟨_, rfl⟩
  | .spread _ _ _, _ => ⟨_, rfl⟩
  | .typeCondition _ none, h | .booleanCondition _ _ none, h => by
    obtain ⟨head, he⟩ := h _ .here rfl
    cases he
  | .typeCondition _ (some (.mk possibleTypes selections)), h => by
    rw [Selection.visibleSpreads]
    split_ifs
    · exact exists_visibleSpreadsOfAll (h.inside rfl)
    · exact ⟨_, rfl⟩
  | .booleanCondition _ _ (some (.mk _ selections)), h => exists_visibleSpreadsOfAll (h.inside rfl)

theorem exists_visibleSpreadsOfAll {types : List Text} : ∀ {selections : List Selection},
    WellFormed selections → ∃ names, visibleSpreadsOfAll types selections = .ok names
  | [], _ => ⟨_, rfl⟩
  | s :: rest, h => by
    obtain ⟨first, h₁⟩ := s.exists_visibleSpreads h.head
    obtain ⟨others, h₂⟩ := exists_visibleSpreadsOfAll h.tail
    exact ⟨first ++ others, Success.bind_eq_ok.mpr ⟨first, h₁, Success.bind_eq_ok.mpr ⟨others, h₂, rfl⟩⟩⟩

end

/-! ### Levels -/

/-- **Selection sets stand inside each other on so many levels at most**, the selections themselves
being the first. Conditions are on the level of the set that they stand in, and so are the fields of
spreads, if `spreads` says that they count. -/
def NestsWithin (spreads : Bool) : Nat → List Selection → Prop
  | 0, _ => False
  | levels + 1, selections =>
    ∀ inner, Shows spreads inner selections → NestsWithin spreads levels inner.selections

section Levels
variable {spreads : Bool} {inner : SelectionSet} {levels : Nat} {first second : List Selection}

/-- Selections nest no deeper than others that show all their fields. -/
theorem NestsWithin.of_shows (h : NestsWithin spreads levels second)
    (hs : ∀ inner, Shows spreads inner first → Shows spreads inner second) :
    NestsWithin spreads levels first := by
  cases levels with
  | zero => exact h
  | succ levels => exact fun inner hi => h inner (hs inner hi)

theorem NestsWithin.append (h : NestsWithin spreads levels first)
    (h' : NestsWithin spreads levels second) : NestsWithin spreads levels (first ++ second) := by
  cases levels with
  | zero => exact h
  | succ levels => exact fun inner hi => (shows_append.mp hi).elim (h inner) (h' inner)

theorem shows_guarded {types : List Text} {s : Selection} (guards : List (Text × Bool)) :
    Shows spreads inner [guarded types s guards] ↔ Shows spreads inner [s] := by
  induction guards generalizing s with
  | nil => exact Iff.rfl
  | cons g rest ih =>
    have hentered : (Selection.booleanCondition g.1 g.2 (some (.mk types [s]))).entered spreads =
        some (.mk types [s]) := rfl
    exact ih.trans (shows_entered hentered)

theorem shows_of_kept {types : List Text} {directives : List Document.Directive} {s : Selection}
    (h : Shows spreads inner (kept types directives s)) : Shows spreads inner [s] := by
  rw [kept] at h
  split_ifs at h
  · exact absurd h not_shows_nil
  · exact (shows_guarded _).mp h

end Levels

end Typed

namespace Resolve

open Typed (NestsWithin shows_field shows_of_kept not_shows_nil)

/-! ### Selections -/

section Selections
variable {ctx : Context} {spread : Text → Location → Step Typed.Fragment}

mutual

theorem one_nests : ∀ (s : Document.Selection) {parent : NamedType} {types : List Text} {depth : Nat}
    {p p' : Progress} {r : Option Typed.Selection},
    one ctx spread parent types depth s p = .ok (r, p') →
      NestsWithin false (ctx.limit - depth + 1) r.toList
  | .field f selections, parent, types, depth, p, p', r, h => by
    obtain ⟨head, type, p₁, -, h⟩ := one_field_ok h
    rcases h with ⟨-, -, -, hu⟩ | ⟨-, -, hd, inner, hi, hu⟩
    · rw [underConditions_kept hu]
      intro inner hs
      cases shows_field.mp (shows_of_kept hs)
    · rw [underConditions_kept hu]
      intro set hs
      obtain rfl := Option.some.inj (shows_field.mp (shows_of_kept hs))
      -- The set inside is one level further down, which the resolution has allowed.
      have hlevel : ctx.limit - depth = ctx.limit - (depth + 1) + 1 := by omega
      rw [hlevel]
      exact all_nests selections hi
  | .inline f selections, parent, types, depth, p, p', r, h => by
    obtain ⟨type, inner, -, -, -, hi, hu⟩ := one_inline_ok h
    rw [underConditions_kept hu]
    refine (all_nests selections hi).of_shows fun set hs => ?_
    cases shows_of_kept hs with
    | entered he hs =>
      obtain rfl := Option.some.inj he
      exact hs
    | later h => exact absurd h not_shows_nil
  | .spread f, parent, types, depth, p, p', r, h => by
    obtain ⟨fragment, -, hu⟩ := one_spread_ok h
    rw [underConditions_kept hu]
    intro inner hs
    cases shows_of_kept hs with
    | entered hs _ => cases hs
    | later h => exact absurd h not_shows_nil

/-- **Selections resolve to fields that nest within the levels that are left.** -/
theorem all_nests : ∀ (selections : List Document.Selection) {parent : NamedType} {types : List Text}
    {depth : Nat} {p p' : Progress} {typed : List Typed.Selection},
    all ctx spread parent types depth selections p = .ok (typed, p') →
      NestsWithin false (ctx.limit - depth + 1) typed
  | [], parent, types, depth, p, p', typed, h => by
    obtain ⟨rfl, -⟩ := all_nil_ok h
    exact fun _ hs => absurd hs not_shows_nil
  | s :: rest, parent, types, depth, p, p', typed, h => by
    obtain ⟨r, others, p₁, hr, ho, rfl⟩ := all_cons_ok h
    exact (one_nests s hr).append (all_nests rest ho)

end

end Selections

/-! ### Fragments -/

/-- The selections of all fragments found are of a kind. -/
def FragmentsAre (kind : List Typed.Selection → Prop)
    (fragments : OrderedMap Text Typed.Fragment) : Prop :=
  ∀ name f s, fragments.find? name = some f → f.selectionSet = some s → kind s.selections

section Fragments
variable {ctx : Context} {definitions : List Document.Fragment} {kind : List Typed.Selection → Prop}

/-- What requests keep of the fragments found, a run of them keeps. -/
theorem Runs.keeps {keeps : OrderedMap Text Typed.Fragment → Prop}
    {xs : List (Step Typed.Fragment)} {p p' : Progress} (h : Runs xs p p')
    (hx : ∀ x ∈ xs, ∀ q f q', keeps q.fragments → x q = .ok (f, q') → keeps q'.fragments)
    (hp : keeps p.fragments) : keeps p'.fragments := by
  induction h with
  | nil he => rwa [he]
  | cons he hstep _ ih =>
    refine ih (fun x hmem => hx x (List.mem_cons_of_mem _ hmem)) ?_
    exact hx _ List.mem_cons_self _ _ _ (by rwa [he]) hstep

variable (hkind : ∀ {spread : Text → Location → Step Typed.Fragment} {name : Text}
  {parent : NamedType} {selections : List Document.Selection} {p p' : Progress}
  {typed : List Typed.Selection}, ctx.schema.type? name = some parent →
    all ctx spread parent (ctx.schema.possibleTypesOf parent) 1 selections p = .ok (typed, p') →
      kind typed)

include hkind

/-- **What holds of all selections that resolve from a root holds of every fragment found.** -/
theorem fragment_keeps {opened : List Text} {name : Text} {location : Location} {p p' : Progress}
    {f : Typed.Fragment} (hp : FragmentsAre kind p.fragments)
    (h : fragment ctx definitions opened name location p = .ok (f, p')) :
    FragmentsAre kind p'.fragments := by
  rcases fragment_ok h with ⟨-, rfl⟩ | ⟨-, d, hd, ho, -, hdef⟩
  · exact hp
  · obtain ⟨type, typed, p₁, htype, -, ha, rfl, rfl⟩ := ofDefinition_ok hdef
    have hbefore : FragmentsAre kind p₁.fragments :=
      (all_runs d.selections ha).keeps (fun x hx q g q' hq hg => by
        obtain ⟨s, -, rfl⟩ := List.mem_map.mp hx
        exact fragment_keeps hq hg) hp
    intro name' g s hg hs
    rw [OrderedMap.find?_insert] at hg
    rcases Option.or_eq_some_iff.mp hg with hg | ⟨-, hg⟩
    · exact hbefore name' g s hg hs
    · split_ifs at hg
      obtain rfl := Option.some.inj hg
      obtain rfl := Option.some.inj hs
      exact hkind htype ha
termination_by (closedDefinitions definitions opened).length
decreasing_by exact length_closedDefinitions_lt hd (by rw [ho]; exact Bool.false_ne_true)

theorem operations_keep : ∀ {os : List Document.Operation}
    {done done' : OrderedMap Text Typed.Operation} {p p' : Progress},
    os.foldlM (operation ctx definitions) done p = .ok (done', p') →
      FragmentsAre kind p.fragments →
      (∀ e ∈ done.entries, ∀ s, e.2.selectionSet = some s → kind s.selections) →
      FragmentsAre kind p'.fragments ∧
        ∀ e ∈ done'.entries, ∀ s, e.2.selectionSet = some s → kind s.selections
  | [], done, done', p, p', h, hp, hdone => by
    obtain ⟨rfl, rfl⟩ := pure_eq_ok.mp h
    exact ⟨hp, hdone⟩
  | o :: os, done, done', p, p', h, hp, hdone => by
    rw [List.foldlM_cons] at h
    obtain ⟨done₁, p₁, ho, h⟩ := bind_eq_ok.mp h
    obtain ⟨name, root, vars, p₂, typed, -, hnew, hroot, hvars, ha, rfl⟩ := operation_ok ho
    obtain ⟨rootName, -, hroot⟩ := Option.bind_eq_some_iff.mp hroot
    have hp₂ : FragmentsAre kind p₂.fragments := by rwa [(resolveVariables_ok hvars).2]
    have hp₁ : FragmentsAre kind p₁.fragments :=
      (all_runs o.selections ha).keeps (fun x hx q g q' hq hg => by
        obtain ⟨s, -, rfl⟩ := List.mem_map.mp hx
        exact fragment_keeps hkind hq hg) hp₂
    refine operations_keep h hp₁ fun e he s hs => ?_
    have hkey : name ∉ done.keys := by
      rw [← OrderedMap.contains_iff, hnew]
      exact Bool.false_ne_true
    rw [OrderedMap.entries_insert hkey] at he
    rcases List.mem_append.mp he with he | he
    · exact hdone e he s hs
    · obtain rfl := List.mem_singleton.mp he
      obtain rfl := Option.some.inj hs
      exact hkind hroot ha

/-- What holds of all selections that resolve from a root holds of all fragments and operations of a
document. -/
theorem document_keeps {d : Document} {typesUsed : List Text} {p' : Progress}
    {operations : OrderedMap Text Typed.Operation}
    (h : document ctx d ⟨∅, typesUsed⟩ = .ok (operations, p')) :
    FragmentsAre kind p'.fragments ∧
      ∀ e ∈ operations.entries, ∀ s, e.2.selectionSet = some s → kind s.selections := by
  obtain ⟨-, p₁, hfragments, hoperations⟩ := document_ok h
  have hempty : FragmentsAre kind (∅ : OrderedMap Text Typed.Fragment) := by
    intro name f s hf
    cases hf
  have hp₁ : FragmentsAre kind p₁.fragments :=
    (forM_runs hfragments).keeps (fun x hx q g q' hq hg => by
      obtain ⟨f, -, rfl⟩ := List.mem_map.mp hx
      exact fragment_keeps hkind hq hg) hempty
  exact operations_keep hkind hoperations hp₁ fun e he => by cases he

end Fragments

end Resolve

/-! ### Documents -/

namespace Typed

open Resolve

/-- The selection set is that of an operation or of a fragment of the program. -/
def Program.IsRoot (program : Program) (s : SelectionSet) : Prop :=
  (∃ e ∈ program.operations.entries, e.2.selectionSet = some s) ∨
    ∃ e ∈ program.fragments.entries, e.2.selectionSet = some s

theorem Program.CarriesAll.wellFormed {schema : Schema} {d : Document} {program : Program}
    (h : program.CarriesAll schema d) {s : SelectionSet} (hs : program.IsRoot s) :
    WellFormed s.selections := by
  rcases hs with ⟨e, he, hset⟩ | ⟨e, he, hset⟩
  · obtain ⟨o, -, hcarry⟩ := Success.exists_of_mem_right h.operations he
    obtain ⟨root, inner, -, hset', hresolves, -⟩ := hcarry.selections
    obtain rfl := Option.some.inj (hset.symm.trans hset')
    exact hresolves.wellFormed
  · obtain ⟨d, -, -, hcarry⟩ := h.fragments _ _ (OrderedMap.find?_of_mem he)
    obtain ⟨inner, hset', hresolves, -⟩ := hcarry.selections
    obtain rfl := Option.some.inj (hset.symm.trans hset')
    exact hresolves.wellFormed

/-- What holds of all selections that resolve from a root holds of all roots of a program. -/
theorem ofDocument_keeps {kind : List Selection → Prop} {schema : Schema} {d : Document}
    {options : CompilerOptions} {program : Program}
    (hkind : ∀ {spread : Text → Location → Step Fragment} {name : Text} {parent : NamedType}
      {selections : List Document.Selection} {p p' : Progress} {typed : List Selection},
      schema.type? name = some parent →
      all ⟨schema, options.maxSelectionDepth.toNat⟩ spread parent (schema.possibleTypesOf parent) 1
        selections p = .ok (typed, p') → kind typed)
    (h : Program.ofDocument schema d options = .ok program) {s : SelectionSet}
    (hs : program.IsRoot s) : kind s.selections := by
  obtain ⟨⟨operations, p⟩, hrun, h⟩ := Success.bind_eq_ok.mp h
  obtain rfl := Except.ok.inj h
  obtain ⟨hfragments, hoperations⟩ := document_keeps hkind hrun
  rcases hs with ⟨e, he, hset⟩ | ⟨e, he, hset⟩
  · exact hoperations e he s hset
  · have hfind := OrderedMap.find?_of_mem he
    rw [show Program.fragments _ = inDefinitionOrder _ p.fragments from rfl, inDefinitionOrder,
      OrderedMap.find?_ofList, OrderedMap.lookup_filterMap Document.Fragment.name p.fragments.find?]
      at hfind
    split_ifs at hfind
    exact hfragments e.1 e.2 s hfind hset

/-- **The selection sets of operations and fragments are well-formed and nest within the limit**, where
the fields of spreads do not count; the level of the root is always there. -/
theorem ofDocument_roots {schema : Schema} {d : Document} {options : CompilerOptions}
    {program : Program} (h : Program.ofDocument schema d options = .ok program) {s : SelectionSet}
    (hs : program.IsRoot s) : WellFormed s.selections ∧
      NestsWithin false (options.maxSelectionDepth.toNat - 1 + 1) s.selections := by
  exact ⟨(Program.ofDocument_carriesAll h).wellFormed hs,
    ofDocument_keeps (fun _ ha => all_nests _ ha) h hs⟩

end Typed

end QueryCompiler
