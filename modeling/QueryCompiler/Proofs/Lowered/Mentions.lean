import QueryCompiler.Proofs.Lowered.Referenced
import QueryCompiler.Proofs.Lowered.Within

/-!
# The spreads that a lowered operation mentions

The bodies inside a lowered operation are made level by level, each from selections that occur in the
selection set of the operation. So what their lists of spreads mention is spread there
(`Body.Mentions.occurs`), and the closure of the operation has it (`mentions_referenced`).
-/

namespace QueryCompiler

namespace Typed

mutual

theorem Selection.visibleSpreads_occur {types found : List Text} {name : Text} :
    ∀ {s : Selection}, s.visibleSpreads types = .ok found → name ∈ found →
      ∃ type nested, Occurs (.spread name type nested) [s]
  | .field _ _, h, hn => by
    obtain rfl := Except.ok.inj h
    cases hn
  | .spread _ _ _, h, hn => by
    obtain rfl := Except.ok.inj h
    obtain rfl := List.mem_singleton.mp hn
    exact ⟨_, _, .here⟩
  | .typeCondition _ none, h, _ => by cases h
  | .typeCondition _ (some (.mk _ selections)), h, hn => by
    rw [Selection.visibleSpreads] at h
    split_ifs at h
    · obtain ⟨type, nested, ho⟩ := visibleSpreadsOfAll_occur h hn
      exact ⟨type, nested, .inside rfl ho⟩
    · obtain rfl := Except.ok.inj h
      cases hn
  | .booleanCondition _ _ none, h, _ => by cases h
  | .booleanCondition _ _ (some (.mk _ selections)), h, hn => by
    obtain ⟨type, nested, ho⟩ := visibleSpreadsOfAll_occur h hn
    exact ⟨type, nested, .inside rfl ho⟩

/-- The spreads that are listed for some types occur among the selections. -/
theorem visibleSpreadsOfAll_occur {types found : List Text} {name : Text} :
    ∀ {selections : List Selection}, visibleSpreadsOfAll types selections = .ok found →
      name ∈ found → ∃ type nested, Occurs (.spread name type nested) selections
  | [], h, hn => by
    obtain rfl := Except.ok.inj h
    cases hn
  | s :: rest, h, hn => by
    obtain ⟨first, h₁, h⟩ := Success.bind_eq_ok.mp h
    obtain ⟨others, h₂, h⟩ := Success.bind_eq_ok.mp h
    obtain rfl := Except.ok.inj h
    rw [← List.singleton_append]
    rcases List.mem_append.mp hn with hn | hn
    · obtain ⟨type, nested, ho⟩ := s.visibleSpreads_occur h₁ hn
      exact ⟨type, nested, occurs_append.mpr (Or.inl ho)⟩
    · obtain ⟨type, nested, ho⟩ := visibleSpreadsOfAll_occur h₂ hn
      exact ⟨type, nested, occurs_append.mpr (Or.inr ho)⟩

end

end Typed

namespace Lowered

open Typed

/-! ### What a body lists -/

/-- All spreads that a body lists. -/
def Body.allSpreads (b : Body) : List Text :=
  b.spreads ++ b.inlineFragments.flatMap InlineFragment.spreads

/-- **A body mentions a fragment**: it lists a spread of it, or the body of one of its fields mentions
it. -/
inductive Body.Mentions (name : Text) : Body → Prop
  | here {b : Body} : name ∈ b.allSpreads → Mentions name b
  | inside {b : Body} {f : Field} {inner : Body} : f ∈ b.allFields → f.body = some inner →
      Mentions name inner → Mentions name b

/-- The spreads that a body lists occur in its set. -/
theorem occurs_of_mem_allSpreads {lowerField : Typed.Field → Except LoweringError Field}
    {s : SelectionSet} {c : TypeCase} {b : Body} (h : bodyOf lowerField s c = .ok b) {name : Text}
    (hn : name ∈ b.allSpreads) : ∃ type nested, Occurs (.spread name type nested) s.selections := by
  rcases List.mem_append.mp hn with hn | hn
  · exact visibleSpreadsOfAll_occur (bodyOf_eq_ok h).2.1 hn
  · obtain ⟨i, hi, hn⟩ := List.mem_flatMap.mp hn
    obtain ⟨r, -, -, -, hv⟩ := mem_inlineFragments h hi
    exact visibleSpreadsOfAll_occur hv hn

theorem Body.Mentions.exists_within {b : Body} {name : Text} (h : Body.Mentions name b) :
    ∃ inner : Body, inner.Within b ∧ name ∈ inner.allSpreads := by
  induction h with
  | here hn => exact ⟨_, .refl, hn⟩
  | inside hg hbody _ ih =>
    obtain ⟨inner, hinner, hn⟩ := ih
    exact ⟨inner, .inside hg hbody hinner, hn⟩

/-- **What a body mentions is spread in its set**, at some depth. -/
theorem Body.Mentions.occurs {spreads : Bool} {limit : Nat} {b : Body} {name : Text}
    (h : Body.Mentions name b) {s : SelectionSet} (hb : b.MadeFrom spreads limit s) :
    ∃ type nested, Occurs (.spread name type nested) s.selections := by
  obtain ⟨inner, hinner, hn⟩ := h.exists_within
  obtain ⟨set, ⟨levels, c, -, hmade⟩, hoccurs⟩ := hinner.made hb
  obtain ⟨type, nested, ho⟩ := occurs_of_mem_allSpreads hmade hn
  exact ⟨type, nested, hoccurs _ ho⟩

/-! ### Operations -/

/-- **Every spread that a lowered operation mentions is in its closure.** Whether or not the fields of
spreads are merged in, a fragment that is listed as spread by a compiled operation, by a field inside
it or by an inline fragment, at any depth, is among the fragments that the operation refers to, and
the compiled program has it. -/
theorem mentions_referenced {schema : Schema} {d : Document} {options : CompilerOptions}
    {program : Program} (h : Program.ofDocument schema d options = .ok program) :
    ∀ e ∈ program.operations.entries, ∀ name, Body.Mentions name e.2.body →
      name ∈ e.2.fragmentsReferenced ∧ name ∈ program.fragments.keys := by
  obtain ⟨p, hp, -, hlower⟩ := Program.ofDocument_ok h
  obtain ⟨hoperations, hfragments⟩ := Program.ofTyped_ok hlower
  have hclosure := (ofDocument_closure hp).1
  have hkeys : program.fragments.keys = p.fragments.keys := by
    show program.fragments.entries.map Prod.fst = p.fragments.entries.map Prod.fst
    rw [← List.forall₂_eq_eq_eq, List.forall₂_map_left_iff, List.forall₂_map_right_iff]
    exact hfragments.flip.imp fun _ _ he => he.1
  intro e he name hname
  obtain ⟨o, ho, -, hof⟩ := Success.exists_of_mem_right hoperations he
  obtain ⟨s, sources, hset, -, hbody, -, -, hnames, -⟩ := Operation.ofTyped_ok hof
  obtain ⟨-, -, hmem, hkey⟩ := hclosure s (.operation ho hset)
  have hreferenced : name ∈ s.closure := (hmem name).mpr (hname.occurs (madeFrom_body hbody))
  refine ⟨?_, hkeys ▸ hkey name hreferenced⟩
  rw [hnames]
  exact hreferenced

/-- An operation that spreads a fragment inside a field, which spreads another inside a field. -/
def foldedSource : Text :=
  Text.ofString "query Q { q { ...F } } fragment F on Query { q { ...G } }" ++
    Text.ofString "fragment G on Query { a }"

/-- That document, and a schema whose root has itself. -/
def readFolded : Option (Schema × Document) := do
  return (← (Schema.ofDefinitions (Text.ofString "type Query { q: Query a: String }")).toOption,
    ← (Document.parse foldedSource none 3).toOption)

/-- The body of the first field of a body. -/
def Body.first? (b : Body) : Option Body := b.allFields.head?.bind Field.body

theorem Body.Mentions.first {b inner : Body} {name : Text} (hb : b.first? = some inner)
    (h : Body.Mentions name inner) : Body.Mentions name b := by
  obtain ⟨f, hf, hinner⟩ := Option.bind_eq_some_iff.mp hb
  exact .inside (List.mem_of_head? hf) hinner h

theorem mentions_referenced_folded : ∃ schema d program e,
    readFolded = some (schema, d) ∧ Program.ofDocument schema d {} = .ok program ∧
    e ∈ program.operations.entries ∧ Body.Mentions "G" e.2.body ∧
    ("G" : Text) ∈ e.2.fragmentsReferenced ∧ ("G" : Text) ∈ program.fragments.keys := by
  -- The field around the spread of `G` is folded into the body from the fragment.
  have hlisted : (readFolded.any fun r => (Program.ofDocument r.1 r.2 {}).toOption.any fun program =>
      program.operations.entries.head?.any fun e => ((e.2.body.first?.bind Body.first?).any fun b =>
        b.allSpreads == (["G"] : List Text))) = true := by decide +kernel
  obtain ⟨⟨schema, d⟩, hr, hlisted⟩ := (Option.any_eq_true _ _).mp hlisted
  obtain ⟨program, hprogram, hlisted⟩ := (Option.any_eq_true _ _).mp hlisted
  obtain ⟨e, he, hlisted⟩ := (Option.any_eq_true _ _).mp hlisted
  obtain ⟨inner, hinner, hlisted⟩ := (Option.any_eq_true _ _).mp hlisted
  obtain ⟨outer, houter, hinner⟩ := Option.bind_eq_some_iff.mp hinner
  have hok := Success.toOption_eq_some.mp hprogram
  have hmem := List.mem_of_head? he
  have hmentions : Body.Mentions "G" e.2.body :=
    .first houter (.first hinner (.here (by rw [eq_of_beq hlisted]; exact List.mem_singleton_self _)))
  exact ⟨schema, d, program, e, hr, hok, hmem, hmentions, mentions_referenced hok e hmem "G" hmentions⟩

end Lowered

end QueryCompiler
