import QueryCompiler.Proofs.Lowered.Assembled
import QueryCompiler.Proofs.Lowered.Reading
import QueryCompiler.Proofs.TypeCase.Insides
import QueryCompiler.Proofs.Typed.Levels

/-!
# The bodies inside a body

The bodies of a lowered program are made level by level: that of an operation or a fragment from its
selection set, and those inside it from the sets inside the fields of a type case.

* `Body.Within`: a body is that of a field inside another one, at any depth.
* `Body.Within.made`: it is made from a set whose selections all occur in the set of the other one.
* `Program.Has`: all bodies of a program, and `Program.Has.made`: where each of them comes from.
-/

namespace QueryCompiler

namespace Typed

theorem Selection.nested_of_entered {spreads : Bool} {s : Selection} {set : SelectionSet}
    (h : s.entered spreads = some set) : s.nested = some set := by
  cases s with
  | field => cases h
  | typeCondition => exact h
  | booleanCondition => exact h
  | spread =>
    cases spreads with
    | false => cases h
    | true => exact h

/-- What is met among selections occurs there. -/
theorem Meets.occurs {spreads : Bool} {f : Field} {selections : List Selection}
    (h : Meets spreads f selections) : Occurs (.field f.head f.nested) selections := by
  induction h with
  | here => exact .here
  | entered hs _ ih => exact .inside (Selection.nested_of_entered hs) ih
  | later _ ih => exact .later ih

/-- What occurs inside a field that is shown occurs among the selections. -/
theorem Shows.occurs {spreads : Bool} {inner : SelectionSet} {selections : List Selection}
    {x : Selection} (h : Shows spreads inner selections) (hx : Occurs x inner.selections) :
    Occurs x selections := by
  induction h with
  | here => exact .inside rfl hx
  | entered hs _ ih => exact .inside (Selection.nested_of_entered hs) ih
  | later _ ih => exact .later ih

end Typed

namespace Lowered

open Typed

/-! ### The fields of a body -/

/-- All fields that a body lists, for every possible type and for single types. -/
def Body.allFields (b : Body) : List Field :=
  b.fields ++ b.inlineFragments.flatMap InlineFragment.fields

/-- The fields of a body are those of its type case, lowered. -/
theorem exists_of_mem_allFields {lowerField : Typed.Field → Except LoweringError Field}
    {s : SelectionSet} {c : TypeCase} {b : Body} {kind : Typed.Field → Prop} (hc : c.Has kind)
    (h : bodyOf lowerField s c = .ok b) {g : Field} (hg : g ∈ b.allFields) :
    ∃ f : Typed.Field, kind f ∧ lowerField f = .ok g := by
  rcases List.mem_append.mp hg with hg | hg
  · obtain ⟨f, hf, hlower⟩ := Success.mem_of_mapM (bodyOf_eq_ok h).1 hg
    exact ⟨f, hc.default f hf, hlower⟩
  · obtain ⟨i, hi, hg⟩ := List.mem_flatMap.mp hg
    obtain ⟨r, hr, -, hm, -⟩ := mem_inlineFragments h hi
    obtain ⟨f, hf, hlower⟩ := Success.mem_of_mapM hm hg
    exact ⟨f, hc.records r hr f hf, hlower⟩

/-- The body of a field is that of its selection set, with one level less. -/
theorem fieldWithin_body {settings : Settings} {levels : Nat} {f : Typed.Field} {g : Field}
    {inner : Body} (h : fieldWithin settings levels f = .ok g) (hg : g.body = some inner) :
    ∃ below set c, f.nested = some set ∧ typeCaseOf settings set = .ok c ∧
      bodyOf (fieldWithin settings below) set c = .ok inner := by
  obtain ⟨head, _ | set⟩ := f
  · rw [(fieldWithin_ok h).2 rfl] at hg
    cases hg
  · cases levels with
    | zero => cases h
    | succ below =>
      obtain ⟨c, hc, h⟩ := Success.bind_eq_ok.mp h
      obtain ⟨b, hb, h⟩ := Success.bind_eq_ok.mp h
      obtain rfl := Except.ok.inj h
      obtain rfl := Option.some.inj hg
      exact ⟨below, set, c, rfl, hc, hb⟩

/-! ### Bodies inside bodies -/

/-- **A body is within another**: it is that body, or it is within the body of one of its fields. -/
inductive Body.Within (inner : Body) : Body → Prop
  | refl : Within inner inner
  | inside {b b' : Body} {f : Field} : f ∈ b.allFields → f.body = some b' → Within inner b' →
      Within inner b

/-- The body is made from the selection set, on the way of lowering, with some levels left. -/
def Body.MadeFrom (spreads : Bool) (limit : Nat) (s : SelectionSet) (b : Body) : Prop :=
  ∃ levels c, typeCaseOf ⟨{}, spreads, limit⟩ s = .ok c ∧
    bodyOf (fieldWithin ⟨{}, spreads, limit⟩ levels) s c = .ok b

section Bodies
variable {spreads : Bool} {limit : Nat} {s : SelectionSet} {b : Body}

theorem madeFrom_body (h : body ⟨{}, spreads, limit⟩ s = .ok b) :
    b.MadeFrom spreads limit s := by
  obtain ⟨c, hc, hb⟩ := Success.bind_eq_ok.mp h
  exact ⟨_, c, hc, hb⟩

/-- The body of a field is made from a set whose selections all occur in that of the outer body. -/
theorem Body.MadeFrom.inside (h : b.MadeFrom spreads limit s) {g : Field} (hg : g ∈ b.allFields)
    {inner : Body} (hinner : g.body = some inner) :
    ∃ set : SelectionSet, inner.MadeFrom spreads limit set ∧
      ∀ x, Occurs x set.selections → Occurs x s.selections := by
  obtain ⟨levels, c, hc, hb⟩ := h
  have hinsides : c.Insides fun inner => ∀ x, Occurs x inner → Occurs x s.selections :=
    typeCaseOf_insides (fun first second h h' x hx => (occurs_append.mp hx).elim (h x) (h' x))
      (fun inner hi x hx => hi.occurs hx) hc
  obtain ⟨f, hf, hlower⟩ := exists_of_mem_allFields hinsides hb hg
  obtain ⟨below, set, c', hset, hc', hb'⟩ := fieldWithin_body hlower hinner
  exact ⟨set, ⟨below, c', hc', hb'⟩, hf set hset⟩

/-- The head of a field is that of a field that occurs in the set, up to the condition. -/
theorem Body.MadeFrom.head (h : b.MadeFrom spreads limit s) {heads : Typed.FieldHead → Prop}
    (hflag : ∀ head flag, heads head → heads { head with isConditional := flag })
    (hheads : ∀ head nested, Occurs (.field head nested) s.selections → heads head)
    {g : Field} (hg : g ∈ b.allFields) : ∃ head, heads head ∧ g.head = headOf head := by
  obtain ⟨levels, c, hc, hb⟩ := h
  have hmerge : ClosedUnderMerge fun f => heads f.head := fun f g hf _ => hflag f.head _ hf
  obtain ⟨f, hf, hlower⟩ := exists_of_mem_allFields (typeCaseOf_has hmerge
    (fun f hf _ => hflag _ _ (hheads _ _ hf.occurs)) hc) hb hg
  exact ⟨f.head, hf, (fieldWithin_ok hlower).1⟩

/-- **A body within another is made from selections that occur in the set of the other one.** -/
theorem Body.Within.made {inner : Body} (h : inner.Within b) :
    ∀ {s : SelectionSet}, b.MadeFrom spreads limit s →
      ∃ set : SelectionSet, inner.MadeFrom spreads limit set ∧
        ∀ x, Occurs x set.selections → Occurs x s.selections := by
  induction h with
  | refl => exact fun hb => ⟨_, hb, fun _ hx => hx⟩
  | inside hg hbody _ ih =>
    intro s hb
    obtain ⟨set, hset, hoccurs⟩ := hb.inside hg hbody
    obtain ⟨set', hset', hoccurs'⟩ := ih hset
    exact ⟨set', hset', fun x hx => hoccurs x (hoccurs' x hx)⟩

end Bodies

/-! ### Programs -/

/-- The body is that of an operation or of a fragment of the program, or is within one. -/
def Program.Has (program : Program) (b : Body) : Prop :=
  (∃ e ∈ program.operations.entries, b.Within e.2.body) ∨
    ∃ e ∈ program.fragments.entries, b.Within e.2.body

/-- **Where a body of a compiled program comes from**: it is made from selections that occur in the
selection set of an operation or of a fragment of the resolved program. -/
theorem Program.Has.made {schema : Schema} {d : Document} {options : CompilerOptions}
    {program : Program} (h : Program.ofDocument schema d options = .ok program) {b : Body}
    (hb : program.Has b) : ∃ p root set, Typed.Program.ofDocument schema d options = .ok p ∧
      p.IsRoot root ∧ b.MadeFrom options.mergeInFieldsFromFragmentSpreads
        options.maxSelectionDepth.toNat set ∧
      ∀ x, Occurs x set.selections → Occurs x root.selections := by
  obtain ⟨p, hp, hoptions, hlower⟩ := Program.ofDocument_ok h
  obtain ⟨hoperations, hfragments⟩ := Program.ofTyped_ok hlower
  subst hoptions
  rcases hb with ⟨e, he, hb⟩ | ⟨e, he, hb⟩
  · obtain ⟨o, ho, -, hof⟩ := Success.exists_of_mem_right hoperations he
    obtain ⟨s, sources, hset, -, hbody, -⟩ := Operation.ofTyped_ok hof
    obtain ⟨set, hmade, hoccurs⟩ := hb.made (madeFrom_body hbody)
    exact ⟨p, s, set, hp, Or.inl ⟨o, ho, hset⟩, hmade, hoccurs⟩
  · obtain ⟨f, hf, -, hof⟩ := Success.exists_of_mem_right hfragments he
    obtain ⟨s, hset, hbody, -⟩ := Fragment.ofTyped_ok hof
    obtain ⟨set, hmade, hoccurs⟩ := hb.made (madeFrom_body hbody)
    exact ⟨p, s, set, hp, Or.inr ⟨f, hf, hset⟩, hmade, hoccurs⟩

end Lowered

end QueryCompiler
