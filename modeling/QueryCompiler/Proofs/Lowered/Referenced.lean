import QueryCompiler.Lowered.Program
import QueryCompiler.Proofs.TypeCase.Insides
import QueryCompiler.Proofs.Typed.Cycles
import QueryCompiler.Proofs.Typed.Preorder
import QueryCompiler.Proofs.Typed.Rules

/-!
# The fragments that selection sets refer to

In the program of a document all spreads of a name carry the selections of the fragment of that name.
So the closure of each of its selection sets is exact, and every fragment in it is there
(`ofDocument_closure`). A lowering fails with what its parts fail with (`bodyOf_failsOnly`,
`Operation.ofTyped_failsOnly`), and for a missing fragment only where it looks up the closure of an
operation, so that the program of a document never fails for one.
-/

namespace QueryCompiler

/-- The error is not that a fragment is missing. -/
def LoweringError.OfSelections : LoweringError → Prop
  | .missingFragment _ _ => False
  | _ => True

/-- The error is that a condition has no selection set. -/
def LoweringError.IsBare : LoweringError → Prop
  | .bareTypeCondition _ | .bareBooleanCondition _ => True
  | _ => False

theorem LoweringError.IsBare.ofSelections {e : LoweringError} (h : e.IsBare) : e.OfSelections := by
  cases e <;> first | exact trivial | exact h

open LoweringError (OfSelections IsBare)
open Success (FailsOnly failsOnly_ok failsOnly_error)

namespace Typed

/-! ### The selection sets of a program -/

/-- The program has the selection set: it is that of an operation or of a fragment, or stands inside
such a set. -/
inductive Program.Holds (program : Program) : SelectionSet → Prop
  | operation {e s} : e ∈ program.operations.entries → e.2.selectionSet = some s → program.Holds s
  | fragment {e s} : e ∈ program.fragments.entries → e.2.selectionSet = some s → program.Holds s
  | inside {s x nested} : program.Holds s → x ∈ s.selections → x.nested = some nested →
      program.Holds nested

theorem Linked.of_mem {table : Table} {x : Selection} {selections : List Selection}
    (h : Linked table selections) (hx : x ∈ selections) : Linked table [x] := by
  obtain ⟨before, rest, rfl⟩ := List.append_of_mem hx
  refine fun name type nested ho => h name type nested (occurs_append.mpr (Or.inr ?_))
  rw [← List.singleton_append]
  exact occurs_append.mpr (Or.inl ho)

/-- All spreads in a program of a document carry the selections of its fragments. -/
theorem Program.CarriesAll.linked {schema : Schema} {d : Document} {program : Program}
    (h : program.CarriesAll schema d) {s : SelectionSet} (hs : program.Holds s) :
    Linked (tableOf program.fragments) s.selections := by
  induction hs with
  | operation he hset =>
    obtain ⟨o, -, hcarry⟩ := Success.exists_of_mem_right h.operations he
    obtain ⟨root, inner, -, hset', -, hlinked⟩ := hcarry.selections
    obtain rfl := Option.some.inj (hset.symm.trans hset')
    exact hlinked
  | fragment he hset =>
    obtain ⟨d, -, -, hcarry⟩ := h.fragments _ _ (OrderedMap.find?_of_mem he)
    obtain ⟨inner, hset', -, hlinked⟩ := hcarry.selections
    obtain rfl := Option.some.inj (hset.symm.trans hset')
    exact hlinked
  | inside _ hx hnested ih => exact (ih.of_mem hx).inside hnested

/-- What a table links is the name of a fragment. -/
theorem mem_keys_of_tableOf {fragments : OrderedMap Text Fragment} {name : Text}
    {inner : List Selection} (h : tableOf fragments name = some inner) : name ∈ fragments.keys := by
  obtain ⟨f, hf, -⟩ := Option.bind_eq_some_iff.mp h
  exact OrderedMap.mem_keys_of_find? hf

/-! ### What lowering selections fails with -/

section Errors
variable (types : List Text)

mutual

theorem Selection.visibleSpreads_failsBare :
    ∀ s : Selection, FailsOnly IsBare (s.visibleSpreads types)
  | .field _ _ => by rw [Selection.visibleSpreads]; exact failsOnly_ok _
  | .spread _ _ _ => by rw [Selection.visibleSpreads]; exact failsOnly_ok _
  | .typeCondition _ none => by rw [Selection.visibleSpreads]; exact failsOnly_error trivial
  | .typeCondition _ (some (.mk _ selections)) => by
    rw [Selection.visibleSpreads]
    split_ifs
    · exact visibleSpreadsOfAll_failsBare selections
    · exact failsOnly_ok _
  | .booleanCondition _ _ none => by rw [Selection.visibleSpreads]; exact failsOnly_error trivial
  | .booleanCondition _ _ (some (.mk _ selections)) => by
    rw [Selection.visibleSpreads]
    exact visibleSpreadsOfAll_failsBare selections

theorem visibleSpreadsOfAll_failsBare :
    ∀ selections : List Selection, FailsOnly IsBare (visibleSpreadsOfAll types selections)
  | [] => by rw [visibleSpreadsOfAll]; exact failsOnly_ok _
  | s :: rest => by
    rw [visibleSpreadsOfAll]
    exact (s.visibleSpreads_failsBare).bind fun _ _ =>
      (visibleSpreadsOfAll_failsBare rest).bind fun _ _ => failsOnly_ok _

end

mutual

theorem Selection.walk_failsBare : ∀ (s : Selection) (types : List Text) (conditional : Bool)
    (c : TypeCase), FailsOnly IsBare (s.walk types conditional c)
  | .field _ _, types, conditional, c => by rw [Selection.walk]; exact failsOnly_ok _
  | .spread _ _ _, types, conditional, c => by rw [Selection.walk]; exact failsOnly_ok _
  | .typeCondition _ none, types, conditional, c => by
    rw [Selection.walk]; exact failsOnly_error trivial
  | .typeCondition _ (some (.mk possible selections)), types, conditional, c => by
    rw [Selection.walk]
    split_ifs
    · exact failsOnly_ok _
    · exact walkAll_failsBare selections _ _ _
  | .booleanCondition _ _ none, types, conditional, c => by
    rw [Selection.walk]; exact failsOnly_error trivial
  | .booleanCondition _ _ (some (.mk _ selections)), types, conditional, c => by
    rw [Selection.walk]; exact walkAll_failsBare selections _ _ _

theorem walkAll_failsBare : ∀ (selections : List Selection) (types : List Text) (conditional : Bool)
    (c : TypeCase), FailsOnly IsBare (walkAll types conditional c selections)
  | [], types, conditional, c => by rw [walkAll]; exact failsOnly_ok _
  | s :: rest, types, conditional, c => by
    rw [walkAll]
    exact (s.walk_failsBare types conditional c).bind fun c' _ =>
      walkAll_failsBare rest types conditional c'

end

theorem walkAll_failsOnly (selections : List Selection) (types : List Text) (conditional : Bool)
    (c : TypeCase) : FailsOnly OfSelections (walkAll types conditional c selections) :=
  (walkAll_failsBare selections types conditional c).mono fun _ => IsBare.ofSelections

end Errors

end Typed

namespace Lowered

/-! ### What a lowering fails with -/

section Errors
variable {P : LoweringError → Prop}

/-- A body fails with what its fields and its spreads fail with. -/
theorem bodyOf_failsOnly {kind : List Typed.Selection → Prop}
    {lowerField : Typed.Field → Except LoweringError Field} {s : Typed.SelectionSet}
    {c : Typed.TypeCase} (hc : c.Insides kind)
    (hspreads : ∀ types, FailsOnly P (s.visibleSpreads types))
    (hfield : ∀ f : Typed.Field, f.Inside kind → FailsOnly P (lowerField f)) :
    FailsOnly P (bodyOf lowerField s c) := by
  have hinline : ∀ record ∈ c.records.filter fun record => !addsNothing s record,
      FailsOnly P (inlineFragments lowerField s record) := fun record hr =>
    (FailsOnly.mapM fun f hf => hfield f (hc.records record (List.mem_of_mem_filter hr) f hf)).bind
      fun _ _ => (hspreads _).bind fun _ _ => failsOnly_ok _
  exact (FailsOnly.mapM fun f hf => hfield f (hc.default f hf)).bind fun _ _ =>
    (FailsOnly.mapM hinline).bind fun _ _ => (hspreads _).bind fun _ _ => failsOnly_ok _

variable {steps : Steps} {p : Typed.Program}

/-- **An operation fails with what its body fails with**, if it collects names of fragments only. -/
theorem Operation.ofTyped_failsOnly {o : Typed.Operation}
    (hbare : o.selectionSet = none → P (.bareOperation o.name))
    (hnames : ∀ s, o.selectionSet = some s → ∀ name ∈ steps.collect s, name ∈ p.fragments.keys)
    (hbody : ∀ s, o.selectionSet = some s → FailsOnly P (Lowered.body (.ofOptions steps p.options) s)) :
    FailsOnly P (Operation.ofTyped steps p o) := by
  unfold Operation.ofTyped
  cases hs : o.selectionSet with
  | none => exact failsOnly_error (hbare hs)
  | some s =>
    have hsources : FailsOnly P (fragmentSources p o.name (steps.collect s)) := by
      refine FailsOnly.mapM fun name hname => ?_
      obtain ⟨f, hf⟩ := OrderedMap.exists_of_mem_keys (hnames s hs name hname)
      rw [hf]
      exact failsOnly_ok _
    exact hsources.bind fun _ _ => (hbody s hs).bind fun _ _ => failsOnly_ok _

theorem Fragment.ofTyped_failsOnly {f : Typed.Fragment}
    (hbare : f.selectionSet = none → P (.bareFragment f.name))
    (hbody : ∀ s, f.selectionSet = some s → FailsOnly P (Lowered.body (.ofOptions steps p.options) s)) :
    FailsOnly P (Fragment.ofTyped steps p f) := by
  unfold Fragment.ofTyped
  cases hs : f.selectionSet with
  | none => exact failsOnly_error (hbare hs)
  | some s => exact (hbody s hs).bind fun _ _ => failsOnly_ok _

theorem lowerEntries_failsOnly {α β : Type} {lower : α → Except LoweringError β}
    {m : OrderedMap Text α} (h : ∀ e ∈ m.entries, FailsOnly P (lower e.2)) :
    FailsOnly P (lowerEntries lower m) :=
  (FailsOnly.mapM fun e he => (h e he).bind fun _ _ => failsOnly_ok _).bind fun _ _ => failsOnly_ok _

/-- A program fails with what its operations and fragments fail with. -/
theorem Program.ofTypedWith_failsOnly
    (hoperations : ∀ e ∈ p.operations.entries, FailsOnly P (Operation.ofTyped steps p e.2))
    (hfragments : ∀ e ∈ p.fragments.entries, FailsOnly P (Fragment.ofTyped steps p e.2)) :
    FailsOnly P (Program.ofTypedWith steps p) :=
  (lowerEntries_failsOnly hoperations).bind fun _ _ =>
    (lowerEntries_failsOnly hfragments).bind fun _ _ => failsOnly_ok _

end Errors

/-! ### Selection sets look up no fragment -/

section Lookups
variable {settings : Settings}
  (hpartition : ∀ s, FailsOnly OfSelections (settings.steps.partition s))

/-- Making a body is not refused for a missing fragment, if lowering a field is not. -/
theorem bodyOf_ofSelections {lowerField : Typed.Field → Except LoweringError Field}
    (hfield : ∀ f, FailsOnly OfSelections (lowerField f)) (s : Typed.SelectionSet)
    (c : Typed.TypeCase) : FailsOnly OfSelections (bodyOf lowerField s c) := by
  have hinsides : c.Insides fun _ => True :=
    ⟨fun _ _ _ _ => trivial, fun _ _ _ _ _ _ => trivial⟩
  exact bodyOf_failsOnly hinsides (fun types =>
    (Typed.visibleSpreadsOfAll_failsBare types s.selections).mono fun _ => IsBare.ofSelections)
    fun f _ => hfield f

include hpartition

/-- A field is not refused for a missing fragment, whatever the number of levels. -/
theorem fieldWithin_ofSelections (levels : Nat) (f : Typed.Field) :
    FailsOnly OfSelections (fieldWithin settings levels f) := by
  induction levels generalizing f with
  | zero =>
    obtain ⟨head, nested⟩ := f
    cases nested with
    | none => exact failsOnly_ok _
    | some s => exact failsOnly_error trivial
  | succ levels ih =>
    obtain ⟨head, nested⟩ := f
    cases nested with
    | none => exact failsOnly_ok _
    | some s =>
      exact (hpartition _).bind fun typeCase _ =>
        (bodyOf_ofSelections ih s typeCase).bind fun _ _ => failsOnly_ok _

theorem body_ofSelections (s : Typed.SelectionSet) : FailsOnly OfSelections (body settings s) :=
  (hpartition _).bind fun typeCase _ =>
    bodyOf_ofSelections (fieldWithin_ofSelections hpartition _) s typeCase

end Lookups

end Lowered

/-! ### Documents -/

namespace Typed

/-- **The closure of a selection set is exact.** In the program of a document the closure of every
selection set lists the fragments whose spreads occur in the set, each once and in the order in which
a walk that enters every spread first comes to it. All of them are fragments of the program, and
lowering the program never fails for a missing fragment. -/
theorem ofDocument_closure {schema : Schema} {d : Document} {options : CompilerOptions}
    {program : Program} (h : Program.ofDocument schema d options = .ok program) :
    (∀ s, program.Holds s → s.closure.Nodup ∧ s.closure = s.preorder.eraseDups ∧
      (∀ name, name ∈ s.closure ↔ ∃ type nested, Occurs (.spread name type nested) s.selections) ∧
      ∀ name ∈ s.closure, name ∈ program.fragments.keys) ∧
    ∀ name operation, Lowered.Program.ofTyped program ≠ .error (.missingFragment name operation) := by
  have hall := Program.ofDocument_carriesAll h
  have hmem : ∀ s, program.Holds s → ∀ name, name ∈ s.closure ↔
      ∃ type nested, Occurs (.spread name type nested) s.selections := by
    intro s hs name
    rw [SelectionSet.closure_eq_preorder (hall.linked hs), List.mem_eraseDups]
    exact mem_preorderOfAll
  have hkeys : ∀ s, program.Holds s → ∀ name ∈ s.closure, name ∈ program.fragments.keys := by
    intro s hs name hname
    obtain ⟨type, nested, ho⟩ := (hmem s hs name).mp hname
    obtain ⟨set, -, ht⟩ := hall.linked hs name type nested ho
    exact mem_keys_of_tableOf ht
  refine ⟨fun s hs => ⟨(SelectionSet.closure_adds (hall.linked hs)).nodup List.nodup_nil,
    SelectionSet.closure_eq_preorder (hall.linked hs), hmem s hs, hkeys s hs⟩,
    fun name operation he => ?_⟩
  have hbody : ∀ s, FailsOnly OfSelections (Lowered.body (.ofOptions {} program.options) s) :=
    Lowered.body_ofSelections fun s => walkAll_failsOnly s.selections _ _ _
  have hfails : FailsOnly OfSelections (Lowered.Program.ofTyped program) :=
    Lowered.Program.ofTypedWith_failsOnly
      (fun e he => Lowered.Operation.ofTyped_failsOnly (fun _ => trivial)
        (fun s hs => hkeys s (.operation he hs)) fun s _ => hbody s)
      fun _ _ => Lowered.Fragment.ofTyped_failsOnly (fun _ => trivial) fun s _ => hbody s
  exact hfails _ he

/-- An operation that spreads one fragment twice, which spreads another that it spreads itself. -/
def repeatingSource : Text :=
  Text.ofString "query Q { ...A ...B a ...A } fragment A on Query { ...B ...C }" ++
    Text.ofString "fragment B on Query { a } fragment C on Query { a }"

/-- The program of these, and the selection set of its operation. -/
def repeating : Option (Schema × Document × Program × SelectionSet) := do
  let (schema, d) ← readSource repeatingSource
  let program ← (Program.ofDocument schema d {}).toOption
  let e ← program.operations.entries.head?
  return (schema, d, program, ← e.2.selectionSet)

theorem ofDocument_closure_repeating : ∃ schema d program s,
    repeating = some (schema, d, program, s) ∧
    Program.ofDocument schema d {} = .ok program ∧ program.Holds s ∧
    s.preorder = (["A", "B", "C", "B", "A", "B", "C"] : List Text) ∧
    s.closure = s.preorder.eraseDups := by
  have hwalk : repeating.map (fun r => r.2.2.2.preorder) =
      some (["A", "B", "C", "B", "A", "B", "C"] : List Text) := by decide +kernel
  obtain ⟨⟨schema, d, program, s⟩, hr, hpreorder⟩ := Option.map_eq_some_iff.mp hwalk
  refine ⟨schema, d, program, s, hr, ?_⟩
  obtain ⟨⟨schema', d'⟩, -, h⟩ := Option.bind_eq_some_iff.mp hr
  obtain ⟨program', hprogram, h⟩ := Option.bind_eq_some_iff.mp h
  obtain ⟨e, he, h⟩ := Option.bind_eq_some_iff.mp h
  obtain ⟨s', hs, h⟩ := Option.bind_eq_some_iff.mp h
  cases h
  have hok := Success.toOption_eq_some.mp hprogram
  have hholds : program.Holds s := .operation (List.mem_of_head? he) hs
  exact ⟨hok, hholds, hpreorder, ((ofDocument_closure hok).1 s hholds).2.1⟩

end Typed

end QueryCompiler
