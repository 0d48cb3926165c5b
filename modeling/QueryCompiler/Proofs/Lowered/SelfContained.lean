import QueryCompiler.Proofs.Document.Reprint
import QueryCompiler.Proofs.Lowered.Assembled
import QueryCompiler.Proofs.Typed.Spreads
import QueryCompiler.Schema.Definitions

/-!
# The text of an operation with its fragments

An operation is sent as its own text with those of the fragments that it refers to. That text is a
document: it is parsed as the operation and the fragments (`parse_withFragments`). Every spread in it
has its definition in it, except for spreads that a literal keeps out: these are printed, though
neither selected nor referred to (`parse_sourceWithFragments`).
-/

namespace QueryCompiler

namespace Document

/-! ### Spreads without places -/

section
variable {string : Text → Text}

theorem Directive.condition?_plain (d : Directive) (assignment : Text → Bool) :
    (d.plain string).condition? assignment = d.condition? assignment := by
  unfold Directive.condition? Directive.plain
  have hname : (fun a => a.name == ("if" : Text)) ∘ Argument.plain string =
      fun a => a.name == ("if" : Text) := rfl
  rw [List.find?_map, hname]
  cases d.arguments.find? fun a => a.name == ("if" : Text) with
  | none => rfl
  | some a =>
    rw [Option.map_some, Option.bind_some, Option.bind_some, Argument.plain]
    cases a.value <;> simp only [Value.mapStrings]

theorem areForbidding_plain (ds : List Directive) :
    areForbidding (ds.map (Directive.plain string)) = areForbidding ds := by
  have hforbids : Directive.forbids ∘ Directive.plain string = Directive.forbids := by
    funext d
    show (d.plain string).forbids = d.forbids
    unfold Directive.forbids Directive.allows
    rw [Directive.condition?_plain, Directive.condition?_plain]
    rfl
  rw [areForbidding, areForbidding, List.any_map, hforbids]

variable {skips : List Directive → Bool}

mutual

theorem Selection.spreadNames_plain
    (hskips : ∀ ds : List Directive, skips (ds.map (Directive.plain string)) = skips ds) :
    ∀ s : Selection, (s.plain string).spreadNames skips = s.spreadNames skips
  | .field head ss => by
    rw [Selection.plain, Selection.spreadNames, Selection.spreadNames,
      spreadNamesOfAll_plain hskips ss, Field.plain, hskips]
  | .spread head => by
    rw [Selection.plain, Selection.spreadNames, Selection.spreadNames, Spread.plain, hskips]
  | .inline head ss => by
    rw [Selection.plain, Selection.spreadNames, Selection.spreadNames,
      spreadNamesOfAll_plain hskips ss, InlineFragment.plain, hskips]

theorem spreadNamesOfAll_plain
    (hskips : ∀ ds : List Directive, skips (ds.map (Directive.plain string)) = skips ds) :
    ∀ ss : List Selection,
      spreadNamesOfAll skips (Selection.plainOfAll string ss) = spreadNamesOfAll skips ss
  | [] => rfl
  | s :: rest => by
    rw [Selection.plainOfAll, spreadNamesOfAll, spreadNamesOfAll,
      Selection.spreadNames_plain hskips s, spreadNamesOfAll_plain hskips rest]

end

theorem spreadNames_plain
    (hskips : ∀ ds : List Directive, skips (ds.map (Directive.plain string)) = skips ds)
    (d : Document) : (d.plain string).spreadNames skips = d.spreadNames skips := by
  have hall : ∀ ss : List Selection, spreadNamesOfAll skips (ss.map (Selection.plain string)) =
      spreadNamesOfAll skips ss := by
    intro ss
    rw [← Selection.plainOfAll_eq, spreadNamesOfAll_plain hskips]
  rw [spreadNames, spreadNames, plain, List.flatMap_map, List.flatMap_map]
  simp only [Operation.plain, Fragment.plain, hall]

end

/-! ### An operation with its fragments -/

theorem operations_standalone (o : Operation) (fragments : List Fragment) :
    (ofDefinitions (.operation o :: fragments.map .fragment)).operations = [o] := by
  induction fragments with
  | nil => rfl
  | cons f rest ih => exact ih

theorem fragments_standalone (o : Operation) (fragments : List Fragment) :
    (ofDefinitions (.operation o :: fragments.map .fragment)).fragments = fragments := by
  induction fragments with
  | nil => rfl
  | cons f rest ih => exact congrArg (f :: ·) ih

theorem operationNames_plain (string : Text → Text) (d : Document) :
    (d.plain string).operations.map Operation.name = d.operations.map Operation.name := by
  rw [plain, List.map_map]
  rfl

theorem fragmentNames_plain (string : Text → Text) (d : Document) :
    (d.plain string).fragments.map Fragment.name = d.fragments.map Fragment.name := by
  rw [plain, List.map_map]
  rfl

end Document

namespace Lowered

open Document (parse Definition Defines areForbidding)
open Scan (Spells)

/-! ### The text is parsed -/

theorem spells_withFragments {source : Text} {tokens : List Token} {texts : List Text}
    {parts : List (List Token)} (h : Spells source tokens) (hparts : List.Forall₂ Spells texts parts) :
    Spells (withFragments source texts) (tokens ++ parts.flatten) := by
  induction hparts generalizing source tokens with
  | nil =>
    rw [List.flatten_nil, List.append_nil]
    exact h
  | @cons text part texts parts hp _ ih =>
    have hbreak : Scan.Closed [Octet.lf] [] := Scan.closed_separator rfl
    have hnext := ih (h.append (hbreak.append hp) (Text.breaks_cons rfl))
    rw [List.flatten_cons, ← List.append_assoc]
    exact hnext

/-- **The text of an operation and fragments of a document is parsed as these definitions**, up to
places, with the values of strings sanitised. -/
theorem parse_withFragments {source : Text} {filePath : Option Text} {limit : Nat} {d : Document}
    (h : parse source filePath limit = .ok d) {o : Document.Operation} (ho : o ∈ d.operations)
    {fragments : List Document.Fragment} (hf : ∀ f ∈ fragments, f ∈ d.fragments)
    (filePath' : Option Text) :
    ∃ d', parse (withFragments o.text (fragments.map Document.Fragment.text)) filePath' limit = .ok d' ∧
      d'.plain id =
        (Document.ofDefinitions (.operation o :: fragments.map .fragment)).plain Utf8.sanitise := by
  have hspelled : ∀ x ∈ Definition.operation o :: fragments.map .fragment,
      x.Fits limit ∧ AreSpelled (x.tokens id) := by
    intro x hx
    refine Document.spelled_of_parse h ?_
    rcases List.mem_cons.mp hx with rfl | hx
    · exact ho
    · obtain ⟨f, hmem, rfl⟩ := List.mem_map.mp hx
      exact hf f hmem
  have hparts := Document.spelledBy_tokens Utf8.sanitise fun x hx => (hspelled x hx).1
  have htexts : List.Forall₂ Spells (fragments.map Document.Fragment.text)
      ((fragments.map Definition.fragment).map (Definition.tokens Utf8.sanitise)) := by
    rw [List.map_map]
    refine Scan.spells_map fun f hmem => ?_
    exact Document.Definition.spells_text (d := .fragment f)
      (hspelled _ (List.mem_cons_of_mem _ (List.mem_map_of_mem hmem))).2
  have hoperation : Spells o.text (Definition.tokens Utf8.sanitise (.operation o)) :=
    Document.Definition.spells_text (d := .operation o) (hspelled _ List.mem_cons_self).2
  have hlex := spells_withFragments hoperation htexts [] Text.breaks_nil
  rw [List.append_nil, Scan.lex_nil, Option.map_some, List.append_nil] at hlex
  exact Document.parse_of_spelledBy ⟨_, _, rfl, List.cons_ne_nil _ _, hparts, rfl⟩
    (Scan.scan_holds hlex) filePath'

/-! ### The definitions that it has -/

/-- The definition of a fragment, with what the program has for its name. -/
structure Backs (p : Typed.Program) (d : Document) (f : Document.Fragment) : Prop where
  mem : f ∈ d.fragments
  spreads : ∀ inner, Typed.tableOf p.fragments f.name = some inner →
    Typed.ownSpreadsOfAll inner = Document.spreadNamesOfAll areForbidding f.selections

/-- The texts of the fragments that an operation refers to are those of definitions. -/
theorem definitions_of_fragmentSources {schema : Schema} {p : Typed.Program} {d : Document}
    (hp : p.CarriesAll schema d)
    {operation : Text} {names sources : List Text}
    (h : fragmentSources p operation names = .ok sources) :
    ∃ fragments : List Document.Fragment, (∀ f ∈ fragments, Backs p d f) ∧
      fragments.map Document.Fragment.name = names ∧
      fragments.map Document.Fragment.text = sources := by
  have hall := fragmentSources_ok h
  clear h
  induction hall with
  | nil => exact ⟨[], List.forall_mem_nil _, rfl, rfl⟩
  | @cons name source names sources hfind _ ih =>
    obtain ⟨fragments, hbacks, hnames, hsources⟩ := ih
    obtain ⟨typed, htyped, rfl⟩ := hfind
    obtain ⟨f, hmem, rfl, hcarries⟩ := hp.fragments name typed htyped
    obtain ⟨inner, hset, hresolves, -⟩ := hcarries.selections
    have hf : Backs p d f := by
      refine ⟨hmem, fun inner' ht => ?_⟩
      rw [Typed.tableOf, htyped, Option.bind_some, hset, Option.map_some] at ht
      obtain rfl := Option.some.inj ht
      exact hresolves.ownSpreads_eq
    refine ⟨f :: fragments, List.forall_mem_cons.mpr ⟨hf, hbacks⟩, ?_, ?_⟩
    · rw [List.map_cons, hnames]
    · rw [List.map_cons, hsources, hcarries.source]

/-- What an operation and the fragments that it refers to spread is among these fragments. -/
theorem spreadNames_subset {schema : Schema} {p : Typed.Program} {d : Document}
    {o : Document.Operation} {fragments : List Document.Fragment} {types : List Text}
    {inner : List Typed.Selection} {names : List Text}
    (hresolves : Typed.Resolves schema d.fragments types o.selections inner)
    (hlinked : Typed.Linked (Typed.tableOf p.fragments) inner)
    (hnames : fragments.map Document.Fragment.name = names)
    (hclosure : names = Typed.SelectionSet.closure (.mk types inner))
    (hbacks : ∀ f ∈ fragments, Backs p d f) :
    (Document.ofDefinitions (.operation o :: fragments.map .fragment)).spreadNames areForbidding ⊆
      names := by
  have hadds := Typed.SelectionSet.closure_adds (s := .mk types inner) hlinked
  rw [← hclosure] at hadds
  intro name hname
  rw [Document.spreadNames, Document.operations_standalone, Document.fragments_standalone] at hname
  rcases List.mem_append.mp hname with hname | hname
  · obtain ⟨o', ho', hname⟩ := List.mem_flatMap.mp hname
    rw [List.mem_singleton.mp ho', ← hresolves.ownSpreads_eq] at hname
    exact hadds.own hname
  · obtain ⟨f, hf, hname⟩ := List.mem_flatMap.mp hname
    have hfound : f.name ∈ names := hnames ▸ List.mem_map_of_mem hf
    obtain ⟨inner', htable, hinner⟩ := hadds.new f.name hfound List.not_mem_nil
    rw [← (hbacks f hf).spreads inner' htable] at hname
    exact hinner hname

/-- **The text of an operation with its fragments is a document by itself.** It is parsed, under the
limit of the source, as one operation and one definition of each fragment that the operation refers
to; and what is spread in it is among these, apart from spreads that a literal keeps out. -/
theorem parse_sourceWithFragments {source : Text} {filePath : Option Text} {limit : Nat}
    {d : Document} (hd : parse source filePath limit = .ok d) {schema : Schema}
    {options : CompilerOptions} (hoff : options.addTypename = false) {program : Program}
    (h : Program.ofDocument schema d options = .ok program) (filePath' : Option Text) :
    ∀ e ∈ program.operations.entries, ∃ d',
      parse e.2.sourceWithFragments filePath' limit = .ok d' ∧
        d'.operations.map Document.Operation.name = [some e.1] ∧
        d'.fragments.map Document.Fragment.name = e.2.fragmentsReferenced ∧
        e.2.fragmentsReferenced.Nodup ∧
        d'.spreadNames areForbidding ⊆ e.2.fragmentsReferenced := by
  obtain ⟨p, hp, -, hlower⟩ := Program.ofDocument_ok h
  have hcarries := Typed.Program.ofDocument_carriesAll hp
  rw [Typed.prepared, if_neg (by rw [hoff]; exact Bool.false_ne_true)] at hcarries
  obtain ⟨hoperations, -⟩ := Program.ofTyped_ok hlower
  intro e he
  obtain ⟨typed, htyped, hkey, hof⟩ := Success.exists_of_mem_right hoperations he
  obtain ⟨o, ho, hcarry⟩ := Success.exists_of_mem_right hcarries.operations htyped
  obtain ⟨s, sources, hset, hsources, -, -, -, hnames, htext, -⟩ := Operation.ofTyped_ok hof
  obtain ⟨root, inner, -, hset', hresolves, hlinked⟩ := hcarry.selections
  obtain rfl := Option.some.inj (hset.symm.trans hset')
  obtain ⟨fragments, hbacks, hfragments, htexts⟩ := definitions_of_fragmentSources hcarries hsources
  obtain ⟨d', hparse, hplain⟩ := parse_withFragments hd ho (fun f hf => (hbacks f hf).mem) filePath'
  rw [htexts, ← hcarry.source, ← htext] at hparse
  have hclosure : e.2.fragmentsReferenced =
      Typed.SelectionSet.closure (.mk (schema.possibleTypesOf root) inner) := hnames
  refine ⟨d', hparse, ?_, ?_, ?_, ?_⟩
  · rw [← Document.operationNames_plain id, hplain, Document.operationNames_plain,
      Document.operations_standalone, List.map_singleton, hcarry.key, hkey]
  · rw [← Document.fragmentNames_plain id, hplain, Document.fragmentNames_plain,
      Document.fragments_standalone, hfragments]
  · rw [hclosure]
    exact (Typed.SelectionSet.closure_adds hlinked).nodup List.nodup_nil
  · have hspread := spreadNames_subset hresolves hlinked hfragments hclosure hbacks
    rw [← Document.spreadNames_plain Document.areForbidding_plain, ← hplain,
      Document.spreadNames_plain Document.areForbidding_plain] at hspread
    exact hspread

/-! ### Spreads that are kept out -/

/-- The definitions of a schema with one field. -/
def oneField : Text := Text.ofString "type Query { a: String }"

/-- An operation that spreads a fragment, which spreads another twice; one of these spreads is kept
out, and so is the only spread of a third fragment. -/
def excluding : Text :=
  Text.ofString "query Q($v: Boolean!) { ...F @include(if: $v) ...H @include(if: false) }" ++
    Text.ofString "fragment F on Query { a ...G @skip(if: true) ... { ...G } }" ++
    Text.ofString "fragment G on Query { a } fragment H on Query { a }"

/-- The program of these, its first operation, and what the text of that is parsed as. -/
def reparsed : Option (Schema × Document × Program × (Text × Operation) × Document) := do
  let schema ← (Schema.ofDefinitions oneField).toOption
  let d ← (parse excluding none 3).toOption
  let program ← (Program.ofDocument schema d {}).toOption
  let e ← program.operations.entries.head?
  let d' ← (parse e.2.sourceWithFragments none 3).toOption
  return (schema, d, program, e, d')

theorem reparsed_runs : ∃ schema d program e d', reparsed = some (schema, d, program, e, d') ∧
    Schema.ofDefinitions oneField = .ok schema ∧ parse excluding none 3 = .ok d ∧
    Program.ofDocument schema d {} = .ok program ∧ e ∈ program.operations.entries ∧
    parse e.2.sourceWithFragments none 3 = .ok d' := by
  have hsome : reparsed.isSome = true := by decide +kernel
  obtain ⟨r, hr⟩ := Option.isSome_iff_exists.mp hsome
  have hrun := hr
  obtain ⟨schema, hschema, hrun⟩ := Option.bind_eq_some_iff.mp hrun
  obtain ⟨d, hd, hrun⟩ := Option.bind_eq_some_iff.mp hrun
  obtain ⟨program, hprogram, hrun⟩ := Option.bind_eq_some_iff.mp hrun
  obtain ⟨e, he, hrun⟩ := Option.bind_eq_some_iff.mp hrun
  obtain ⟨d', hd', hrun⟩ := Option.bind_eq_some_iff.mp hrun
  obtain rfl := Option.some.inj hrun
  exact ⟨schema, d, program, e, d', hr, Success.toOption_eq_some.mp hschema,
    Success.toOption_eq_some.mp hd, Success.toOption_eq_some.mp hprogram,
    List.mem_of_mem_head? he, Success.toOption_eq_some.mp hd'⟩

theorem parse_sourceWithFragments_excluding : ∃ schema d program e d',
    Schema.ofDefinitions oneField = .ok schema ∧ parse excluding none 3 = .ok d ∧
    Program.ofDocument schema d {} = .ok program ∧ e ∈ program.operations.entries ∧
    parse e.2.sourceWithFragments none 3 = .ok d' ∧
    d'.operations.map Document.Operation.name = [some e.1] ∧
    d'.fragments.map Document.Fragment.name = e.2.fragmentsReferenced ∧
    e.2.fragmentsReferenced.Nodup ∧ d'.spreadNames areForbidding ⊆ e.2.fragmentsReferenced := by
  obtain ⟨schema, d, program, e, d', -, hschema, hd, hprogram, he, hd'⟩ := reparsed_runs
  obtain ⟨d'', hd'', hspec⟩ := parse_sourceWithFragments hd rfl hprogram none e he
  obtain rfl := Except.ok.inj (hd'.symm.trans hd'')
  exact ⟨schema, d, program, e, d', hschema, hd, hprogram, he, hd', hspec⟩

/-- **A spread that a literal keeps out is printed without its definition.** -/
theorem sourceWithFragments_lacks_definition : ∃ schema d program e d',
    Schema.ofDefinitions oneField = .ok schema ∧ parse excluding none 3 = .ok d ∧
    Program.ofDocument schema d {} = .ok program ∧ e ∈ program.operations.entries ∧
    parse e.2.sourceWithFragments none 3 = .ok d' ∧
    ("H" : Text) ∈ d'.spreadNames (fun _ => false) ∧
    ("H" : Text) ∉ d'.fragments.map Document.Fragment.name := by
  obtain ⟨schema, d, program, e, d', hr, hschema, hd, hprogram, he, hd'⟩ := reparsed_runs
  have hspread : (reparsed.any fun r => (r.2.2.2.2.spreadNames fun _ => false).contains "H" &&
      !(r.2.2.2.2.fragments.map Document.Fragment.name).contains "H") = true := by decide +kernel
  rw [hr] at hspread
  simp only [Option.any_some, Bool.and_eq_true, Bool.not_eq_true', List.contains_eq_mem,
    decide_eq_true_eq, decide_eq_false_iff_not] at hspread
  exact ⟨schema, d, program, e, d', hschema, hd, hprogram, he, hd', hspread⟩

end Lowered

end QueryCompiler
