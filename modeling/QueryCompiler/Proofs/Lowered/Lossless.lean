import QueryCompiler.Proofs.Lowered.Decoding
import QueryCompiler.Proofs.Schema.Closed
import QueryCompiler.Proofs.Typed.Made
import QueryCompiler.Proofs.Typed.Used
import QueryCompiler.Schema.Definitions
import QueryCompiler.Document.Parser

/-!
# The JSON form loses nothing

The JSON form of a compiled program is always there, since the types used are types of the schema,
and the operations and fragments of the program can be read back from it: every type that a lowered
field, an argument or a variable has is one that the schema or a lookup in it gives, so its name is a
name if the schema calls its types by names (`Schema.HasNames`).

* `hasNames_of_validated`: in a schema that is accepted only the names of its types matter.
* `Program.toJson_lossless`: the JSON form of a program tells its operations and its fragments, and
  `Program.toJson_lossless_of_validated`: so it does for every schema that is accepted.
-/

namespace QueryCompiler

/-! ### Schemas that call types by names -/

namespace Schema

/-- **The schema calls types by names**: its own types, and those that arguments refer to. -/
structure HasNames (s : Schema) : Prop where
  types : ∀ e ∈ s.types.entries, e.1.IsName
  args : ∀ e ∈ s.types.entries, ∀ f ∈ e.2.fields, ∀ a ∈ f.args, a.type.namedType.IsName

instance (s : Schema) : Decidable s.HasNames :=
  decidable_of_iff ((∀ e ∈ s.types.entries, e.1.IsName) ∧
    ∀ e ∈ s.types.entries, ∀ f ∈ e.2.fields, ∀ a ∈ f.args, a.type.namedType.IsName)
    ⟨fun h => ⟨h.1, h.2⟩, fun h => ⟨h.1, h.2⟩⟩

theorem HasNames.type? {s : Schema} (h : s.HasNames) {name : Text} {t : NamedType}
    (ht : s.type? name = some t) : name.IsName :=
  h.types (name, t) (OrderedMap.mem_of_find? ht)

/-- **Arguments of a schema that is accepted refer to its types**, so only the names of these matter. -/
theorem hasNames_of_validated {s s' : Schema} (h : s.validated = .ok s')
    (hnames : ∀ e ∈ s'.types.entries, e.1.IsName) : s'.HasNames := by
  refine ⟨hnames, fun e he f hf a ha => ?_⟩
  obtain ⟨rfl, hclosed⟩ := validated_eq_ok.mp h
  obtain ⟨t, ht, -⟩ := hclosed.args e he f hf a ha
  exact hnames (a.type.namedType, t) (OrderedMap.mem_of_find? ht)

end Schema

namespace OrderedMap

/-- A map whose keys are told by its values is told by them. -/
theorem eq_of_values {κ α : Type} {name : α → κ} {m n : OrderedMap κ α}
    (hm : ∀ e ∈ m.entries, e.1 = name e.2) (hn : ∀ e ∈ n.entries, e.1 = name e.2)
    (h : m.values = n.values) : m = n := by
  have htold : ∀ {entries : List (κ × α)}, (∀ e ∈ entries, e.1 = name e.2) →
      (entries.map Prod.snd).map (fun v => (name v, v)) = entries := by
    intro entries he
    rw [List.map_map]
    refine (List.map_congr_left fun e hmem => ?_).trans (List.map_id entries)
    exact Prod.ext (he e hmem).symm rfl
  exact OrderedMap.ext ((htold hm).symm.trans ((congrArg _ h).trans (htold hn)))

end OrderedMap

/-! ### Types in a program -/

/-- All types in the head can be read back. -/
structure Typed.FieldHead.Legible (head : Typed.FieldHead) : Prop where
  type : head.type.namedType.IsName
  args : ∀ a ∈ head.args, a.Legible

namespace Resolve

theorem argumentType_eq_some {definition : FieldDefinition} {name : Text} {type : TypeRef}
    (h : argumentType definition name = some type) : ∃ a ∈ definition.args, a.type = type := by
  obtain ⟨a, ha, rfl⟩ := Option.map_eq_some_iff.mp h
  exact ⟨a, (List.mem_filter.mp (List.mem_of_getLast? ha)).1, rfl⟩

/-- A field that may be selected has no arguments or is defined by the type. -/
theorem fieldDefinition_eq_some {parent : NamedType} {name : Text} {definition : FieldDefinition}
    (h : Schema.fieldDefinition parent name = some definition) :
    definition.args = [] ∨ definition ∈ parent.fields := by
  unfold Schema.fieldDefinition at h
  split_ifs at h
  · obtain rfl := Option.some.inj h
    exact Or.inl rfl
  · exact Or.inr (List.mem_of_find?_eq_some h)

/-- The types in the head of a field that resolves can be read back. -/
theorem fieldHead_legible {ctx : Context} (hnames : ctx.schema.HasNames) {name : Text}
    {parent type : NamedType} {f : Document.Field} {head : Typed.FieldHead} {p p' : Progress}
    (hparent : ctx.schema.type? name = some parent)
    (h : fieldHead ctx parent f p = .ok ((head, type), p')) : head.Legible := by
  obtain ⟨definition, hd, htype, -, -, -, hhead, -, hargs, -⟩ := fieldHead_ok h
  refine ⟨?_, fun a ha argType he => ?_⟩
  · rw [hhead]
    exact hnames.type? htype
  · obtain ⟨b, -, -, -, hr⟩ := Success.exists_of_mem_right hargs.flip ha
    obtain ⟨defined, hmem, rfl⟩ := argumentType_eq_some (hr.symm.trans he)
    rcases fieldDefinition_eq_some hd with hnone | hfield
    · rw [hnone] at hmem
      cases hmem
    · exact hnames.args (name, parent) (OrderedMap.mem_of_find? hparent) definition hfield defined hmem

end Resolve

namespace Lowered

section Programs
variable {schema : Schema} {d : Document} {options : CompilerOptions} {program : Program}
  (hnames : schema.HasNames) (h : Program.ofDocument schema d options = .ok program)
include hnames h

/-- **All types in the bodies of a program can be read back.** -/
theorem Program.Has.legible {b : Body} (hb : program.Has b) :
    ∀ f ∈ b.allFields, f.head.Legible := by
  intro f hf
  obtain ⟨p, root, set, hp, hroot, hmade, hoccurs⟩ := hb.made h
  have hm : Resolve.Makes ⟨schema, options.maxSelectionDepth.toNat⟩ Typed.FieldHead.Legible
      fun _ => True :=
    ⟨fun _ => trivial, fun _ _ => trivial, fun hparent hh => Resolve.fieldHead_legible hnames hparent hh⟩
  obtain ⟨head, hhead, he⟩ := hmade.head (fun head flag hh => ⟨hh.type, hh.args⟩)
    (fun head nested hx => (Typed.ofDocument_made hp hm hroot (hoccurs _ hx)).head head nested rfl) hf
  rw [he]
  exact ⟨hhead.type, hhead.args⟩

theorem operation_legible : ∀ e ∈ program.operations.entries, e.2.Legible := by
  intro e he
  obtain ⟨p, hp, -, hlower⟩ := Program.ofDocument_ok h
  obtain ⟨o, ho, -, hof⟩ := Success.exists_of_mem_right (Program.ofTyped_ok hlower).1 he
  obtain ⟨s, sources, -, -, -, -, -, -, -, -, hvars⟩ := Operation.ofTyped_ok hof
  refine ⟨fun v hv => ?_, fun inner hinner => Program.Has.legible hnames h (Or.inl ⟨e, he, hinner⟩)⟩
  rw [hvars] at hv
  obtain ⟨type, htype⟩ := Typed.ofDocument_variables hp o ho v hv
  exact hnames.type? htype

theorem fragment_legible : ∀ e ∈ program.fragments.entries, e.2.body.Legible :=
  fun e he _ hinner => Program.Has.legible hnames h (Or.inr ⟨e, he, hinner⟩)

omit hnames in
/-- Every operation and every fragment stands under its own name. -/
theorem keys_eq_names : (∀ e ∈ program.operations.entries, e.1 = e.2.name) ∧
    ∀ e ∈ program.fragments.entries, e.1 = e.2.name := by
  obtain ⟨p, hp, -, hlower⟩ := Program.ofDocument_ok h
  obtain ⟨hoperations, hfragments⟩ := Program.ofTyped_ok hlower
  have hcarries := Typed.Program.ofDocument_carriesAll hp
  refine ⟨fun e he => ?_, fun e he => ?_⟩
  · obtain ⟨o, ho, hkey, hof⟩ := Success.exists_of_mem_right hoperations he
    obtain ⟨s, sources, -, -, -, hname, -⟩ := Operation.ofTyped_ok hof
    obtain ⟨source, -, hcarry⟩ := Success.exists_of_mem_right hcarries.operations ho
    rw [hkey, hname, hcarry.name]
  · obtain ⟨f, hf, hkey, hof⟩ := Success.exists_of_mem_right hfragments he
    obtain ⟨s, -, -, hname⟩ := Fragment.ofTyped_ok hof
    obtain ⟨d, -, hd, hcarry⟩ := hcarries.fragments _ _ (OrderedMap.find?_of_mem hf)
    rw [hkey, hname, hcarry.name, hd]

omit hnames in
/-- The JSON form of a compiled program is always there. -/
theorem exists_toJson : ∃ j, program.toJson = .ok j := by
  obtain ⟨p, hp, -, hlower⟩ := Program.ofDocument_ok h
  obtain ⟨hschema, hused⟩ := Program.ofTyped_kept hlower
  obtain ⟨hp', hknows⟩ := Typed.ofDocument_knows hp
  have htypes : ∀ name ∈ program.typesUsed, ∃ j, usedTypeJson program.schema name = .ok j := by
    intro name hname
    rw [hused] at hname
    obtain ⟨t, ht⟩ := hknows name hname
    refine ⟨typeJson t, ?_⟩
    rw [usedTypeJson, hschema, hp', Option.bind_some, ht]
  obtain ⟨types, htypes⟩ := Success.exists_mapM_eq_ok htypes
  exact ⟨_, Success.bind_eq_ok.mpr ⟨types, htypes, rfl⟩⟩

theorem program_decoded {j : Json} (hj : program.toJson = .ok j) :
    Decode.program j = some (program.operations.values, program.fragments.values) := by
  refine Decode.program_toJson hj (fun o ho => ?_) fun f hf => ?_
  · obtain ⟨e, he, rfl⟩ := List.mem_map.mp ho
    exact operation_legible hnames h e he
  · obtain ⟨e, he, rfl⟩ := List.mem_map.mp hf
    exact fragment_legible hnames h e he

/-- Compiled programs with one JSON form have the same operations and fragments. -/
theorem eq_of_toJson_eq {schema' : Schema} {d' : Document} {options' : CompilerOptions}
    {program' : Program} (hnames' : schema'.HasNames)
    (h' : Program.ofDocument schema' d' options' = .ok program') {j : Json}
    (hj : program.toJson = .ok j) (hj' : program'.toJson = .ok j) :
    program'.operations = program.operations ∧ program'.fragments = program.fragments := by
  have hvalues := (program_decoded hnames' h' hj').symm.trans (program_decoded hnames h hj)
  obtain ⟨hoperations, hfragments⟩ := Prod.mk.inj (Option.some.inj hvalues)
  obtain ⟨ho, hf⟩ := keys_eq_names h
  obtain ⟨ho', hf'⟩ := keys_eq_names h'
  exact ⟨OrderedMap.eq_of_values ho' ho hoperations, OrderedMap.eq_of_values hf' hf hfragments⟩

/-- **The JSON form of a compiled program loses nothing**, if the schema calls types by names: it is
always there, the operations and the fragments are read back from it in their order, and a compiled
program with the same JSON form has the same operations and fragments. -/
theorem Program.toJson_lossless : ∃ j, program.toJson = .ok j ∧
    Decode.program j = some (program.operations.values, program.fragments.values) ∧
    ∀ {schema' : Schema} {d' : Document} {options' : CompilerOptions} {program' : Program},
      schema'.HasNames → Program.ofDocument schema' d' options' = .ok program' →
      program'.toJson = .ok j →
      program'.operations = program.operations ∧ program'.fragments = program.fragments := by
  obtain ⟨j, hj⟩ := exists_toJson h
  exact ⟨j, hj, program_decoded hnames h hj, fun hnames' h' => eq_of_toJson_eq hnames h hnames' h' hj⟩

end Programs

/-- A schema with an interface, an enum and an argument, and a document with an inline fragment, a
spread, a variable and arguments with and without a type. -/
def readPets : Option (Schema × Document) := do
  let schema ← (Schema.ofDefinitions (
    Text.ofString "type Query { pets(n: [Int!] k: Kind): [Pet!]! } enum Kind { A } " ++
    Text.ofString "interface Pet { a: Int } type Dog implements Pet { a: Int b: Int @deprecated }" ++
    Text.ofString " type Cat implements Pet { a: Int }")).toOption
  let d ← (Document.parse (
    Text.ofString "query Q($k: Kind!) { pets(n: [1] k: $k o: 2) { ...F ...on Dog { b } } } " ++
    Text.ofString "fragment F on Pet { a }") none 8).toOption
  return (schema, d)

theorem Program.toJson_lossless_pets : ∃ schema d program, readPets = some (schema, d) ∧
    schema.HasNames ∧ Program.ofDocument schema d {} = .ok program ∧
    ∃ j, program.toJson = .ok j ∧
      Decode.program j = some (program.operations.values, program.fragments.values) := by
  have hread : (readPets.any fun r => decide r.1.HasNames &&
      (Program.ofDocument r.1 r.2 {}).toOption.isSome) = true := by decide +kernel
  obtain ⟨⟨schema, d⟩, hr, hread⟩ := (Option.any_eq_true _ _).mp hread
  obtain ⟨hnames, hsome⟩ := Bool.and_eq_true_iff.mp hread
  obtain ⟨program, hprogram⟩ := Option.isSome_iff_exists.mp hsome
  have hok := Success.toOption_eq_some.mp hprogram
  have hlossless := Program.toJson_lossless (of_decide_eq_true hnames) hok
  obtain ⟨j, hj, hdecode, -⟩ := hlossless
  exact ⟨schema, d, program, hr, of_decide_eq_true hnames, hok, j, hj, hdecode⟩

/-- **Nothing is lost under a schema that is accepted**, if its types are called by names: nothing needs
to be known of the names in its arguments, or in those of the other schema. -/
theorem Program.toJson_lossless_of_validated {made schema : Schema} {d : Document}
    {options : CompilerOptions} {program : Program} (hvalid : made.validated = .ok schema)
    (htypes : ∀ e ∈ schema.types.entries, e.1.IsName)
    (h : ofDocument schema d options = .ok program) : ∃ j, program.toJson = .ok j ∧
      Decode.program j = some (program.operations.values, program.fragments.values) ∧
      ∀ {made' schema' : Schema} {d' : Document} {options' : CompilerOptions} {program' : Program},
        made'.validated = .ok schema' → (∀ e ∈ schema'.types.entries, e.1.IsName) →
        ofDocument schema' d' options' = .ok program' → program'.toJson = .ok j →
        program'.operations = program.operations ∧ program'.fragments = program.fragments := by
  have hnames := Schema.hasNames_of_validated hvalid htypes
  obtain ⟨j, hj⟩ := exists_toJson h
  exact ⟨j, hj, program_decoded hnames h hj, fun hvalid' htypes' h' hj' =>
    eq_of_toJson_eq hnames h (Schema.hasNames_of_validated hvalid' htypes') h' hj hj'⟩

end Lowered

end QueryCompiler
