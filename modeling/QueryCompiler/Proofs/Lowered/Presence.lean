import QueryCompiler.Parser
import QueryCompiler.Document.Parser
import QueryCompiler.Schema.Definitions
import QueryCompiler.Proofs.Lowered.Assembled
import QueryCompiler.Proofs.Lowered.Reading
import QueryCompiler.Proofs.Typed.Offers

/-!
# Fields that are always there

A field of a lowered operation that is not conditional is there whatever the variables are: the
selections of the document select its response key, in the object that its body is read for. Inside a
field this needs that the assignment selects every field of the response key that is offered: the
fields of one key become one, and that has the selections of all of them, without their conditions.

* `Reaches`: the selections that an object answers, at some depth of a lowered operation, and the
  body that is read for it.
* `Agrees`: the body comes from a typed selection set that the selections explain. It holds of the
  operation, and inside every field of a body of which it holds (`Agrees.inside`).
* `unconditional_isSelected`: so fields that are not conditional are selected.
-/

namespace QueryCompiler

namespace Lowered

open Document (FieldNode Selects Offers selectionsWithin parse)
open Typed (SelectionSet Explains grouped group?)

/-! ### Reading a field -/

theorem Body.ReadsFields.unique {b : Body} {t : Text} {fields fields' : List Field}
    (h : b.ReadsFields t fields) (h' : b.ReadsFields t fields') : fields = fields' := by
  by_cases hex : ∃ i ∈ b.inlineFragments, i.typeCondition = t
  · obtain ⟨i, hi, ht⟩ := hex
    exact (h.1 i hi ht).symm.trans (h'.1 i hi ht)
  · have hnone : ∀ i ∈ b.inlineFragments, i.typeCondition ≠ t := fun i hi ht => hex ⟨i, hi, ht⟩
    exact (h.2 hnone).symm.trans (h'.2 hnone)

section Faithful
variable {settings : Settings} {levels : Nat} {s : SelectionSet} {b : Body} {t : Text}
  {fields : List Field}

/-- A field that is read for a type is the group of its response key, lowered. -/
theorem Exact.reads {inside : SelectionSet → Body → Prop} (h : Exact settings levels inside s b)
    (ht : t ∈ s.possibleTypes) (hr : b.ReadsFields t fields) : ∀ g ∈ fields, ∃ f,
      group? (s.occurrences settings.mergeSpreads t) g.head.responseName = some f ∧
        g.head = headOf f.head ∧ ∀ inner, g.body = some inner → ∃ set, f.nested = some set ∧
          inside set inner := by
  obtain ⟨fields', hr', hmap, hinside⟩ := h.fields t ht
  obtain rfl := hr.unique hr'
  intro g hg
  have hboth := (Success.mapM_eq_ok.mp hmap).mp (fun f g hf hin => And.intro hf hin) hinside
  obtain ⟨f, hf, hlower, hin⟩ := Success.exists_of_mem_right hboth hg
  obtain ⟨hhead, hnone⟩ := fieldWithin_ok hlower
  obtain ⟨key, -, hgroup⟩ := List.mem_filterMap.mp hf
  have hkey : key = g.head.responseName := by
    rw [hhead, ← Typed.responseKey_of_group? hgroup]
    rfl
  refine ⟨f, hkey ▸ hgroup, hhead, fun inner hbody => ?_⟩
  cases hnested : f.nested with
  | none => rw [hnone hnested] at hbody; cases hbody
  | some set =>
    obtain ⟨inner', hbody', hfaithful⟩ := hin set hnested
    obtain rfl := Option.some.inj (hbody.symm.trans hbody')
    exact ⟨set, rfl, hfaithful⟩

/-- A faithful body is exact, and what is inside it is faithful. -/
theorem Faithful.exact (h : Faithful settings levels s b) : ∃ inside : SelectionSet → Body → Prop,
    Exact settings levels inside s b ∧
      ∀ set inner, inside set inner → ∃ levels', Faithful settings levels' set inner := by
  cases levels with
  | zero => exact ⟨_, h, fun _ _ hin => hin.elim⟩
  | succ levels => exact ⟨_, h, fun _ _ hin => ⟨levels, hin⟩⟩

end Faithful

/-! ### Objects and what is read for them -/

section Reading
variable (schema : Schema) (definitions : List Document.Fragment) (assignment : Text → Bool)

/-- **The objects of an answer**: the selections that an object of a type answers under an assignment,
and the body that is read for it. An object inside a field is reached if all fields of its response
key that are offered are selected; it answers the selections of all of them. -/
inductive Reaches (types : List Text) (selections : List Document.Selection) (body : Body) :
    List Document.Selection → Text → Body → Prop
  | root {t} : t ∈ types → Reaches types selections body selections t body
  | inside {outer t b fields g inner nodes t'} : Reaches types selections body outer t b →
      b.ReadsFields t fields → g ∈ fields → g.body = some inner →
      Selects schema definitions assignment t outer nodes →
      (∀ node, Offers schema definitions t outer node →
        node.1.responseKey = g.head.responseName → node ∈ nodes) →
      schema.IsPossible g.head.type.namedType t' →
      Reaches types selections body (selectionsWithin g.head.responseName nodes) t' inner

variable (settings : Settings)

/-- The body comes from a typed selection set that the selections explain, with the type among its
possible types. -/
def Agrees (selections : List Document.Selection) (t : Text) (b : Body) : Prop :=
  ∃ levels s, Faithful settings levels s b ∧ t ∈ s.possibleTypes ∧
    Explains schema definitions selections s.selections

variable {schema definitions assignment settings} {selections : List Document.Selection} {t : Text}
  {b : Body}

/-- **A body inside a field agrees if the body of the field does.** -/
theorem Agrees.inside (hmerge : settings.mergeSpreads = true)
    (h : Agrees schema definitions settings selections t b) {fields : List Field} {g : Field}
    {inner : Body} {nodes : List FieldNode} {t' : Text} (hr : b.ReadsFields t fields)
    (hg : g ∈ fields) (hbody : g.body = some inner)
    (hn : Selects schema definitions assignment t selections nodes)
    (hall : ∀ node, Offers schema definitions t selections node →
      node.1.responseKey = g.head.responseName → node ∈ nodes)
    (ht' : schema.IsPossible g.head.type.namedType t') :
    Agrees schema definitions settings (selectionsWithin g.head.responseName nodes) t' inner := by
  obtain ⟨levels, s, hfaithful, ht, hexplains⟩ := h
  obtain ⟨inside, hexact, hfaithful⟩ := hfaithful.exact
  obtain ⟨f, hgroup, hhead, hin⟩ := hexact.reads ht hr g hg
  rw [hmerge] at hgroup
  obtain ⟨set, hset, hinner⟩ := hin inner hbody
  obtain ⟨levels', hinner⟩ := hfaithful set inner hinner
  obtain ⟨types, htypes, hmem⟩ := ht'
  rw [hhead] at htypes
  refine ⟨levels', set, hinner, ?_, hexplains.inside hgroup hset hn hall⟩
  rwa [hexplains.possibleTypes_inside hgroup htypes hset]

/-- Every object of an answer agrees if the operation does. -/
theorem Reaches.agrees (hmerge : settings.mergeSpreads = true) {types : List Text} {body : Body}
    (hroot : ∀ t ∈ types, Agrees schema definitions settings selections t body)
    {outer : List Document.Selection}
    (h : Reaches schema definitions assignment types selections body outer t b) :
    Agrees schema definitions settings outer t b := by
  induction h with
  | root ht => exact hroot _ ht
  | inside _ hr hg hbody hn hall ht' ih => exact ih.inside hmerge hr hg hbody hn hall ht'

/-- **Where selections and body agree, fields that are not conditional are selected.** -/
theorem Agrees.isSelected (hmerge : settings.mergeSpreads = true)
    (h : Agrees schema definitions settings selections t b) (assignment : Text → Bool) :
    ∃ nodes fields, Selects schema definitions assignment t selections nodes ∧
      b.ReadsFields t fields ∧ ∀ g ∈ fields, g.head.isConditional = false →
        ∃ node ∈ nodes, node.1.responseKey = g.head.responseName := by
  obtain ⟨levels, s, hfaithful, ht, hexplains⟩ := h
  obtain ⟨inside, hexact, -⟩ := hfaithful.exact
  obtain ⟨nodes, hn, -⟩ := hexplains.selectable assignment t
  obtain ⟨fields, hr, -⟩ := hexact.fields t ht
  refine ⟨nodes, fields, hn, hr, fun g hg hcond => ?_⟩
  obtain ⟨f, hgroup, hhead, -⟩ := hexact.reads ht hr g hg
  rw [hmerge] at hgroup
  rw [hhead] at hcond
  exact hexplains.isSelected hgroup hcond hn

end Reading

/-! ### Operations -/

/-- **A field that is not conditional is always there.** With the fields of spreads merged in, every
object that is reached in the answer to a compiled operation, under any assignment, has each field
that is read for its type and is not conditional: its selections select the response key. -/
theorem unconditional_isSelected {schema : Schema} {d : Document} {options : CompilerOptions}
    (hmerge : options.mergeInFieldsFromFragmentSpreads = true) {program : Program}
    (h : Program.ofDocument schema d options = .ok program) :
    List.Forall₂ (fun (o : Document.Operation) (e : Text × Operation) => o.name = some e.1 ∧
      ∃ root, schema.rootType? o.operation = some root ∧ ∀ assignment selections t b,
        Reaches schema (Typed.prepared d options).fragments assignment
          (schema.possibleTypesOf root) o.selections e.2.body selections t b →
        ∃ nodes fields,
          Selects schema (Typed.prepared d options).fragments assignment t selections nodes ∧
            b.ReadsFields t fields ∧ ∀ g ∈ fields, g.head.isConditional = false →
              ∃ node ∈ nodes, node.1.responseKey = g.head.responseName)
      (Typed.prepared d options).operations program.operations.entries := by
  obtain ⟨p, hp, hoptions, hlower⟩ := Program.ofDocument_ok h
  have hcarries := Typed.Program.ofDocument_carriesAll hp
  obtain ⟨hoperations, -⟩ := Program.ofTyped_ok hlower
  refine (Success.forall₂_comp hcarries.operations hoperations).imp fun o e he => ?_
  obtain ⟨typed, hcarry, hkey, hof⟩ := he
  obtain ⟨s, sources, hset, -, hbody, -⟩ := Operation.ofTyped_ok hof
  obtain ⟨root, inner, hroot, hset', hresolves, -⟩ := hcarry.selections
  obtain rfl := Option.some.inj (hset.symm.trans hset')
  have hfaithful := body_faithful hbody
  have hsettings : (Settings.ofOptions {} p.options).mergeSpreads = true := by
    rw [hoptions]
    exact hmerge
  refine ⟨hkey ▸ hcarry.key, root, hroot, fun assignment selections t b hreaches => ?_⟩
  have hagrees : ∀ t ∈ schema.possibleTypesOf root, Agrees schema
      (Typed.prepared d options).fragments (.ofOptions {} p.options) o.selections t e.2.body :=
    fun t ht => ⟨_, _, hfaithful, ht, hresolves.explains⟩
  exact (hreaches.agrees hsettings hagrees).isSelected hsettings assignment

/-! ### A field that is selected twice -/

/-- The definitions of a schema with an object inside the root. -/
def onePet : Text :=
  Text.ofString "type Query { pet: Pet } type Pet { name: String age: Int }"

/-- An operation that selects one field twice, the second time under a variable. -/
def petTwice : Text :=
  Text.ofString "query Q($v: Boolean!) { pet { name } pet @include(if: $v) { age } }"

/-- The program of these, and where it is read. -/
structure PetTwice where
  schema : Schema
  d : Document
  program : Program
  /-- The operation. -/
  o : Document.Operation
  /-- What it becomes. -/
  e : Text × Operation
  /-- The type of the root. -/
  root : NamedType
  /-- The two selections of the operation. -/
  nodes : List FieldNode
  /-- The field that they become. -/
  parent : Field
  /-- The body of that. -/
  inner : Body

/-- The fields of the operation that are selected. -/
def PetTwice.selected (r : PetTwice) (assignment : Text → Bool) : List FieldNode :=
  r.nodes.filter fun node => (Document.Selection.field node.1 node.2).isSelected assignment

/-- The compilation. -/
def petTwice? : Option PetTwice := do
  let schema ← (Schema.ofDefinitions onePet).toOption
  let d ← (parse petTwice none 3).toOption
  let program ← (Program.ofDocument schema d {}).toOption
  let o ← d.operations.head?
  let e ← program.operations.entries.head?
  let root ← schema.rootType? o.operation
  let nodes ← Document.onlyFields? o.selections
  let parent ← e.2.body.fields.head?
  let inner ← parent.body
  return ⟨schema, d, program, o, e, root, nodes, parent, inner⟩

/-- What is computed of the types and bodies. -/
def PetTwice.check (r : PetTwice) : Bool :=
  (r.schema.possibleTypesOf r.root).contains ("Query" : Text) &&
    ((r.schema.possibleTypes r.parent.head.type.namedType).toOption.any fun types =>
      types.contains ("Pet" : Text)) &&
    r.e.2.body.inlineFragments.isEmpty && r.inner.inlineFragments.isEmpty

/-- The operation is compiled, and its object inside is read for the type of that. -/
structure PetTwice.Runs (r : PetTwice) : Prop where
  schema : Schema.ofDefinitions onePet = .ok r.schema
  d : parse petTwice none 3 = .ok r.d
  program : Program.ofDocument r.schema r.d {} = .ok r.program
  o : r.d.operations.head? = some r.o
  e : r.program.operations.entries.head? = some r.e
  root : r.schema.rootType? r.o.operation = some r.root
  isRoot : ("Query" : Text) ∈ r.schema.possibleTypesOf r.root
  reads : r.e.2.body.ReadsFields "Query" r.e.2.body.fields
  selects : ∀ assignment, Selects r.schema r.d.fragments assignment "Query" r.o.selections
    (r.selected assignment)
  offers : ∀ node, Offers r.schema r.d.fragments "Query" r.o.selections node → node ∈ r.nodes
  parent : r.parent ∈ r.e.2.body.fields
  inner : r.parent.body = some r.inner
  isInner : r.schema.IsPossible r.parent.head.type.namedType "Pet"
  readsInner : r.inner.ReadsFields "Pet" r.inner.fields

theorem Body.readsFields_of_isEmpty {b : Body} (h : b.inlineFragments.isEmpty = true) (t : Text) :
    b.ReadsFields t b.fields := by
  rw [List.isEmpty_iff] at h
  refine ⟨fun i hi => ?_, fun _ => rfl⟩
  rw [h] at hi
  cases hi

theorem exists_petTwice : ∃ r, petTwice? = some r ∧ r.Runs := by
  have hany : petTwice?.any PetTwice.check = true := by decide +kernel
  obtain ⟨r, hr⟩ : ∃ r, petTwice? = some r :=
    Option.isSome_iff_exists.mp (Option.isSome_of_any hany)
  rw [hr, Option.any_some] at hany
  have hrun := hr
  obtain ⟨schema, hschema, hrun⟩ := Option.bind_eq_some_iff.mp hrun
  obtain ⟨d, hd, hrun⟩ := Option.bind_eq_some_iff.mp hrun
  obtain ⟨program, hprogram, hrun⟩ := Option.bind_eq_some_iff.mp hrun
  obtain ⟨o, ho, hrun⟩ := Option.bind_eq_some_iff.mp hrun
  obtain ⟨e, he, hrun⟩ := Option.bind_eq_some_iff.mp hrun
  obtain ⟨root, hroot, hrun⟩ := Option.bind_eq_some_iff.mp hrun
  obtain ⟨nodes, hnodes, hrun⟩ := Option.bind_eq_some_iff.mp hrun
  obtain ⟨parent, hparent, hrun⟩ := Option.bind_eq_some_iff.mp hrun
  obtain ⟨inner, hinner, hrun⟩ := Option.bind_eq_some_iff.mp hrun
  obtain rfl := Option.some.inj hrun
  simp only [PetTwice.check, Bool.and_eq_true, List.contains_eq_mem, decide_eq_true_eq] at hany
  obtain ⟨⟨⟨hquery, hpet⟩, hbody⟩, hbody'⟩ := hany
  replace hnodes := Document.of_onlyFields? hnodes
  refine ⟨_, hr, Success.toOption_eq_some.mp hschema, Success.toOption_eq_some.mp hd,
    Success.toOption_eq_some.mp hprogram, ho, he, hroot, hquery, Body.readsFields_of_isEmpty hbody _,
    fun assignment => ?_, fun node hnode => ?_, List.mem_of_mem_head? hparent, hinner, ?_,
    Body.readsFields_of_isEmpty hbody' _⟩
  · show Selects schema d.fragments assignment "Query" o.selections _
    rw [hnodes]
    exact Document.selects_fields nodes
  · replace hnode : Offers schema d.fragments "Query" o.selections node := hnode
    rw [hnodes] at hnode
    exact Document.mem_of_offers_fields hnode
  · cases htypes : schema.possibleTypes parent.head.type.namedType with
    | error _ => rw [htypes] at hpet; cases hpet
    | ok types =>
      rw [htypes] at hpet
      exact ⟨types, htypes, of_decide_eq_true hpet⟩

theorem unconditional_isSelected_petTwice : ∃ r : PetTwice, r.Runs ∧ ∃ selections,
    Reaches r.schema r.d.fragments (fun _ => true) (r.schema.possibleTypesOf r.root) r.o.selections
      r.e.2.body selections "Pet" r.inner ∧
    ∃ nodes fields, Selects r.schema r.d.fragments (fun _ => true) "Pet" selections nodes ∧
      r.inner.ReadsFields "Pet" fields ∧ ∀ g ∈ fields, g.head.isConditional = false →
        ∃ node ∈ nodes, node.1.responseKey = g.head.responseName := by
  obtain ⟨r, hr, hruns⟩ := exists_petTwice
  have hall : (petTwice?.any fun r => (r.selected fun _ => true).length = r.nodes.length) = true := by
    decide +kernel
  rw [hr, Option.any_some, decide_eq_true_eq] at hall
  have hreaches : Reaches r.schema r.d.fragments (fun _ => true) (r.schema.possibleTypesOf r.root)
      r.o.selections r.e.2.body (selectionsWithin r.parent.head.responseName (r.selected fun _ => true))
      "Pet" r.inner := by
    refine .inside (.root hruns.isRoot) hruns.reads hruns.parent hruns.inner (hruns.selects _)
      (fun node hnode _ => ?_) hruns.isInner
    rw [PetTwice.selected, List.filter_eq_self.mpr (List.length_filter_eq_length_iff.mp hall)]
    exact hruns.offers node hnode
  refine ⟨r, hruns, _, hreaches, ?_⟩
  have hspec := unconditional_isSelected rfl hruns.program
  obtain ⟨os, ho⟩ := List.head?_eq_some_iff.mp hruns.o
  obtain ⟨es, he⟩ := List.head?_eq_some_iff.mp hruns.e
  replace hspec : List.Forall₂ _ r.d.operations r.program.operations.entries := hspec
  rw [ho, he] at hspec
  obtain ⟨-, root, hroot, hspec⟩ := (List.forall₂_cons.mp hspec).1
  obtain rfl := Option.some.inj (hruns.root.symm.trans hroot)
  exact hspec _ _ _ _ hreaches

/-- A field of the inner object that is not conditional and that the selected selections leave out,
and the selections there. -/
def PetTwice.leftOut? (r : PetTwice) (assignment : Text → Bool) :
    Option (FieldNode × List FieldNode × Field) := do
  let key := r.parent.head.responseName
  let node ← (r.selected assignment).find? fun node => node.1.responseKey = key
  let inside ← Document.onlyFields? (selectionsWithin key (r.selected assignment))
  let g ← r.inner.fields.find? fun g =>
    !g.head.isConditional && inside.all fun node => node.1.responseKey ≠ g.head.responseName
  return (node, inside, g)

/-- **A field that is not conditional may be missing** in an object that is selected, if another field
of its response key is not. -/
theorem unconditional_not_isSelected : ∃ r : PetTwice, r.Runs ∧ ∃ nodes,
    Selects r.schema r.d.fragments (fun _ => false) "Query" r.o.selections nodes ∧
      (∃ node ∈ nodes, node.1.responseKey = r.parent.head.responseName) ∧
      ∃ g ∈ r.inner.fields, g.head.isConditional = false ∧ ∃ nodes',
        Selects r.schema r.d.fragments (fun _ => false) "Pet"
          (selectionsWithin r.parent.head.responseName nodes) nodes' ∧
        ∀ node ∈ nodes', node.1.responseKey ≠ g.head.responseName := by
  obtain ⟨r, hr, hruns⟩ := exists_petTwice
  have hsome : (petTwice?.bind fun r => r.leftOut? fun _ => false).isSome = true := by decide +kernel
  rw [hr, Option.bind_some] at hsome
  obtain ⟨x, hx⟩ := Option.isSome_iff_exists.mp hsome
  obtain ⟨node, hnode, hx⟩ := Option.bind_eq_some_iff.mp hx
  obtain ⟨inside, hinside, hx⟩ := Option.bind_eq_some_iff.mp hx
  obtain ⟨g, hg, -⟩ := Option.bind_eq_some_iff.mp hx
  have hkey := List.find?_some hnode
  have hfield := List.find?_some hg
  simp only [Bool.and_eq_true, Bool.not_eq_true', List.all_eq_true, decide_eq_true_eq] at hfield
  refine ⟨r, hruns, _, hruns.selects _,
    ⟨node, List.mem_of_find?_eq_some hnode, of_decide_eq_true hkey⟩, g,
    List.mem_of_find?_eq_some hg, hfield.1,
    inside.filter fun node => (Document.Selection.field node.1 node.2).isSelected fun _ => false, ?_,
    fun node hn => hfield.2 node (List.mem_filter.mp hn).1⟩
  rw [Document.of_onlyFields? hinside]
  exact Document.selects_fields inside

end Lowered

end QueryCompiler
