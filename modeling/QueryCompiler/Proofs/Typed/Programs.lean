import QueryCompiler.Proofs.Typed.Resolved

/-!
# Programs keep the meaning of their documents

Fragments spread one another, so the meaning of one follows from that of those it spreads. The
recursion ends since a fragment that is being resolved is not entered again (`fragment_agrees`).
Documents resolve all their fragments and then their operations: `ofDocument_represents` says that
each typed selection set means the selections that it comes from.
-/

namespace QueryCompiler

namespace Resolve

open Document (FieldNode Selects Mentions)
open Typed (OperationMeans FragmentMeans)

section Fragments
variable {ctx : Context} {definitions : List Document.Fragment}

/-- **A fragment agrees with the definition of its name**, whatever fragments are being resolved. -/
theorem fragment_agrees {opened : List Text} {name : Text} {location : Location} {p p' : Progress}
    {f : Typed.Fragment} (hp : Sound ctx.schema definitions p)
    (h : fragment ctx definitions opened name location p = .ok (f, p')) :
    Grows ctx.schema definitions p p' ∧
      (∃ d, definitions.find? (fun d => d.name == name) = some d ∧
        FragmentAgrees ctx.schema definitions d f) ∧
      name ∈ p'.fragments.keys := by
  rcases fragment_ok h with ⟨hf, rfl⟩ | ⟨-, d, hd, ho, -, hdef⟩
  · refine ⟨.refl hp, hp _ _ hf, (OrderedMap.find?_isSome _ _).mp ?_⟩
    rw [hf]; rfl
  · have hname : d.name = name := by simpa using List.find?_some hd
    have hspread : SpreadsAgree ctx.schema definitions
        (fragment ctx definitions (opened ++ [name])) := fun n l p₁ g p₂ hp₁ hg =>
      have hm := fragment_agrees hp₁ hg
      ⟨hm.1, hm.2.1⟩
    obtain ⟨hgrows, hm, hmem⟩ := ofDefinition_agrees hspread (by rwa [hname]) hp hdef
    exact ⟨hgrows, ⟨d, hd, hm⟩, hname ▸ hmem⟩
termination_by (closedDefinitions definitions opened).length
decreasing_by exact length_closedDefinitions_lt hd (by rw [ho]; exact Bool.false_ne_true)

theorem spreadsAgree_fragment (opened : List Text) :
    SpreadsAgree ctx.schema definitions (fragment ctx definitions opened) := by
  intro name location p f p' hp h
  obtain ⟨hgrows, hm, -⟩ := fragment_agrees hp h
  exact ⟨hgrows, hm⟩

theorem sound_empty (typesUsed : List Text) : Sound ctx.schema definitions ⟨∅, typesUsed⟩ := by
  intro name f hf
  cases hf

/-- After all fragments are resolved each of them has a typed form. -/
theorem fragments_agree : ∀ {ds : List Document.Fragment} {p p' : Progress},
    Sound ctx.schema definitions p →
    ds.forM (fun f => discard (fragment ctx definitions [] f.name f.location)) p = .ok ((), p') →
    Grows ctx.schema definitions p p' ∧ ∀ d ∈ ds, d.name ∈ p'.fragments.keys
  | [], p, p', hp, h => by
    obtain ⟨-, rfl⟩ := pure_eq_ok.mp h
    exact ⟨.refl hp, fun d hd => by cases hd⟩
  | d :: ds, p, p', hp, h => by
    obtain ⟨_, p₁, hd, h⟩ := bind_eq_ok.mp h
    obtain ⟨f, hf⟩ := discard_eq_ok.mp hd
    obtain ⟨hgrows, -, hmem⟩ := fragment_agrees hp hf
    obtain ⟨hgrows', hmem'⟩ := fragments_agree hgrows.sound h
    refine ⟨hgrows.trans hgrows', fun e he => ?_⟩
    rcases List.mem_cons.mp he with rfl | he
    · exact hgrows'.keys _ hmem
    · exact hmem' e he

end Fragments

/-! ### Operations -/

section Operations
variable {ctx : Context} {definitions : List Document.Fragment}

/-- An operation that resolves is added at the end. -/
theorem operation_means {done done' : OrderedMap Text Typed.Operation} {o : Document.Operation}
    {p p' : Progress} (hp : Sound ctx.schema definitions p)
    (h : operation ctx definitions done o p = .ok (done', p')) :
    Grows ctx.schema definitions p p' ∧ ∃ e, done'.entries = done.entries ++ [e] ∧
      OperationMeans ctx.schema definitions e o := by
  obtain ⟨name, root, vars, p₁, typed, hname, hnew, hroot, hvars, ha, rfl⟩ := operation_ok h
  have hgrows : Grows ctx.schema definitions p p₁ := .of_fragments_eq hp (resolveVariables_ok hvars).2
  obtain ⟨hagree, hgrows'⟩ := all_agree (spreadsAgree_fragment []) o.selections (fun _ ht => ht)
    hgrows.sound ha
  have hkey : name ∉ done.keys := by
    rw [← OrderedMap.contains_iff, hnew]
    exact Bool.false_ne_true
  exact ⟨hgrows.trans hgrows', _, OrderedMap.entries_insert hkey _,
    hname, root, _, hroot, rfl, rfl, hagree.means⟩

theorem operations_mean : ∀ {os : List Document.Operation}
    {done done' : OrderedMap Text Typed.Operation} {p p' : Progress},
    Sound ctx.schema definitions p →
    os.foldlM (operation ctx definitions) done p = .ok (done', p') →
    Grows ctx.schema definitions p p' ∧ ∃ added, done'.entries = done.entries ++ added ∧
      List.Forall₂ (OperationMeans ctx.schema definitions) added os
  | [], done, done', p, p', hp, h => by
    obtain ⟨rfl, rfl⟩ := pure_eq_ok.mp h
    exact ⟨.refl hp, [], (List.append_nil _).symm, .nil⟩
  | o :: os, done, done', p, p', hp, h => by
    rw [List.foldlM_cons] at h
    obtain ⟨done₁, p₁, ho, h⟩ := bind_eq_ok.mp h
    obtain ⟨hgrows, e, he, hm⟩ := operation_means hp ho
    obtain ⟨hgrows', added, hadded, hms⟩ := operations_mean hgrows.sound h
    refine ⟨hgrows.trans hgrows', e :: added, ?_, .cons hm hms⟩
    rw [hadded, he, List.append_assoc, List.singleton_append]

end Operations

/-! ### Documents -/

section Documents
variable {schema : Schema} {d : Document}

theorem nodup_of_duplicate?_eq_none : ∀ {ds : List Document.Fragment} {names : List Text},
    duplicate? names ds = none →
      (ds.map Document.Fragment.name).Nodup ∧ ∀ f ∈ ds, f.name ∉ names
  | [], names, _ => ⟨List.nodup_nil, fun f hf => by cases hf⟩
  | f :: ds, names, h => by
    rw [duplicate?] at h
    split_ifs at h with hc
    obtain ⟨hnodup, hnot⟩ := nodup_of_duplicate?_eq_none h
    refine ⟨List.nodup_cons.mpr ⟨fun hmem => ?_, hnodup⟩, fun g hg => ?_⟩
    · obtain ⟨g, hg, hname⟩ := List.mem_map.mp hmem
      exact hnot g hg (hname ▸ List.mem_cons_self)
    · rcases List.mem_cons.mp hg with rfl | hg
      · simpa using hc
      · exact fun hn => hnot g hg (List.mem_cons_of_mem _ hn)

theorem find?_of_nodup : ∀ {ds : List Document.Fragment}, (ds.map Document.Fragment.name).Nodup →
    ∀ f ∈ ds, ds.find? (fun e => e.name == f.name) = some f
  | [], _, f, hf => by cases hf
  | e :: ds, h, f, hf => by
    obtain ⟨hnot, hnodup⟩ := List.nodup_cons.mp h
    rcases List.mem_cons.mp hf with rfl | hf
    · exact List.find?_cons_of_pos (by simp)
    · have hne : ¬ e.name = f.name := fun he => hnot (he ▸ List.mem_map_of_mem hf)
      rw [List.find?_cons_of_neg (by simpa using hne)]
      exact find?_of_nodup hnodup f hf

/-- Definitions of one name are one definition. -/
theorem eq_of_name_eq {ds : List Document.Fragment} (h : (ds.map Document.Fragment.name).Nodup)
    {e f : Document.Fragment} (he : e ∈ ds) (hf : f ∈ ds) (hname : e.name = f.name) : e = f :=
  Option.some.inj ((find?_of_nodup h e he).symm.trans (hname ▸ find?_of_nodup h f hf))

/-- The fragments of a sound progress, in the order of their definitions. -/
theorem inDefinitionOrder_means {p : Progress} (hdup : duplicate? [] d.fragments = none)
    (hp : Sound schema d.fragments p) (hkeys : ∀ f ∈ d.fragments, f.name ∈ p.fragments.keys) :
    List.Forall₂ (FragmentMeans schema d.fragments) (inDefinitionOrder d p.fragments).entries
      d.fragments := by
  have hnodup := (nodup_of_duplicate?_eq_none hdup).1
  have hentries : ∀ {ds : List Document.Fragment}, (∀ f ∈ ds, f ∈ d.fragments) →
      List.Forall₂ (fun (e : Text × Typed.Fragment) f => FragmentMeans schema d.fragments e f)
        (ds.filterMap fun f => (p.fragments.find? f.name).map fun r => (f.name, r)) ds := by
    intro ds hds
    induction ds with
    | nil => exact .nil
    | cons f ds ih =>
      have hf := hds f List.mem_cons_self
      obtain ⟨r, hr⟩ := Option.isSome_iff_exists.mp
        ((OrderedMap.find?_isSome p.fragments f.name).mpr (hkeys f hf))
      obtain ⟨e, he, hm⟩ := hp f.name r hr
      rw [find?_of_nodup hnodup f hf] at he
      obtain rfl := Option.some.inj he
      obtain ⟨typed, hset, hagree⟩ := hm.selections
      rw [List.filterMap_cons, hr]
      exact .cons ⟨rfl, hm.types, _, hset, rfl, hagree.means⟩
        (ih fun g hg => hds g (List.mem_cons_of_mem _ hg))
  have hall := hentries fun _ h => h
  rw [inDefinitionOrder, OrderedMap.entries_ofList]
  · exact hall
  · have hnames := List.forall₂_map_left_iff.mpr
      (List.forall₂_map_right_iff.mpr (hall.imp fun e f h => h.name))
    rw [List.forall₂_eq_eq_eq] at hnames
    rw [hnames]
    exact hnodup

end Documents

end Resolve

namespace Typed

open Resolve

/-- **The operations and fragments of a program mean those of its document**, one by one and in the
order of the document. -/
theorem ofDocument_represents {schema : Schema} {d : Document} {options : CompilerOptions}
    {program : Program} (h : Program.ofDocument schema d options = .ok program) :
    List.Forall₂ (OperationMeans schema (prepared d options).fragments)
        program.operations.entries (prepared d options).operations ∧
      List.Forall₂ (FragmentMeans schema (prepared d options).fragments)
        program.fragments.entries (prepared d options).fragments := by
  obtain ⟨⟨operations, p⟩, hrun, h⟩ := Success.bind_eq_ok.mp h
  obtain rfl := Except.ok.inj h
  obtain ⟨hdup, p₁, hfragments, hoperations⟩ := document_ok hrun
  obtain ⟨hgrows, hkeys⟩ := fragments_agree (sound_empty []) hfragments
  obtain ⟨hgrows', added, hadded, hms⟩ := operations_mean hgrows.sound hoperations
  refine ⟨?_, inDefinitionOrder_means hdup hgrows'.sound fun f hf => hgrows'.keys _ (hkeys f hf)⟩
  show List.Forall₂ _ operations.entries _
  rw [hadded]
  exact hms

/-- A query asks for nodes, which are users or teams. -/
def nodeSchema : Schema :=
  let id : FieldDefinition := { name := "id", type := .named "ID" }
  let node : FieldDefinition := { name := "node", type := .named "Node" }
  { Schema.initial with
    types := .ofList [
      ("ID", { kind := .scalar, name := "ID" }),
      ("String", { kind := .scalar, name := "String" }),
      ("Query", { kind := .object, name := "Query", fields := [node] }),
      ("Node", { kind := .interface, name := "Node", fields := [id] }),
      ("User", { kind := .object, name := "User", interfaces := ["Node"], fields := [id] }),
      ("Team", { kind := .object, name := "Team", interfaces := ["Node"], fields := [id] })]
    queryType := some "Query" }

/-- An operation that spreads a fragment under a variable, and a fragment that spreads another, with
literal conditions that keep a selection and drop one. -/
def nodeDocument : Document :=
  let l : Location := ⟨1, 1⟩
  let condition (name : Text) (value : Document.Value) : Document.Directive :=
    ⟨name, [⟨"if", value⟩], l⟩
  let field (name : Text) (directives : List Document.Directive)
    (selections : List Document.Selection) : Document.Selection :=
    .field ⟨none, name, [], directives, l⟩ selections
  { operations := [⟨.query, some "Q", [], [], [field "node" [] [
      .spread ⟨"F", [condition "include" (.variable "v")], l⟩,
      .inline ⟨some "User", [condition "skip" (.variable "w"), condition "skip" (.boolean false)], l⟩
        [field "id" [] []]]], l, none⟩]
    fragments := [
      ⟨"F", "Node", [], [field "id" [] [], .spread ⟨"G", [], l⟩], l, none⟩,
      ⟨"G", "Team", [], [field "id" [condition "include" (.boolean false)] []], l, none⟩]
    order := [.operation, .fragment, .fragment] }

theorem ofDocument_represents_nodes : ∃ program,
    Program.ofDocument nodeSchema nodeDocument { addTypename := true } = .ok program ∧
      List.Forall₂ (OperationMeans nodeSchema nodeDocument.addTypename.fragments)
        program.operations.entries nodeDocument.addTypename.operations ∧
      List.Forall₂ (FragmentMeans nodeSchema nodeDocument.addTypename.fragments)
        program.fragments.entries nodeDocument.addTypename.fragments := by
  have hok : (Program.ofDocument nodeSchema nodeDocument { addTypename := true }).isOk = true := by
    decide +kernel
  cases h : Program.ofDocument nodeSchema nodeDocument { addTypename := true } with
  | error e => rw [h] at hok; cases hok
  | ok program => exact ⟨program, rfl, ofDocument_represents h⟩

end Typed

end QueryCompiler
