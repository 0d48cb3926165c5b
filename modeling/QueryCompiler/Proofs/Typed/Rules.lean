import QueryCompiler.Proofs.Typed.Guards
import QueryCompiler.Proofs.Typed.Programs

/-!
# Resolving by rules

What a resolution makes of selections, without the progress that it keeps: a spread stands for the
selections of the definition of its name, resolved on the types of the fragment (`Resolves`). That the
resolution follows the rules is an invariant of the fragments found so far (`Tidy`), which only become
more (`Extends`); every spread then carries the selections of the fragment of its name, since a
fragment is resolved once.

* `all_resolves`: selections resolve by the rules, if spreads find their fragments.
* `fragment_finds`: spreads do.
* `Program.ofDocument_carriesAll`: so do all operations and fragments of a document.
-/

namespace QueryCompiler

namespace Typed

/-! ### Rules -/

/-- A typed field answers under the response key of a field of a document, and unconditionally. -/
structure HeadOf (f : Document.Field) (head : FieldHead) : Prop where
  responseKey : head.responseKey = f.responseKey
  unconditional : head.isConditional = false

/-- **What selections resolve to** in a set on some possible types. -/
inductive Resolves (schema : Schema) (definitions : List Document.Fragment) :
    List Text → List Document.Selection → List Selection → Prop
  | nil {types} : Resolves schema definitions types [] []
  | leaf {types f head rest typed} : HeadOf f head →
      (∀ inside, schema.possibleTypes head.type.namedType ≠ .ok inside) →
      Resolves schema definitions types rest typed →
      Resolves schema definitions types (.field f [] :: rest)
        (kept types f.directives (.field head none) ++ typed)
  | field {types f head inside nested inner rest typed} : HeadOf f head →
      schema.possibleTypes head.type.namedType = .ok inside →
      Resolves schema definitions inside nested inner →
      Resolves schema definitions types rest typed →
      Resolves schema definitions types (.field f nested :: rest)
        (kept types f.directives (.field head (some (.mk inside inner))) ++ typed)
  | inlineAny {types f type inside nested inner rest typed} : f.typeCondition = none →
      (∀ t, t ∈ inside ↔ t ∈ types) → Resolves schema definitions inside nested inner →
      Resolves schema definitions types rest typed →
      Resolves schema definitions types (.inline f nested :: rest)
        (kept types f.directives (.typeCondition type (some (.mk inside inner))) ++ typed)
  | inlineOn {types f name type possible nested inner rest typed} : f.typeCondition = some name →
      schema.possibleTypes name = .ok possible →
      Resolves schema definitions (intersect possible types) nested inner →
      Resolves schema definitions types rest typed →
      Resolves schema definitions types (.inline f nested :: rest)
        (kept types f.directives
          (.typeCondition type (some (.mk (intersect possible types) inner))) ++ typed)
  | spread {types f d type possible inner rest typed} :
      definitions.find? (fun d => d.name == f.name) = some d →
      schema.possibleTypes d.typeCondition = .ok possible →
      Resolves schema definitions possible d.selections inner →
      Resolves schema definitions types rest typed →
      Resolves schema definitions types (.spread f :: rest)
        (kept types f.directives
          (.spread f.name type (some (.mk (intersect types possible) inner))) ++ typed)

theorem Resolves.append {schema : Schema} {definitions : List Document.Fragment} {types : List Text}
    {first second : List Document.Selection} {typed typed' : List Selection}
    (h : Resolves schema definitions types first typed)
    (h' : Resolves schema definitions types second typed') :
    Resolves schema definitions types (first ++ second) (typed ++ typed') := by
  induction h with
  | nil => exact h'
  | leaf hh ht _ ih => rw [List.append_assoc]; exact .leaf hh ht (ih h')
  | field hh ht hi _ _ ih => rw [List.append_assoc]; exact .field hh ht hi (ih h')
  | inlineAny hn ht hi _ _ ih => rw [List.append_assoc]; exact .inlineAny hn ht hi (ih h')
  | inlineOn hn ht hi _ _ ih => rw [List.append_assoc]; exact .inlineOn hn ht hi (ih h')
  | spread hd ht hi _ _ ih => rw [List.append_assoc]; exact .spread hd ht hi (ih h')

/-! ### Fragments that are resolved -/

/-- The selections of the fragments of a map. -/
def tableOf (fragments : OrderedMap Text Fragment) : Table := fun name =>
  (fragments.find? name).bind fun f => f.selectionSet.map SelectionSet.selections

theorem tableOf_mono {fragments fragments' : OrderedMap Text Fragment}
    (h : ∀ name f, fragments.find? name = some f → fragments'.find? name = some f)
    (name : Text) (inner : List Selection) (ht : tableOf fragments name = some inner) :
    tableOf fragments' name = some inner := by
  obtain ⟨f, hf, hs⟩ := Option.bind_eq_some_iff.mp ht
  rw [tableOf, h name f hf]
  exact hs

/-- A typed fragment has the name and the text of a definition, whose selections resolve to its own,
and its spreads carry what a table has for their names. -/
structure Carries (schema : Schema) (definitions : List Document.Fragment) (table : Table)
    (d : Document.Fragment) (f : Fragment) : Prop where
  name : f.name = d.name
  source : f.source = d.text
  types : schema.possibleTypes d.typeCondition = .ok f.possibleTypes
  selections : ∃ inner, f.selectionSet = some (.mk f.possibleTypes inner) ∧
    Resolves schema definitions f.possibleTypes d.selections inner ∧ Linked table inner

theorem Carries.mono {schema : Schema} {definitions : List Document.Fragment} {table table' : Table}
    {d : Document.Fragment} {f : Fragment} (h : Carries schema definitions table d f)
    (hle : ∀ name inner, table name = some inner → table' name = some inner) :
    Carries schema definitions table' d f := by
  obtain ⟨inner, hs, hresolves, hlinked⟩ := h.selections
  exact ⟨h.name, h.source, h.types, inner, hs, hresolves, hlinked.mono hle⟩

end Typed

namespace Resolve

open Typed (HeadOf Resolves Linked Carries tableOf kept intersect)

/-! ### Progress -/

section Progress
variable (schema : Schema) (definitions : List Document.Fragment)

/-- Every fragment that is resolved carries what the definition of its name says. -/
def Tidy (p : Progress) : Prop :=
  ∀ name f, p.fragments.find? name = some f → ∃ d,
    definitions.find? (fun d => d.name == name) = some d ∧
      Carries schema definitions (tableOf p.fragments) d f

/-- A later progress is tidy and has the fragments of an earlier one, but no more of those that are
open. -/
structure Extends (opened : List Text) (p p' : Progress) : Prop where
  tidy : Tidy schema definitions p'
  found : ∀ name f, p.fragments.find? name = some f → p'.fragments.find? name = some f
  opened : ∀ name ∈ opened, p.fragments.find? name = none → p'.fragments.find? name = none

/-- What spreads resolve to: the fragments that the progress then has for their names. -/
def SpreadsFind (opened : List Text) (spread : Text → Location → Step Typed.Fragment) : Prop :=
  ∀ name location p f p', Tidy schema definitions p → spread name location p = .ok (f, p') →
    Extends schema definitions opened p p' ∧ p'.fragments.find? name = some f

variable {schema definitions} {opened opened' : List Text} {p p₁ p' : Progress}

theorem Extends.refl (h : Tidy schema definitions p) : Extends schema definitions opened p p :=
  ⟨h, fun _ _ h => h, fun _ _ h => h⟩

theorem Extends.trans (h : Extends schema definitions opened p p₁)
    (h' : Extends schema definitions opened p₁ p') : Extends schema definitions opened p p' :=
  ⟨h'.tidy, fun name f hf => h'.found name f (h.found name f hf),
    fun name hn hnone => h'.opened name hn (h.opened name hn hnone)⟩

theorem Extends.mono (h : Extends schema definitions opened p p') (hs : opened' ⊆ opened) :
    Extends schema definitions opened' p p' :=
  ⟨h.tidy, h.found, fun name hn => h.opened name (hs hn)⟩

/-- Steps that leave the fragments as they are keep them tidy. -/
theorem Extends.of_fragments_eq (h : Tidy schema definitions p) (he : p'.fragments = p.fragments) :
    Extends schema definitions opened p p' := by
  refine ⟨?_, ?_, ?_⟩
  · unfold Tidy
    rwa [he]
  · rw [he]
    exact fun _ _ h => h
  · rw [he]
    exact fun _ _ h => h

/-- A new fragment that carries what its definition says may be added, if it is not open. -/
theorem Extends.insert {d : Document.Fragment} {f : Typed.Fragment} (h : Tidy schema definitions p)
    (hd : definitions.find? (fun e => e.name == d.name) = some d)
    (hf : Carries schema definitions (tableOf p.fragments) d f)
    (hnew : p.fragments.find? d.name = none) (ho : d.name ∉ opened) :
    Extends schema definitions opened p { p with fragments := p.fragments.insert d.name f } ∧
      (p.fragments.insert d.name f).find? d.name = some f := by
  have hkeep : ∀ name g, p.fragments.find? name = some g →
      (p.fragments.insert d.name f).find? name = some g := by
    intro name g hg
    rw [OrderedMap.find?_insert, hg, Option.some_or]
  have hmono := Typed.tableOf_mono hkeep
  refine ⟨⟨fun name g hg => ?_, hkeep, fun name hn hnone => ?_⟩, ?_⟩
  · rw [OrderedMap.find?_insert] at hg
    rcases Option.or_eq_some_iff.mp hg with hg | ⟨-, hg⟩
    · obtain ⟨e, he, hcarries⟩ := h name g hg
      exact ⟨e, he, hcarries.mono hmono⟩
    · split_ifs at hg with hname
      obtain rfl := Option.some.inj hg
      exact ⟨d, hname ▸ hd, hf.mono hmono⟩
  · have hne : name ≠ d.name := fun he => ho (he ▸ hn)
    show (p.fragments.insert d.name f).find? name = none
    rw [OrderedMap.find?_insert, hnone, if_neg hne]
    rfl
  · rw [OrderedMap.find?_insert, hnew, if_pos rfl]
    rfl

end Progress

/-! ### Selections -/

section Selections
variable {ctx : Context} {definitions : List Document.Fragment} {types : List Text}

/-- A field that resolves becomes a head of the field, of a type with parts or without. -/
theorem headOf {parent type : NamedType} {f : Document.Field} {head : Typed.FieldHead}
    {p p' : Progress} (h : fieldHead ctx parent f p = .ok ((head, type), p')) :
    HeadOf f head ∧ p'.fragments = p.fragments ∧
      (type.isComposite = true → ctx.schema.possibleTypes head.type.namedType =
        .ok (ctx.schema.possibleTypesOf type)) ∧
      (type.isComposite = false → ∀ inside,
        ctx.schema.possibleTypes head.type.namedType ≠ .ok inside) := by
  obtain ⟨definition, -, ht, hkey, -, -, htype, hconditional, -, rfl⟩ := fieldHead_ok h
  refine ⟨⟨hkey, hconditional⟩, rfl, fun hc => ?_, fun hc inside hinside => ?_⟩
  · rw [htype]
    exact possibleTypes_eq ht hc
  · rw [htype, Schema.possibleTypes, Schema.typeNamed, ht] at hinside
    replace hinside : (if type.isComposite = true then _ else _) = Except.ok inside := hinside
    rw [if_neg (by rw [hc]; exact Bool.false_ne_true)] at hinside
    cases hinside

/-- A spread of a fragment that is found carries its selections. -/
theorem spread_resolves {f : Document.Spread} {fragment : Typed.Fragment} {p : Progress}
    {r : Option Typed.Selection} (hp : Tidy ctx.schema definitions p)
    (hfind : p.fragments.find? f.name = some fragment)
    (hu : underConditions types (spreadOf types fragment) f.directives = .ok r) :
    Resolves ctx.schema definitions types [.spread f] r.toList ∧
      Linked (tableOf p.fragments) r.toList := by
  obtain ⟨d, hd, hcarries⟩ := hp _ _ hfind
  obtain ⟨inner, hset, hresolves, hlinked⟩ := hcarries.selections
  have hname : fragment.name = f.name := by
    rw [hcarries.name]
    simpa using List.find?_some hd
  have htable : tableOf p.fragments f.name = some inner := by
    rw [tableOf, hfind, Option.bind_some, hset]
    rfl
  rw [spreadOf, hset, hname] at hu
  rw [underConditions_kept hu]
  refine ⟨?_, linked_kept _ (.spread htable hlinked)⟩
  rw [← List.append_nil (kept _ _ _)]
  exact .spread hd hcarries.types hresolves .nil

end Selections

section Recursion
variable {ctx : Context} {definitions : List Document.Fragment} {opened : List Text}
  {spread : Text → Location → Step Typed.Fragment}

mutual

theorem one_resolves (hspread : SpreadsFind ctx.schema definitions opened spread) :
    ∀ (s : Document.Selection) {parent : NamedType} {types : List Text} {depth : Nat}
      {p p' : Progress} {r : Option Typed.Selection},
      (∀ t ∈ types, t ∈ ctx.schema.possibleTypesOf parent) → Tidy ctx.schema definitions p →
      one ctx spread parent types depth s p = .ok (r, p') →
      Resolves ctx.schema definitions types [s] r.toList ∧ Linked (tableOf p'.fragments) r.toList ∧
        Extends ctx.schema definitions opened p p'
  | .field f selections, parent, types, depth, p, p', r, _, hp, h => by
    obtain ⟨head, type, p₁, hh, h⟩ := one_field_ok h
    obtain ⟨hhead, hp₁, hcomposite, hleaf⟩ := headOf hh
    have hextends : Extends ctx.schema definitions opened p p₁ := .of_fragments_eq hp hp₁
    rcases h with ⟨hc, rfl, rfl, hu⟩ | ⟨hc, -, -, inner, hi, hu⟩
    · rw [underConditions_kept hu]
      refine ⟨?_, linked_kept _ (.single (fun _ _ _ he => by cases he) fun set hs => by cases hs),
        hextends⟩
      rw [← List.append_nil (kept _ _ _)]
      exact .leaf hhead (hleaf hc) .nil
    · obtain ⟨hresolves, hlinked, hextends'⟩ :=
        all_resolves hspread selections (fun _ ht => ht) hextends.tidy hi
      rw [underConditions_kept hu]
      refine ⟨?_, linked_kept _ (.single (fun _ _ _ he => by cases he) fun set hs => ?_),
        hextends.trans hextends'⟩
      · rw [← List.append_nil (kept _ _ _)]
        exact .field hhead (hcomposite hc) hresolves .nil
      · obtain rfl := Option.some.inj hs
        exact hlinked
  | .inline f selections, parent, types, depth, p, p', r, hparent, hp, h => by
    obtain ⟨type, inner, hc, hnone, hsome, hi, hu⟩ := one_inline_ok h
    obtain ⟨hresolves, hlinked, hextends⟩ := all_resolves hspread selections
      (fun t ht => (Typed.mem_intersect.mp ht).1) hp hi
    rw [underConditions_kept hu]
    refine ⟨?_, linked_kept _ (.single (fun _ _ _ he => by cases he) fun set hs => ?_), hextends⟩
    · rw [← List.append_nil (kept _ _ _)]
      cases hcond : f.typeCondition with
      | none =>
        -- Without a type condition every possible type of the parent is in.
        refine .inlineAny hcond (fun t => ?_) hresolves .nil
        rw [Typed.mem_intersect, hnone hcond]
        exact ⟨fun ht => ht.2, fun ht => ⟨hparent t ht, ht⟩⟩
      | some name => exact .inlineOn hcond (possibleTypes_eq (hsome name hcond) hc) hresolves .nil
    · obtain rfl := Option.some.inj hs
      exact hlinked
  | .spread f, parent, types, depth, p, p', r, _, hp, h => by
    obtain ⟨fragment, hf, hu⟩ := one_spread_ok h
    obtain ⟨hextends, hfind⟩ := hspread _ _ _ _ _ hp hf
    obtain ⟨hresolves, hlinked⟩ := spread_resolves hextends.tidy hfind hu
    exact ⟨hresolves, hlinked, hextends⟩

/-- **Selections resolve by the rules**, if spreads find their fragments. -/
theorem all_resolves (hspread : SpreadsFind ctx.schema definitions opened spread) :
    ∀ (selections : List Document.Selection) {parent : NamedType} {types : List Text} {depth : Nat}
      {p p' : Progress} {typed : List Typed.Selection},
      (∀ t ∈ types, t ∈ ctx.schema.possibleTypesOf parent) → Tidy ctx.schema definitions p →
      all ctx spread parent types depth selections p = .ok (typed, p') →
      Resolves ctx.schema definitions types selections typed ∧
        Linked (tableOf p'.fragments) typed ∧ Extends ctx.schema definitions opened p p'
  | [], parent, types, depth, p, p', typed, _, hp, h => by
    obtain ⟨rfl, rfl⟩ := all_nil_ok h
    exact ⟨.nil, .nil, .refl hp⟩
  | s :: rest, parent, types, depth, p, p', typed, hparent, hp, h => by
    obtain ⟨r, others, p₁, hr, ho, rfl⟩ := all_cons_ok h
    obtain ⟨hs, hlinked, hextends⟩ := one_resolves hspread s hparent hp hr
    obtain ⟨hrest, hlinked', hextends'⟩ := all_resolves hspread rest hparent hextends.tidy ho
    exact ⟨hs.append hrest, (hlinked.mono (Typed.tableOf_mono hextends'.found)).append hlinked',
      hextends.trans hextends'⟩

end

end Recursion

/-! ### Fragments -/

section Fragments
variable {ctx : Context} {definitions : List Document.Fragment}

/-- A definition that is open while it is resolved is found afterwards. -/
theorem ofDefinition_carries {opened : List Text} {d : Document.Fragment}
    {spread : Text → Location → Step Typed.Fragment} {p p' : Progress} {f : Typed.Fragment}
    (hspread : SpreadsFind ctx.schema definitions (opened ++ [d.name]) spread)
    (hd : definitions.find? (fun e => e.name == d.name) = some d)
    (hp : Tidy ctx.schema definitions p) (hnew : p.fragments.find? d.name = none)
    (ho : d.name ∉ opened) (h : ofDefinition ctx spread d p = .ok (f, p')) :
    Extends ctx.schema definitions opened p p' ∧ p'.fragments.find? d.name = some f := by
  obtain ⟨type, typed, p₁, ht, hc, ha, hf, rfl⟩ := ofDefinition_ok h
  obtain ⟨hresolves, hlinked, hextends⟩ := all_resolves hspread d.selections (fun _ ht => ht) hp ha
  have hcarries : Carries ctx.schema definitions (tableOf p₁.fragments) d f := by
    rw [hf]
    exact ⟨rfl, rfl, possibleTypes_eq ht hc, typed, rfl, hresolves, hlinked⟩
  -- No spread inside could resolve the definition itself, since it was open.
  have hstill := hextends.opened d.name (List.mem_append_right _ (List.mem_singleton_self _)) hnew
  obtain ⟨hinsert, hfind⟩ := Extends.insert hextends.tidy hd hcarries hstill ho
  exact ⟨(hextends.mono (List.subset_append_left _ _)).trans hinsert, hfind⟩

/-- **A spread finds the fragment of its name**, whatever fragments are being resolved. -/
theorem fragment_finds {opened : List Text} {name : Text} {location : Location} {p p' : Progress}
    {f : Typed.Fragment} (hp : Tidy ctx.schema definitions p)
    (h : fragment ctx definitions opened name location p = .ok (f, p')) :
    Extends ctx.schema definitions opened p p' ∧ p'.fragments.find? name = some f := by
  rcases fragment_ok h with ⟨hf, rfl⟩ | ⟨hnew, d, hd, ho, -, hdef⟩
  · exact ⟨.refl hp, hf⟩
  · have hname : d.name = name := by simpa using List.find?_some hd
    have hspread : SpreadsFind ctx.schema definitions (opened ++ [name])
        (fragment ctx definitions (opened ++ [name])) := fun n l p₁ g p₂ hp₁ hg =>
      fragment_finds hp₁ hg
    subst hname
    exact ofDefinition_carries hspread hd hp hnew (by simpa using ho) hdef
termination_by (closedDefinitions definitions opened).length
decreasing_by exact length_closedDefinitions_lt hd (by rw [ho]; exact Bool.false_ne_true)

theorem spreadsFind_fragment (opened : List Text) :
    SpreadsFind ctx.schema definitions opened (fragment ctx definitions opened) :=
  fun _ _ _ _ _ hp h => fragment_finds hp h

theorem tidy_empty (schema : Schema) (typesUsed : List Text) :
    Tidy schema definitions ⟨∅, typesUsed⟩ := by
  intro name f hf
  cases hf

theorem fragments_extend : ∀ {ds : List Document.Fragment} {p p' : Progress},
    Tidy ctx.schema definitions p →
    ds.forM (fun f => discard (fragment ctx definitions [] f.name f.location)) p = .ok ((), p') →
    Extends ctx.schema definitions [] p p'
  | [], p, p', hp, h => by
    obtain ⟨-, rfl⟩ := pure_eq_ok.mp h
    exact .refl hp
  | d :: ds, p, p', hp, h => by
    obtain ⟨_, p₁, hd, h⟩ := bind_eq_ok.mp h
    obtain ⟨f, hf⟩ := discard_eq_ok.mp hd
    obtain ⟨hextends, -⟩ := fragment_finds hp hf
    exact hextends.trans (fragments_extend hextends.tidy h)

end Fragments

/-! ### Documents -/

/-- Reordering the fragments of definitions changes none of them. -/
theorem find?_inDefinitionOrder {d : Document} {resolved : OrderedMap Text Typed.Fragment}
    (h : ∀ name f, resolved.find? name = some f → name ∈ d.fragments.map Document.Fragment.name)
    (name : Text) : (inDefinitionOrder d resolved).find? name = resolved.find? name := by
  rw [inDefinitionOrder, OrderedMap.find?_ofList,
    OrderedMap.lookup_filterMap Document.Fragment.name resolved.find?]
  split_ifs with hn
  · rfl
  · cases hf : resolved.find? name with
    | none => rfl
    | some f => exact absurd (h name f hf) hn

end Resolve

namespace Typed

open Resolve

/-- An operation of a program has the name and the text of an operation of a document, whose
selections resolve to its own, and its spreads carry what a table has for their names. -/
structure OperationCarries (schema : Schema) (definitions : List Document.Fragment) (table : Table)
    (o : Document.Operation) (e : Text × Operation) : Prop where
  key : o.name = some e.1
  name : e.2.name = e.1
  source : e.2.source = o.text
  selections : ∃ root inner, schema.rootType? o.operation = some root ∧
    e.2.selectionSet = some (.mk (schema.possibleTypesOf root) inner) ∧
    Resolves schema definitions (schema.possibleTypesOf root) o.selections inner ∧
    Linked table inner

theorem OperationCarries.mono {schema : Schema} {definitions : List Document.Fragment}
    {table table' : Table} {o : Document.Operation} {e : Text × Operation}
    (h : OperationCarries schema definitions table o e)
    (hle : ∀ name inner, table name = some inner → table' name = some inner) :
    OperationCarries schema definitions table' o e := by
  obtain ⟨root, inner, hroot, hs, hresolves, hlinked⟩ := h.selections
  exact ⟨h.key, h.name, h.source, root, inner, hroot, hs, hresolves, hlinked.mono hle⟩

section Operations
variable {ctx : Context} {definitions : List Document.Fragment}

theorem operation_carries {done done' : OrderedMap Text Operation} {o : Document.Operation}
    {p p' : Progress} (hp : Tidy ctx.schema definitions p)
    (h : Resolve.operation ctx definitions done o p = .ok (done', p')) :
    Extends ctx.schema definitions [] p p' ∧ ∃ e, done'.entries = done.entries ++ [e] ∧
      OperationCarries ctx.schema definitions (tableOf p'.fragments) o e := by
  obtain ⟨name, root, vars, p₁, typed, hname, hnew, hroot, hvars, ha, rfl⟩ := operation_ok h
  have hextends : Extends ctx.schema definitions [] p p₁ :=
    .of_fragments_eq hp (resolveVariables_ok hvars).2
  obtain ⟨hresolves, hlinked, hextends'⟩ :=
    all_resolves (spreadsFind_fragment []) o.selections (fun _ ht => ht) hextends.tidy ha
  have hkey : name ∉ done.keys := by
    rw [← OrderedMap.contains_iff, hnew]
    exact Bool.false_ne_true
  exact ⟨hextends.trans hextends', _, OrderedMap.entries_insert hkey _,
    hname, rfl, rfl, root, typed, hroot, rfl, hresolves, hlinked⟩

theorem operations_carry : ∀ {os : List Document.Operation} {done done' : OrderedMap Text Operation}
    {p p' : Progress}, Tidy ctx.schema definitions p →
    os.foldlM (Resolve.operation ctx definitions) done p = .ok (done', p') →
    Extends ctx.schema definitions [] p p' ∧ ∃ added, done'.entries = done.entries ++ added ∧
      List.Forall₂ (OperationCarries ctx.schema definitions (tableOf p'.fragments)) os added
  | [], done, done', p, p', hp, h => by
    obtain ⟨rfl, rfl⟩ := pure_eq_ok.mp h
    exact ⟨.refl hp, [], (List.append_nil _).symm, .nil⟩
  | o :: os, done, done', p, p', hp, h => by
    rw [List.foldlM_cons] at h
    obtain ⟨done₁, p₁, ho, h⟩ := bind_eq_ok.mp h
    obtain ⟨hextends, e, he, hcarries⟩ := operation_carries hp ho
    obtain ⟨hextends', added, hadded, hall⟩ := operations_carry hextends.tidy h
    refine ⟨hextends.trans hextends', e :: added, ?_,
      .cons (hcarries.mono (tableOf_mono hextends'.found)) hall⟩
    rw [hadded, he, List.append_assoc, List.singleton_append]

end Operations

/-- What a program carries over from a document. -/
structure Program.CarriesAll (schema : Schema) (d : Document) (program : Program) : Prop where
  names : (d.fragments.map Document.Fragment.name).Nodup
  operations : List.Forall₂ (OperationCarries schema d.fragments (tableOf program.fragments))
    d.operations program.operations.entries
  fragments : ∀ name f, program.fragments.find? name = some f → ∃ e ∈ d.fragments,
    e.name = name ∧ Carries schema d.fragments (tableOf program.fragments) e f

/-- **The operations and fragments of a document resolve by the rules**, and each of their spreads
carries the selections of the fragment of its name. -/
theorem Program.ofDocument_carriesAll {schema : Schema} {d : Document} {options : CompilerOptions}
    {program : Program} (h : Program.ofDocument schema d options = .ok program) :
    program.CarriesAll schema (prepared d options) := by
  obtain ⟨⟨operations, p⟩, hrun, h⟩ := Success.bind_eq_ok.mp h
  obtain rfl := Except.ok.inj h
  obtain ⟨hdup, p₁, hfragments, hoperations⟩ := document_ok hrun
  have hextends := fragments_extend (tidy_empty schema []) hfragments
  obtain ⟨hextends', added, hadded, hall⟩ := operations_carry hextends.tidy hoperations
  have hfind : ∀ name, (inDefinitionOrder (prepared d options) p.fragments).find? name =
      p.fragments.find? name := by
    refine find?_inDefinitionOrder fun name f hf => ?_
    obtain ⟨e, he, -⟩ := hextends'.tidy name f hf
    have hname : e.name = name := by simpa using List.find?_some he
    rw [← hname]
    exact List.mem_map_of_mem (List.mem_of_find?_eq_some he)
  have htable : tableOf (inDefinitionOrder (prepared d options) p.fragments) =
      tableOf p.fragments := by
    funext name
    rw [tableOf, tableOf, hfind]
  refine ⟨(nodup_of_duplicate?_eq_none hdup).1, ?_, fun name f hf => ?_⟩
  · show List.Forall₂ (OperationCarries _ _ (tableOf (inDefinitionOrder _ _))) _ operations.entries
    rw [htable, hadded]
    exact hall
  · obtain ⟨e, he, hcarries⟩ := hextends'.tidy name f ((hfind name).symm.trans hf)
    have hname : e.name = name := by simpa using List.find?_some he
    refine ⟨e, List.mem_of_find?_eq_some he, hname, ?_⟩
    show Carries _ _ (tableOf (inDefinitionOrder _ _)) e f
    rwa [htable]

end Typed

end QueryCompiler
