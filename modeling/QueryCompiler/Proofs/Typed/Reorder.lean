import QueryCompiler.Proofs.Typed.Cycles
import QueryCompiler.Proofs.Typed.Follow
import QueryCompiler.Proofs.Typed.Rules
import Mathlib.Data.List.Perm.Subperm

/-!
# The order of fragment definitions

Fragments are resolved when they are first spread, so another order of definitions makes another run.
Nevertheless it finds the same fragments (`document_reordered`). Let a table have the fragments that
one run finds at its end.

* Every request of that run gets what the table has for the name (`fragment_answered`), so each
  fragment in the table is what its definition resolves to, if the table answers all requests
  (`Made`).
* In any order of the definitions requests find what the table has, if the limit leaves room for all
  definitions (`fragment_recalled`): the fragments that are open are different from one another, since
  fragments spread one another without a circle.
-/

namespace QueryCompiler

namespace Resolve

open Document (Refers Acyclic)
open Invariants

/-! ### Steps that succeed -/

section Steps
variable {ctx : Context} {definitions : List Document.Fragment} {opened : List Text} {name : Text}
  {location : Location} {p : Progress}

theorem get_bind {α : Type} (f : Progress → Step α) : ((get : Step Progress) >>= f) p = f p p := rfl

theorem fragment_found {f : Typed.Fragment} (hf : p.fragments.find? name = some f) :
    fragment ctx definitions opened name location p = .ok (f, p) := by
  rw [fragment_eq, get_bind, hf]
  rfl

theorem fragment_new {d : Document.Fragment} (hf : p.fragments.find? name = none)
    (hd : definitions.find? (fun d => d.name == name) = some d) (hn : name ∉ opened)
    (hl : opened.length < ctx.limit) : fragment ctx definitions opened name location p =
      ofDefinition ctx (fragment ctx definitions (opened ++ [name])) d p := by
  rw [fragment_eq, get_bind]
  simp only [hf, hd]
  rw [if_neg (by simpa using hn), if_neg (Nat.not_le.mpr hl)]

/-- What becomes of a definition depends on what its selections resolve to. -/
theorem ofDefinition_all {spread : Text → Location → Step Typed.Fragment} {d : Document.Fragment}
    {f : Typed.Fragment} {p' : Progress} (h : ofDefinition ctx spread d p = .ok (f, p')) :
    ∃ type typed p₁,
      all ctx spread type (ctx.schema.possibleTypesOf type) 1 d.selections p = .ok (typed, p₁) ∧
      p' = { p₁ with fragments := p₁.fragments.insert d.name f } ∧
      ∀ spread' q q₁,
        all ctx spread' type (ctx.schema.possibleTypesOf type) 1 d.selections q = .ok (typed, q₁) →
        ofDefinition ctx spread' d q =
          .ok (f, { q₁ with fragments := q₁.fragments.insert d.name f }) := by
  obtain ⟨type, typed, p₁, ht, hc, ha, rfl, rfl⟩ := ofDefinition_ok h
  refine ⟨type, typed, p₁, ha, rfl, fun spread' q q₁ hall => ?_⟩
  have htype : lookupType ctx d.typeCondition d.location q = .ok (type, q) := by
    rw [lookupType, ht]
    rfl
  unfold ofDefinition
  refine bind_eq_ok.mpr ⟨type, q, htype, guard_eq_ok.mpr ⟨by simp [hc], ?_⟩⟩
  exact bind_eq_ok.mpr ⟨typed, q₁, hall, rfl⟩

end Steps

/-! ### Tables -/

/-- A request that a table answers. -/
def answer (table : Text → Option Typed.Fragment) (name : Text) (location : Location) :
    Step Typed.Fragment :=
  match table name with
  | some f => return f
  | none => fail (.unknownFragment name) location

/-- The table has the fragments that are found. -/
def Below (table : Text → Option Typed.Fragment) (found : Found) : Prop :=
  ∀ name f, found.find? name = some f → table name = some f

/-- The fragment is what the definition of the name resolves to if a table answers all requests. -/
def Made (ctx : Context) (definitions : List Document.Fragment)
    (table : Text → Option Typed.Fragment) (name : Text) (f : Typed.Fragment) : Prop :=
  ∃ d, definitions.find? (fun d => d.name == name) = some d ∧
    ∀ q, ∃ q', ofDefinition ctx (answer table) d q = .ok (f, q')

/-- What a run keeps, if a table has all fragments that it finds: they are what their definitions
resolve to. -/
def Recorded (ctx : Context) (definitions : List Document.Fragment)
    (table : Text → Option Typed.Fragment) (found : Found) : Prop :=
  Tidy ctx.schema definitions ⟨found, []⟩ ∧
    (Below table found → ∀ name f, found.find? name = some f → Made ctx definitions table name f)

section Tables
variable {ctx : Context} {definitions : List Document.Fragment}
  {table : Text → Option Typed.Fragment}

theorem Below.of_insert {found : Found} {name : Text} {f : Typed.Fragment}
    (h : Below table (found.insert name f)) : Below table found := by
  intro n g hg
  refine h n g ?_
  rw [OrderedMap.find?_insert, hg, Option.some_or]

theorem Below.insert {found : Found} {name : Text} {f : Typed.Fragment}
    (h : Below table found) (hf : table name = some f) : Below table (found.insert name f) := by
  intro n g hg
  rw [OrderedMap.find?_insert] at hg
  rcases Option.or_eq_some_iff.mp hg with hg | ⟨-, hg⟩
  · exact h n g hg
  · split_ifs at hg with hn
    rw [hn, hf, hg]

/-- The invariants of a run and another in which a table answers requests. -/
def answering (ctx : Context) (definitions : List Document.Fragment)
    (table : Text → Option Typed.Fragment) : Invariants where
  kept := Recorded ctx definitions table
  ahead := Below table
  follower _ := True

/-- The invariants of a run in which a table answers requests, and another that finds fragments of
the table. -/
def recalling (table : Text → Option Typed.Fragment) : Invariants where
  kept _ := True
  ahead _ := True
  follower := Below table

/-- **A request gets what the table has at the end of the run.** -/
theorem fragment_answered {opened : List Text} {name : Text} {location : Location} :
    (answering ctx definitions table).Follows (fragment ctx definitions opened name location)
      (answer table name location) := by
  intro p f p' hp h
  obtain ⟨hextends, hfind⟩ := fragment_finds (p := p) hp.1 h
  refine ⟨⟨hextends.tidy, fun hb => ?_⟩, fun hb => ⟨fun n g hg => hb n g (hextends.found n g hg),
    fun q _ => ⟨q, ?_, trivial⟩⟩⟩
  · rcases fragment_ok h with ⟨-, rfl⟩ | ⟨-, d, hd, ho, -, hdef⟩
    · exact hp.2 hb
    · obtain ⟨type, typed, p₁, ha, rfl, hbuild⟩ := ofDefinition_all hdef
      obtain ⟨hp₁, hrun⟩ := all_follows d.selections
        (fun s _ => fragment_answered) p typed p₁ hp ha
      have hb₁ : Below table p₁.fragments := Below.of_insert hb
      intro n g hg
      rw [OrderedMap.find?_insert] at hg
      rcases Option.or_eq_some_iff.mp hg with hg | ⟨-, hg⟩
      · exact hp₁.2 hb₁ n g hg
      · split_ifs at hg with hn
        obtain rfl := Option.some.inj hg
        have hname : d.name = name := by simpa using List.find?_some hd
        refine ⟨d, by rw [hn, hname]; exact hd, fun q => ?_⟩
        obtain ⟨q₁, hq₁, -⟩ := (hrun hb₁).2 q trivial
        exact ⟨_, hbuild _ _ _ hq₁⟩
  · rw [answer, hb name f hfind]
    rfl
termination_by (closedDefinitions definitions opened).length
decreasing_by exact length_closedDefinitions_lt hd (by rw [ho]; exact Bool.false_ne_true)

end Tables

/-! ### Another order -/

/-- Definitions in another order, with distinct names and without a circle of fragments, that the
limit leaves room for. -/
structure Reordered (ctx : Context) (definitions definitions' : List Document.Fragment) : Prop where
  perm : definitions.Perm definitions'
  nodup : (definitions.map Document.Fragment.name).Nodup
  acyclic : Acyclic definitions
  room : definitions.length ≤ ctx.limit

section Reordered
variable {ctx : Context} {definitions definitions' : List Document.Fragment}
  {table : Text → Option Typed.Fragment}

theorem Reordered.find? (h : Reordered ctx definitions definitions') {name : Text}
    {d : Document.Fragment} (hd : definitions.find? (fun d => d.name == name) = some d) :
    definitions'.find? (fun d => d.name == name) = some d := by
  have hname : d.name = name := by simpa using List.find?_some hd
  rw [← hname]
  exact find?_of_nodup ((h.perm.map _).nodup_iff.mp h.nodup) d
    (h.perm.mem_iff.mp (List.mem_of_find?_eq_some hd))

/-- A fragment that is asked for inside others that lead to it is none of them, and there is room
for it. -/
theorem Reordered.not_opened (h : Reordered ctx definitions definitions') {opened : List Text}
    {name : Text} (hchain : (opened ++ [name]).IsChain (Refers definitions))
    (hname : name ∈ definitions.map Document.Fragment.name) :
    name ∉ opened ∧ opened.length < ctx.limit := by
  have hnodup := h.acyclic.nodup hchain
  have hdefined : opened ++ [name] ⊆ definitions.map Document.Fragment.name := by
    refine List.append_subset.mpr ⟨Document.defined_of_isChain hchain, ?_⟩
    exact List.cons_subset.mpr ⟨hname, List.nil_subset _⟩
  have hlength := (hnodup.subperm hdefined).length_le
  rw [List.length_append, List.length_map, List.length_singleton] at hlength
  refine ⟨fun hmem => ?_, Nat.lt_of_lt_of_le hlength h.room⟩
  exact (List.nodup_append.mp hnodup).2.2 name hmem name (List.mem_singleton_self _) rfl

/-- **In another order a request finds what the table has**, inside fragments that spread one another
and then it. -/
theorem fragment_recalled (h : Reordered ctx definitions definitions')
    (hmade : ∀ name f, table name = some f → Made ctx definitions table name f)
    {opened : List Text} {name : Text} {location : Location}
    (hchain : (opened ++ [name]).IsChain (Refers definitions)) :
    (recalling table).Follows (answer table name location)
      (fragment ctx definitions' opened name location) := by
  intro p f p' _ hanswer
  refine ⟨trivial, fun _ => ⟨trivial, fun q hq => ?_⟩⟩
  have hf : table name = some f := by
    rw [answer] at hanswer
    cases ht : table name with
    | none => rw [ht] at hanswer; exact absurd hanswer fail_ne_ok
    | some g => rw [ht] at hanswer; rw [(pure_eq_ok.mp hanswer).1]
  cases hfind : q.fragments.find? name with
  | some g =>
    obtain rfl := Option.some.inj (hf.symm.trans (hq name g hfind))
    exact ⟨q, fragment_found hfind, hq⟩
  | none =>
    obtain ⟨d, hd, hmake⟩ := hmade name f hf
    have hname : d.name = name := by simpa using List.find?_some hd
    have hmem := List.mem_of_find?_eq_some hd
    obtain ⟨hnot, hroom⟩ := h.not_opened hchain (hname ▸ List.mem_map_of_mem hmem)
    have hinside : ∀ s ∈ d.spreads, (opened ++ [name] ++ [s.name]).IsChain (Refers definitions) :=
      fun s hs => Document.isChain_concat hchain ⟨d, hmem, hname, s, hs, rfl⟩
    obtain ⟨q₀, hq₀⟩ := hmake p
    obtain ⟨type, typed, p₁, ha, -, hbuild⟩ := ofDefinition_all hq₀
    obtain ⟨-, hfollows⟩ := all_follows d.selections
      (fun s hs => fragment_recalled h hmade (hinside s hs)) p typed p₁ trivial ha
    obtain ⟨q₁, hrun, hq₁⟩ := (hfollows trivial).2 q hq
    have hbelow : Below table (q₁.fragments.insert d.name f) := Below.insert hq₁ (by rw [hname, hf])
    refine ⟨{ q₁ with fragments := q₁.fragments.insert d.name f }, ?_, hbelow⟩
    rw [fragment_new hfind (h.find? hd) hnot hroom]
    exact hbuild _ _ _ hrun
termination_by (closedDefinitions definitions' opened).length
decreasing_by exact length_closedDefinitions_lt (h.find? hd) (by simpa using hnot)

end Reordered

/-! ### Operations -/

section Operations
variable {φ : Invariants} {ctx : Context} {definitions definitions' : List Document.Fragment}
  (hfragment : ∀ name location, φ.Follows (fragment ctx definitions [] name location)
    (fragment ctx definitions' [] name location))

include hfragment

theorem operation_follows (done : OrderedMap Text Typed.Operation) (o : Document.Operation) :
    φ.Follows (operation ctx definitions done o) (operation ctx definitions' done o) := by
  unfold operation
  cases o.name with
  | none => exact follows_fail _
  | some name =>
    refine .guard ?_
    cases ctx.schema.rootType? o.operation with
    | none => exact follows_fail _
    | some root =>
      exact (Follows.mapM (resolveVariable_follows ctx o.location) _).bind fun vars =>
        (all_follows o.selections fun s _ => hfragment s.name s.location).bind fun _ => follows_pure _

/-- **Operations follow** if the requests for fragments do. -/
theorem operations_follow : ∀ (os : List Document.Operation) (done : OrderedMap Text Typed.Operation),
    φ.Follows (os.foldlM (operation ctx definitions) done)
      (os.foldlM (operation ctx definitions') done)
  | [], done => follows_pure _
  | o :: os, done => by
    rw [List.foldlM_cons, List.foldlM_cons]
    exact (operation_follows hfragment done o).bind fun done' => operations_follow os done'

/-- The fragments of definitions follow, if they are requested in the same order. -/
theorem fragments_follow : ∀ ds : List Document.Fragment,
    φ.Follows (ds.forM fun f => discard (fragment ctx definitions [] f.name f.location))
      (ds.forM fun f => discard (fragment ctx definitions' [] f.name f.location))
  | [] => follows_pure _
  | d :: ds =>
    ((hfragment d.name d.location).bind fun _ => follows_pure _).bind fun _ => fragments_follow ds

end Operations

/-! ### Documents -/

section Documents
variable {ctx : Context} {definitions definitions' : List Document.Fragment}
  {table : Text → Option Typed.Fragment}

/-- The invariants of a run by itself. -/
def alone (kept : Found → Prop) : Invariants where
  kept := kept
  ahead _ := False
  follower _ := True

/-- The invariants of a run and of another that finds fragments in another order. -/
def reordering (ctx : Context) (definitions : List Document.Fragment)
    (table : Text → Option Typed.Fragment) : Invariants where
  kept := Recorded ctx definitions table
  ahead := Below table
  follower := Below table

theorem fragment_alone (name : Text) (location : Location) :
    (alone (Recorded ctx definitions table)).Follows (fragment ctx definitions [] name location)
      (fragment ctx definitions [] name location) := by
  intro p f p' hp h
  exact ⟨(fragment_answered p f p' hp h).1, False.elim⟩

theorem fragment_reordered (h : Reordered ctx definitions definitions')
    (hmade : ∀ name f, table name = some f → Made ctx definitions table name f) (name : Text)
    (location : Location) : (reordering ctx definitions table).Follows
      (fragment ctx definitions [] name location) (fragment ctx definitions' [] name location) := by
  intro p f p' hp hrun
  obtain ⟨hp', hanswer⟩ := fragment_answered p f p' hp hrun
  refine ⟨hp', fun hb => ?_⟩
  obtain ⟨hb₀, hanswer⟩ := hanswer hb
  refine ⟨hb₀, fun q hq => ?_⟩
  obtain ⟨q₁, hq₁, -⟩ := hanswer q trivial
  have hchain : ([] ++ [name]).IsChain (Refers definitions) := .singleton name
  obtain ⟨-, hrecall⟩ := fragment_recalled h hmade hchain q f q₁ trivial hq₁
  exact (hrecall trivial).2 q hq

/-- Requests for definitions that a table has succeed in another order. -/
theorem fragments_recalled (h : Reordered ctx definitions definitions')
    (hmade : ∀ name f, table name = some f → Made ctx definitions table name f) :
    ∀ {ds : List Document.Fragment} {q : Progress}, (∀ d ∈ ds, ∃ f, table d.name = some f) →
      Below table q.fragments → ∃ q',
        ds.forM (fun f => discard (fragment ctx definitions' [] f.name f.location)) q =
          .ok ((), q') ∧ Below table q'.fragments
  | [], q, _, hq => ⟨q, rfl, hq⟩
  | d :: ds, q, hds, hq => by
    obtain ⟨f, hf⟩ := hds d List.mem_cons_self
    have hanswer : answer table d.name d.location q = .ok (f, q) := by
      rw [answer, hf]
      rfl
    have hchain : ([] ++ [d.name]).IsChain (Refers definitions) := .singleton d.name
    obtain ⟨-, hrecall⟩ := fragment_recalled h hmade hchain q f q trivial hanswer
    obtain ⟨q₁, hrun, hq₁⟩ := (hrecall trivial).2 q hq
    obtain ⟨q', hrest, hq'⟩ :=
      fragments_recalled h hmade (fun e he => hds e (List.mem_cons_of_mem _ he)) hq₁
    exact ⟨q', bind_eq_ok.mpr ⟨(), q₁, discard_eq_ok.mpr ⟨f, hrun⟩, hrest⟩, hq'⟩

theorem duplicate?_eq_none : ∀ {ds : List Document.Fragment} {names : List Text},
    (ds.map Document.Fragment.name).Nodup → (∀ f ∈ ds, f.name ∉ names) → duplicate? names ds = none
  | [], names, _, _ => rfl
  | f :: ds, names, h, hnot => by
    obtain ⟨hf, hds⟩ := List.nodup_cons.mp h
    rw [duplicate?, if_neg (by simpa using hnot f List.mem_cons_self)]
    refine duplicate?_eq_none hds fun g hg hmem => ?_
    rcases List.mem_cons.mp hmem with he | hmem
    · exact hf (he ▸ List.mem_map_of_mem hg)
    · exact hnot g (List.mem_cons_of_mem _ hg) hmem

/-- A run finds the fragments that are defined and no others. -/
theorem document_keys {d : Document} {typesUsed : List Text} {p' : Progress}
    {operations : OrderedMap Text Typed.Operation}
    (h : document ctx d ⟨∅, typesUsed⟩ = .ok (operations, p')) (name : Text) :
    name ∈ p'.fragments.keys ↔ name ∈ d.fragments.map Document.Fragment.name := by
  obtain ⟨-, hgains⟩ := document_gains h
  refine ⟨fun hn => ((hgains.reached name hn).resolve_left List.not_mem_nil).1, fun hn => ?_⟩
  exact hgains.found (List.mem_append_left _ hn)

/-- **Another order of the definitions gives the same operations and the same fragments**, if the
limit leaves room for all definitions. -/
theorem document_reordered {d d' : Document} {typesUsed : List Text} {p' : Progress}
    {operations : OrderedMap Text Typed.Operation} (hoperations : d'.operations = d.operations)
    (hperm : d.fragments.Perm d'.fragments) (hroom : d.fragments.length ≤ ctx.limit)
    (h : document ctx d ⟨∅, typesUsed⟩ = .ok (operations, p')) :
    ∃ q', document ctx d' ⟨∅, typesUsed⟩ = .ok (operations, q') ∧
      ∀ name, q'.fragments.find? name = p'.fragments.find? name := by
  obtain ⟨hnodup, -, hacyclic⟩ := document_acyclic h
  have hre : Reordered ctx d.fragments d'.fragments := ⟨hperm, hnodup, hacyclic, hroom⟩
  have hnames : ∀ name, name ∈ d'.fragments.map Document.Fragment.name ↔
      name ∈ d.fragments.map Document.Fragment.name := fun name => ((hperm.map _).mem_iff).symm
  obtain ⟨-, p₁, hfragments, hops⟩ := document_ok h
  -- The table is what the whole run finds: first all fragments of it are made by their definitions.
  have hbelow : Below p'.fragments.find? p'.fragments := fun _ _ hf => hf
  have hstart : Recorded ctx d.fragments p'.fragments.find? ∅ :=
    ⟨tidy_empty ctx.schema [], fun _ _ _ hf => by cases hf⟩
  have hkept : Recorded ctx d.fragments p'.fragments.find? p₁.fragments :=
    (fragments_follow fragment_alone d.fragments ⟨∅, typesUsed⟩ () p₁ hstart hfragments).1
  have hrecorded : Recorded ctx d.fragments p'.fragments.find? p'.fragments :=
    (operations_follow fragment_alone d.operations ∅ p₁ operations p' hkept hops).1
  have hmade := hrecorded.2 hbelow
  -- Then the run in another order recalls them.
  have hfound : ∀ f ∈ d'.fragments, ∃ g, p'.fragments.find? f.name = some g := fun f hf =>
    OrderedMap.exists_of_mem_keys
      ((document_keys h f.name).mpr ((hnames f.name).mp (List.mem_map_of_mem hf)))
  have hempty : Below p'.fragments.find? (⟨∅, typesUsed⟩ : Progress).fragments :=
    fun _ _ hf => by cases hf
  obtain ⟨q₁, hrun, hq₁⟩ := fragments_recalled hre hmade hfound hempty
  obtain ⟨-, hfollows⟩ := operations_follow (fragment_reordered hre hmade) d.operations ∅
    p₁ operations p' hkept hops
  obtain ⟨q', hrun', hq'⟩ := (hfollows hbelow).2 q₁ hq₁
  have hdocument : document ctx d' ⟨∅, typesUsed⟩ = .ok (operations, q') := by
    have hdup : duplicate? [] d'.fragments = none :=
      duplicate?_eq_none ((hperm.map _).nodup_iff.mp hnodup) fun f _ => List.not_mem_nil
    rw [document, hdup, hoperations]
    exact bind_eq_ok.mpr ⟨(), q₁, hrun, hrun'⟩
  refine ⟨q', hdocument, fun name => ?_⟩
  cases hf : q'.fragments.find? name with
  | some f => exact (hq' name f hf).symm
  | none =>
    have hnot : name ∉ p'.fragments.keys := by
      rw [document_keys h, ← hnames, ← document_keys hdocument]
      exact (OrderedMap.find?_eq_none _ _).mp hf
    exact ((OrderedMap.find?_eq_none _ _).mpr hnot).symm

end Documents

end Resolve

/-! ### Programs -/

namespace Typed

/-- The programs have the same operations in the same order, and the same fragments by name. -/
structure Program.Alike (p p' : Program) : Prop where
  schema : p'.schema = p.schema
  options : p'.options = p.options
  operations : p'.operations = p.operations
  fragments : ∀ name, p'.fragments.find? name = p.fragments.find? name

theorem prepared_perm {d d' : Document} (hoperations : d'.operations = d.operations)
    (hperm : d.fragments.Perm d'.fragments) (options : CompilerOptions) :
    (prepared d' options).operations = (prepared d options).operations ∧
      (prepared d options).fragments.Perm (prepared d' options).fragments := by
  unfold prepared
  split_ifs
  · exact ⟨congrArg (List.map _) hoperations, hperm.map _⟩
  · exact ⟨hoperations, hperm⟩

/-- The program of a document has the fragments that its resolution has found. -/
theorem find?_inDefinitionOrder_document {ctx : Resolve.Context} {d : Document}
    {typesUsed : List Text} {p' : Resolve.Progress} {operations : OrderedMap Text Operation}
    (h : Resolve.document ctx d ⟨∅, typesUsed⟩ = .ok (operations, p')) (name : Text) :
    (Resolve.inDefinitionOrder d p'.fragments).find? name = p'.fragments.find? name := by
  refine Resolve.find?_inDefinitionOrder (fun n f hf => ?_) name
  exact (Resolve.document_keys h n).mp (OrderedMap.mem_keys_of_find? hf)

/-- A document with its fragments in another order has a program that is alike. -/
theorem Program.ofDocument_perm {schema : Schema} {d d' : Document} {options : CompilerOptions}
    (hoperations : d'.operations = d.operations) (hperm : d.fragments.Perm d'.fragments)
    (hroom : d.fragments.length ≤ options.maxSelectionDepth.toNat) {p : Program}
    (h : Program.ofDocument schema d options = .ok p) :
    ∃ p', Program.ofDocument schema d' options = .ok p' ∧ p.Alike p' := by
  obtain ⟨⟨operations, found⟩, hrun, h⟩ := Success.bind_eq_ok.mp h
  obtain rfl := Except.ok.inj h
  obtain ⟨hops, hfragments⟩ := prepared_perm hoperations hperm options
  have hlength : (prepared d options).fragments.length = d.fragments.length := by
    rw [← List.length_map Document.Fragment.name, fragmentNames_prepared, List.length_map]
  obtain ⟨found', hrun', hfind⟩ :=
    Resolve.document_reordered hops hfragments (by rw [hlength]; exact hroom) hrun
  refine ⟨_, Success.bind_eq_ok.mpr ⟨(operations, found'), hrun', rfl⟩, rfl, rfl, rfl, fun name => ?_⟩
  show (Resolve.inDefinitionOrder _ found'.fragments).find? name =
    (Resolve.inDefinitionOrder _ found.fragments).find? name
  rw [find?_inDefinitionOrder_document hrun', find?_inDefinitionOrder_document hrun, hfind]

end Typed

end QueryCompiler
