import QueryCompiler.Proofs.Document.SpreadGraph
import QueryCompiler.Proofs.Typed.Programs

/-!
# The fragments that a resolution asks for

As far as fragments go, selections resolve by asking for the fragments of their spreads, one after
the other and whatever becomes of the selections (`all_runs`).

A request for a fragment finds it and everything that it leads to, nothing else, and every fragment
comes after those that its definition spreads (`fragment_gains`). So a document that resolves has a
definition for each of its spreads, and its fragments spread one another without a cycle
(`document_gains`).
-/

namespace QueryCompiler.Resolve

open Document (Refers Leads Sorted spreadsOfAll)

/-! ### Requests -/

/-- Steps run one after the other, and nothing between them touches the fragments found. -/
inductive Runs : List (Step Typed.Fragment) → Progress → Progress → Prop
  | nil {p p'} : p'.fragments = p.fragments → Runs [] p p'
  | cons {x rest f p p₁ p₂ p'} : p₁.fragments = p.fragments → x p₁ = .ok (f, p₂) →
      Runs rest p₂ p' → Runs (x :: rest) p p'

/-- The requests that selections make for the fragments of their spreads. -/
def requests (spread : Text → Location → Step Typed.Fragment)
    (selections : List Document.Selection) : List (Step Typed.Fragment) :=
  (spreadsOfAll selections).map fun s => spread s.name s.location

section Runs
variable {xs ys : List (Step Typed.Fragment)} {p p₁ p' : Progress}

theorem Runs.shift (he : p₁.fragments = p.fragments) (h : Runs xs p₁ p') : Runs xs p p' := by
  cases h with
  | nil h => exact .nil (h.trans he)
  | cons h hx hrest => exact .cons (h.trans he) hx hrest

theorem Runs.append (h : Runs xs p p₁) (h' : Runs ys p₁ p') : Runs (xs ++ ys) p p' := by
  induction h with
  | nil he => exact h'.shift he
  | cons he hx _ ih => exact .cons he hx (ih h')

theorem Runs.exists_of_append (h : Runs (xs ++ ys) p p') : ∃ q, Runs xs p q ∧ Runs ys q p' := by
  induction xs generalizing p with
  | nil => exact ⟨p, .nil rfl, h⟩
  | cons x xs ih =>
    cases h with
    | cons he hx hrest =>
      obtain ⟨q, hxs, hys⟩ := ih hrest
      exact ⟨q, .cons he hx hxs, hys⟩

end Runs

section Selections
variable {ctx : Context} {spread : Text → Location → Step Typed.Fragment}

mutual

theorem one_runs : ∀ (s : Document.Selection) {parent : NamedType} {types : List Text} {depth : Nat}
    {p p' : Progress} {r : Option Typed.Selection},
    one ctx spread parent types depth s p = .ok (r, p') →
      Runs (s.spreads.map fun s => spread s.name s.location) p p'
  | .field f selections, parent, types, depth, p, p', r, h => by
    obtain ⟨head, type, p₁, hh, h⟩ := one_field_ok h
    obtain ⟨-, -, -, -, -, -, -, -, -, hp₁⟩ := fieldHead_ok hh
    have hsame : p₁.fragments = p.fragments := by rw [hp₁]
    rcases h with ⟨-, rfl, rfl, -⟩ | ⟨-, -, -, inner, hi, -⟩
    · exact .nil hsame
    · exact (all_runs selections hi).shift hsame
  | .inline f selections, parent, types, depth, p, p', r, h => by
    obtain ⟨type, inner, -, -, -, hi, -⟩ := one_inline_ok h
    exact all_runs selections hi
  | .spread f, parent, types, depth, p, p', r, h => by
    obtain ⟨fragment, hf, -⟩ := one_spread_ok h
    exact .cons rfl hf (.nil rfl)

/-- **Selections resolve by the requests of their spreads**, as far as fragments go. -/
theorem all_runs : ∀ (selections : List Document.Selection) {parent : NamedType} {types : List Text}
    {depth : Nat} {p p' : Progress} {typed : List Typed.Selection},
    all ctx spread parent types depth selections p = .ok (typed, p') →
      Runs (requests spread selections) p p'
  | [], parent, types, depth, p, p', typed, h => by
    obtain ⟨-, rfl⟩ := all_nil_ok h
    exact .nil rfl
  | s :: rest, parent, types, depth, p, p', typed, h => by
    obtain ⟨r, others, p₁, hr, ho, -⟩ := all_cons_ok h
    rw [requests, spreadsOfAll, List.map_append]
    exact (one_runs s hr).append (all_runs rest ho)

end

end Selections

/-- The definitions of a document are requested one by one. -/
theorem forM_runs {ctx : Context} {definitions : List Document.Fragment} :
    ∀ {ds : List Document.Fragment} {p p' : Progress},
      ds.forM (fun f => discard (fragment ctx definitions [] f.name f.location)) p = .ok ((), p') →
        Runs (ds.map fun f => fragment ctx definitions [] f.name f.location) p p'
  | [], p, p', h => by
    obtain ⟨-, rfl⟩ := pure_eq_ok.mp h
    exact .nil rfl
  | d :: ds, p, p', h => by
    obtain ⟨_, p₁, hd, h⟩ := bind_eq_ok.mp h
    obtain ⟨f, hf⟩ := discard_eq_ok.mp hd
    exact .cons rfl hf (forM_runs h)

/-! ### What requests find -/

/-- Requests for some names keep the fragments found before, find the names and otherwise only
defined fragments that these lead to, and keep the fragments found in order. -/
structure Gains (definitions : List Document.Fragment) (names : List Text) (p p' : Progress) :
    Prop where
  keys : p.fragments.keys ⊆ p'.fragments.keys
  found : names ⊆ p'.fragments.keys
  sorted : Sorted definitions p.fragments.keys → Sorted definitions p'.fragments.keys
  reached : ∀ n ∈ p'.fragments.keys, n ∈ p.fragments.keys ∨
    n ∈ definitions.map Document.Fragment.name ∧ ∃ name ∈ names, Leads definitions name n

section Gains
variable {definitions : List Document.Fragment} {names names' : List Text} {p p₁ p' : Progress}

theorem Gains.of_fragments_eq (h : p'.fragments = p.fragments) : Gains definitions [] p p' := by
  refine ⟨?_, List.nil_subset _, ?_, ?_⟩
  · rw [h]
    exact List.Subset.refl _
  · rw [h]
    exact fun hs => hs
  · rw [h]
    exact fun n hn => Or.inl hn

theorem Gains.append (h : Gains definitions names p p₁) (h' : Gains definitions names' p₁ p') :
    Gains definitions (names ++ names') p p' := by
  refine ⟨List.Subset.trans h.keys h'.keys,
    List.append_subset.mpr ⟨List.Subset.trans h.found h'.keys, h'.found⟩,
    fun hs => h'.sorted (h.sorted hs), fun n hn => ?_⟩
  rcases h'.reached n hn with hn | ⟨hd, name, hname, hl⟩
  · rcases h.reached n hn with hn | ⟨hd, name, hname, hl⟩
    · exact Or.inl hn
    · exact Or.inr ⟨hd, name, List.mem_append_left _ hname, hl⟩
  · exact Or.inr ⟨hd, name, List.mem_append_right _ hname, hl⟩

/-- Requests that find their names one by one find all of them. -/
theorem Runs.gains {ι : Type} {x : ι → Step Typed.Fragment} {name : ι → Text} : ∀ {is : List ι}
    {p p' : Progress}, (∀ i ∈ is, ∀ q f q', x i q = .ok (f, q') → Gains definitions [name i] q q') →
      Runs (is.map x) p p' → Gains definitions (is.map name) p p'
  | [], p, p', _, h => by
    cases h with
    | nil he => exact .of_fragments_eq he
  | i :: is, p, p', hx, h => by
    cases h with
    | cons he hi hrest =>
      have hfirst : Gains definitions [name i] p _ :=
        (Gains.of_fragments_eq he).append (hx i List.mem_cons_self _ _ _ hi)
      exact hfirst.append (hrest.gains fun i hi => hx i (List.mem_cons_of_mem _ hi))

/-- A definition whose spreads are found may be added at the end. -/
theorem Gains.define (hnodup : (definitions.map Document.Fragment.name).Nodup)
    {d : Document.Fragment} (hd : d ∈ definitions)
    (h : Gains definitions (d.spreads.map Document.Spread.name) p p₁) (f : Typed.Fragment) :
    Gains definitions [d.name] p { p₁ with fragments := p₁.fragments.insert d.name f } := by
  have hmem : ∀ n, n ∈ (p₁.fragments.insert d.name f).keys ↔ n ∈ p₁.fragments.keys ∨ n = d.name := by
    intro n
    rw [OrderedMap.keys_insert]
    split_ifs with hd'
    · exact ⟨Or.inl, fun hn => hn.elim id fun he => he ▸ hd'⟩
    · rw [List.mem_append, List.mem_singleton]
  have hrefers : ∀ n, Refers definitions d.name n → n ∈ d.spreads.map Document.Spread.name := by
    rintro n ⟨e, he, hname, s, hs, rfl⟩
    exact List.mem_map_of_mem (eq_of_name_eq hnodup he hd hname ▸ hs)
  refine ⟨fun n hn => (hmem n).mpr (Or.inl (h.keys hn)),
    List.cons_subset.mpr ⟨(hmem _).mpr (Or.inr rfl), List.nil_subset _⟩, fun hs => ?_, fun n hn => ?_⟩
  · show Sorted definitions (p₁.fragments.insert d.name f).keys
    rw [OrderedMap.keys_insert]
    split_ifs
    · exact h.sorted hs
    · exact (h.sorted hs).concat fun n hn => h.found (hrefers n hn)
  · rcases (hmem n).mp hn with hn | rfl
    · rcases h.reached n hn with hn | ⟨hdef, name, hname, hl⟩
      · exact Or.inl hn
      · obtain ⟨s, hs, rfl⟩ := List.mem_map.mp hname
        exact Or.inr ⟨hdef, d.name, List.mem_singleton_self _, .head ⟨d, hd, rfl, s, hs, rfl⟩ hl⟩
    · exact Or.inr ⟨List.mem_map_of_mem hd, d.name, List.mem_singleton_self _, .refl⟩

end Gains

/-! ### Fragments and documents -/

section Fragments
variable {ctx : Context} {definitions : List Document.Fragment}
  (hnodup : (definitions.map Document.Fragment.name).Nodup)

include hnodup

/-- **A request for a fragment finds what it leads to**, whatever fragments are being resolved. -/
theorem fragment_gains {opened : List Text} {name : Text} {location : Location} {p p' : Progress}
    {f : Typed.Fragment} (h : fragment ctx definitions opened name location p = .ok (f, p')) :
    Gains definitions [name] p p' := by
  rcases fragment_ok h with ⟨hf, rfl⟩ | ⟨-, d, hd, ho, -, hdef⟩
  · have hkey := OrderedMap.mem_keys_of_find? hf
    exact ⟨List.Subset.refl _, List.cons_subset.mpr ⟨hkey, List.nil_subset _⟩, fun hs => hs,
      fun n hn => Or.inl hn⟩
  · have hname : d.name = name := by simpa using List.find?_some hd
    obtain ⟨type, typed, p₁, -, -, ha, -, rfl⟩ := ofDefinition_ok hdef
    have hspreads : Gains definitions (d.spreads.map Document.Spread.name) p p₁ :=
      (all_runs d.selections ha).gains fun _ _ _ _ _ hs => fragment_gains hs
    rw [← hname]
    exact .define hnodup (List.mem_of_find?_eq_some hd) hspreads f
termination_by (closedDefinitions definitions opened).length
decreasing_by exact length_closedDefinitions_lt hd (by rw [ho]; exact Bool.false_ne_true)

theorem selections_gain {parent : NamedType} {types : List Text} {depth : Nat}
    {selections : List Document.Selection} {p p' : Progress} {typed : List Typed.Selection}
    (h : all ctx (fragment ctx definitions []) parent types depth selections p = .ok (typed, p')) :
    Gains definitions ((spreadsOfAll selections).map Document.Spread.name) p p' :=
  (all_runs selections h).gains fun _ _ _ _ _ hs => fragment_gains hnodup hs

theorem operations_gain : ∀ {os : List Document.Operation}
    {done done' : OrderedMap Text Typed.Operation} {p p' : Progress},
    os.foldlM (operation ctx definitions) done p = .ok (done', p') →
      Gains definitions ((os.flatMap fun o => spreadsOfAll o.selections).map Document.Spread.name)
        p p'
  | [], done, done', p, p', h => by
    obtain ⟨-, rfl⟩ := pure_eq_ok.mp h
    exact .of_fragments_eq rfl
  | o :: os, done, done', p, p', h => by
    rw [List.foldlM_cons] at h
    obtain ⟨done₁, p₁, ho, h⟩ := bind_eq_ok.mp h
    obtain ⟨name, root, vars, p₂, typed, -, -, -, hvars, ha, -⟩ := operation_ok ho
    have hvariables : Gains definitions [] p p₂ := .of_fragments_eq (resolveVariables_ok hvars).2
    rw [List.flatMap_cons, List.map_append]
    exact (hvariables.append (selections_gain hnodup ha)).append (operations_gain h)

end Fragments

/-- **A document that resolves finds its fragments and all that it spreads.** -/
theorem document_gains {ctx : Context} {d : Document} {p p' : Progress}
    {operations : OrderedMap Text Typed.Operation} (h : document ctx d p = .ok (operations, p')) :
    (d.fragments.map Document.Fragment.name).Nodup ∧
      Gains d.fragments (d.fragments.map Document.Fragment.name ++
        (d.operations.flatMap fun o => spreadsOfAll o.selections).map Document.Spread.name) p p' := by
  obtain ⟨hdup, p₁, hfragments, hoperations⟩ := document_ok h
  have hnodup := (nodup_of_duplicate?_eq_none hdup).1
  have hfirst := (forM_runs hfragments).gains fun f _ _ _ _ hf => fragment_gains hnodup hf
  exact ⟨hnodup, hfirst.append (operations_gain hnodup hoperations)⟩

end QueryCompiler.Resolve
