import QueryCompiler.Document.Typename
import Mathlib.Data.List.Chain
import Mathlib.Logic.Relation

/-!
# The graph of spreads

The fragments of a document make a graph, in which a definition refers to the fragments that it
spreads. All spreads count, those that a literal keeps out too.

* `spreads`: the spreads of a document.
* `Refers`, `Leads`: the edges of the graph and its paths.
* `Sorted`: an order of names in which every fragment comes after those it refers to. A graph that
  has such an order has no cycle (`Sorted.acyclic`).
* `addTypename` takes spreads away and adds none (`refers_of_addTypename`).
-/

namespace QueryCompiler.Document

/-! ### Spreads -/

mutual

/-- The spreads in a selection, at any depth, in order. -/
def Selection.spreads : Selection → List Spread
  | .field _ selections => spreadsOfAll selections
  | .spread head => [head]
  | .inline _ selections => spreadsOfAll selections

/-- The spreads in selections one after the other. -/
def spreadsOfAll : List Selection → List Spread
  | [] => []
  | s :: rest => s.spreads ++ spreadsOfAll rest

end

/-- The spreads in the definition of a fragment. -/
def Fragment.spreads (f : Fragment) : List Spread := spreadsOfAll f.selections

/-- The spreads in the definitions of a document. -/
def spreads (d : Document) : List Spread :=
  d.operations.flatMap (fun o => spreadsOfAll o.selections) ++ d.fragments.flatMap Fragment.spreads

theorem mem_spreads {d : Document} {s : Spread} : s ∈ d.spreads ↔
    (∃ o ∈ d.operations, s ∈ spreadsOfAll o.selections) ∨ ∃ f ∈ d.fragments, s ∈ f.spreads := by
  rw [spreads, List.mem_append, List.mem_flatMap, List.mem_flatMap]

/-! ### Edges and paths -/

section Graph
variable (definitions : List Fragment)

/-- The definition of a fragment spreads another one. -/
def Refers (a b : Text) : Prop := ∃ f ∈ definitions, f.name = a ∧ ∃ s ∈ f.spreads, s.name = b

instance decidableRefers : DecidableRel (Refers definitions) := fun a b =>
  inferInstanceAs (Decidable (∃ f ∈ definitions, f.name = a ∧ ∃ s ∈ f.spreads, s.name = b))

/-- A fragment spreads another one, or spreads one that leads to it; or it is that one. -/
def Leads : Text → Text → Prop := Relation.ReflTransGen (Refers definitions)

/-- The graph has no cycle. -/
def Acyclic : Prop := ∀ name, ¬ Relation.TransGen (Refers definitions) name name

/-- Every name comes after all names that it refers to. -/
def Sorted (names : List Text) : Prop :=
  ∀ before name rest, names = before ++ name :: rest → ∀ n, Refers definitions name n → n ∈ before

variable {definitions} {names : List Text} {a b name : Text}

theorem sorted_nil : Sorted definitions [] := by
  intro before name rest h
  exact absurd h (List.append_ne_nil_of_right_ne_nil _ (List.cons_ne_nil _ _)).symm

/-- A name may be put at the end, after all that it refers to. -/
theorem Sorted.concat (h : Sorted definitions names)
    (hname : ∀ n, Refers definitions name n → n ∈ names) : Sorted definitions (names ++ [name]) := by
  intro before other rest he n hn
  rcases List.append_eq_append_iff.mp he with ⟨l, rfl, hl⟩ | ⟨l, rfl, hl⟩
  · rcases List.singleton_eq_append_iff.mp hl with ⟨rfl, hl⟩ | ⟨-, hl⟩
    · obtain ⟨rfl, -⟩ := List.cons.inj hl
      rw [List.append_nil]
      exact hname n hn
    · cases hl
  · cases l with
    | nil =>
      obtain ⟨rfl, -⟩ := List.cons.inj hl
      rw [List.append_nil] at hname
      exact hname n hn
    | cons x l =>
      obtain ⟨rfl, rfl⟩ := List.cons.inj hl
      exact h before other l rfl n hn

theorem Sorted.idxOf_lt (h : Sorted definitions names) (ha : a ∈ names)
    (hr : Refers definitions a b) : b ∈ names ∧ names.idxOf b < names.idxOf a := by
  obtain ⟨before, rest, rfl, hnot⟩ := List.eq_append_cons_of_mem ha
  have hb : b ∈ before := h before a rest rfl b hr
  refine ⟨List.mem_append_left _ hb, ?_⟩
  rw [List.idxOf_append_of_mem hb, List.idxOf_append_of_notMem hnot, List.idxOf_cons_self,
    Nat.add_zero]
  exact List.idxOf_lt_length_iff.mpr hb

/-- What a name in order leads to is in order too. -/
theorem Sorted.mem_of_leads (h : Sorted definitions names) (ha : a ∈ names)
    (hl : Leads definitions a b) : b ∈ names := by
  induction hl with
  | refl => exact ha
  | tail _ hr ih => exact (h.idxOf_lt ih hr).1

/-- **A graph whose names have an order has no cycle**: references go to earlier names only. -/
theorem Sorted.acyclic (h : Sorted definitions names)
    (hall : ∀ a b, Refers definitions a b → a ∈ names) : Acyclic definitions := by
  intro name hcycle
  have hlt : ∀ {a b}, Relation.TransGen (Refers definitions) a b → names.idxOf b < names.idxOf a := by
    intro a b hab
    induction hab with
    | single hr => exact (h.idxOf_lt (hall _ _ hr) hr).2
    | tail _ hr ih => exact Nat.lt_trans (h.idxOf_lt (hall _ _ hr) hr).2 ih
  exact Nat.lt_irrefl _ (hlt hcycle)

/-- The names of a chain of references in a graph without cycles are distinct. -/
theorem Acyclic.nodup (h : Acyclic definitions) (hc : names.IsChain (Refers definitions)) :
    names.Nodup := by
  have hpaths : names.IsChain (Relation.TransGen (Refers definitions)) :=
    hc.imp fun _ _ => Relation.TransGen.single
  refine hpaths.pairwise.imp fun {a b} hab he => ?_
  rw [he] at hab
  exact h b hab

/-- A chain goes on with a name that its last name refers to. -/
theorem isChain_concat (hc : (names ++ [a]).IsChain (Refers definitions))
    (hr : Refers definitions a b) : (names ++ [a] ++ [b]).IsChain (Refers definitions) := by
  refine List.isChain_append.mpr ⟨hc, .singleton _, fun x hx y hy => ?_⟩
  rw [List.getLast?_concat] at hx
  obtain rfl := Option.mem_some_iff.mp hx
  obtain rfl := Option.mem_some_iff.mp hy
  exact hr

/-- Every name of a chain but the last has a definition. -/
theorem defined_of_isChain (hc : (names ++ [name]).IsChain (Refers definitions)) :
    ∀ n ∈ names, n ∈ definitions.map Fragment.name := by
  induction names with
  | nil => exact fun n hn => absurd hn List.not_mem_nil
  | cons first rest ih =>
    intro n hn
    rcases List.mem_cons.mp hn with rfl | hn
    · obtain ⟨_, f, hf, hname, -⟩ : ∃ x, Refers definitions n x := by
        cases rest with
        | nil => exact ⟨name, (List.isChain_cons_cons.mp hc).1⟩
        | cons x rest => exact ⟨x, (List.isChain_cons_cons.mp hc).1⟩
      exact List.mem_map.mpr ⟨f, hf, hname⟩
    · exact ih hc.tail n hn

end Graph

/-! ### Type names -/

mutual

theorem Selection.spreads_addTypename : ∀ s : Selection, s.addTypename.spreads ⊆ s.spreads
  | .field head [] => List.Subset.refl _
  | .field head (s :: rest) => by
    rw [Selection.addTypename, Selection.spreads, Selection.spreads, spreadsOfAll, typenameField,
      Selection.spreads, spreadsOfAll, List.nil_append]
    exact spreadsOfAll_addTypename (s :: rest)
  | .spread head => List.Subset.refl _
  | .inline head selections => by
    rw [Selection.addTypename, Selection.spreads, Selection.spreads]
    exact spreadsOfAll_addTypename selections

theorem spreadsOfAll_addTypename : ∀ selections : List Selection,
    spreadsOfAll (addTypenameToAll selections) ⊆ spreadsOfAll selections
  | [] => List.Subset.refl _
  | s :: rest => by
    rw [addTypenameToAll]
    split_ifs
    · rw [spreadsOfAll]
      exact List.Subset.trans (spreadsOfAll_addTypename rest) (List.subset_append_right _ _)
    · rw [spreadsOfAll, spreadsOfAll]
      exact List.append_subset.mpr
        ⟨List.Subset.trans s.spreads_addTypename (List.subset_append_left _ _),
          List.Subset.trans (spreadsOfAll_addTypename rest) (List.subset_append_right _ _)⟩

end

/-- A fragment with type names is a fragment of the document that spreads as much at least. -/
theorem exists_of_mem_addTypename {d : Document} {f : Fragment} (hf : f ∈ d.addTypename.fragments) :
    ∃ g ∈ d.fragments, g.name = f.name ∧ f.spreads ⊆ g.spreads := by
  obtain ⟨g, hg, rfl⟩ := List.mem_map.mp hf
  refine ⟨g, hg, rfl, ?_⟩
  show spreadsOfAll (typenameField :: addTypenameToAll g.selections) ⊆ spreadsOfAll g.selections
  rw [spreadsOfAll, typenameField, Selection.spreads, spreadsOfAll, List.nil_append]
  exact spreadsOfAll_addTypename g.selections

theorem fragmentNames_addTypename (d : Document) :
    d.addTypename.fragments.map Fragment.name = d.fragments.map Fragment.name := by
  rw [addTypename, List.map_map]
  rfl

theorem spreads_addTypename (d : Document) : d.addTypename.spreads ⊆ d.spreads := by
  intro s hs
  rcases mem_spreads.mp hs with ⟨o, ho, hs⟩ | ⟨f, hf, hs⟩
  · obtain ⟨o', ho', rfl⟩ := List.mem_map.mp ho
    exact mem_spreads.mpr (Or.inl ⟨o', ho', spreadsOfAll_addTypename o'.selections hs⟩)
  · obtain ⟨g, hg, -, hsub⟩ := exists_of_mem_addTypename hf
    exact mem_spreads.mpr (Or.inr ⟨g, hg, hsub hs⟩)

/-- **Type names add no reference.** -/
theorem refers_of_addTypename {d : Document} {a b : Text}
    (h : Refers d.addTypename.fragments a b) : Refers d.fragments a b := by
  obtain ⟨f, hf, rfl, s, hs, rfl⟩ := h
  obtain ⟨g, hg, hname, hsub⟩ := exists_of_mem_addTypename hf
  exact ⟨g, hg, hname, s, hsub hs, rfl⟩

end QueryCompiler.Document
