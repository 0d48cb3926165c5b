import QueryCompiler.Proofs.Typed.Closure

/-!
# The closure and the full walk

A walk that enters every spread, also those of names that it met before, goes through all spreads that
occur in selections (`mem_preorderOfAll`). The closure leaves out the selections of names that it has
met. If all spreads of a name carry the same selections, it finds the names of the full walk
nevertheless, each at its first occurrence (`closure_eq_preorder`): when a name is met again its
selections were walked to the end, since no fragment occurs in its own selections
(`not_occurs_inside`).
-/

namespace QueryCompiler.Typed

/-! ### The full walk -/

mutual

/-- The fragments that a selection spreads at any depth, in the order of a walk that enters every
spread. -/
def Selection.preorder : Selection → List Text
  | .field _ nested => preorderOfNested nested
  | .typeCondition _ nested => preorderOfNested nested
  | .booleanCondition _ _ nested => preorderOfNested nested
  | .spread fragmentName _ nested => fragmentName :: preorderOfNested nested

/-- The fragments that selections spread one after the other. -/
def preorderOfAll : List Selection → List Text
  | [] => []
  | selection :: rest => selection.preorder ++ preorderOfAll rest

/-- The fragments that a selection set spreads if it is there. -/
def preorderOfNested : Option SelectionSet → List Text
  | none => []
  | some (.mk _ selections) => preorderOfAll selections

end

/-- The fragments that a selection set spreads at any depth. -/
def SelectionSet.preorder (s : SelectionSet) : List Text := preorderOfAll s.selections

theorem preorderOfNested_some (s : SelectionSet) : preorderOfNested (some s) = s.preorder := by
  cases s
  rfl

/-- The walk through a selection goes through what is inside it. -/
theorem Selection.preorderOfNested_subset (s : Selection) :
    preorderOfNested s.nested ⊆ s.preorder := by
  cases s with
  | spread name type nested => exact List.subset_cons_self _ _
  | _ => exact List.Subset.refl _

section Occurrences
variable {name type : Text} {nested : Option SelectionSet} {x : Selection}
  {selections : List Selection}

/-- The walk goes through a selection wherever it occurs. -/
theorem Occurs.preorder_subset (h : Occurs x selections) :
    x.preorder ⊆ preorderOfAll selections := by
  induction h with
  | here => exact List.subset_append_left _ _
  | @inside s set rest hs _ ih =>
    have hinside := s.preorderOfNested_subset
    rw [hs, preorderOfNested_some] at hinside
    exact List.Subset.trans ih (List.Subset.trans hinside (List.subset_append_left _ _))
  | later _ ih => exact List.Subset.trans ih (List.subset_append_right _ _)

mutual

theorem Selection.exists_of_mem_preorder : ∀ {s : Selection}, name ∈ s.preorder →
    ∃ type nested, Occurs (.spread name type nested) [s]
  | .field _ nested, h => exists_of_mem_preorderOfNested (s := .field _ nested) rfl h
  | .typeCondition _ nested, h => exists_of_mem_preorderOfNested (s := .typeCondition _ nested) rfl h
  | .booleanCondition _ _ nested, h =>
    exists_of_mem_preorderOfNested (s := .booleanCondition _ _ nested) rfl h
  | .spread _ type nested, h => by
    rcases List.mem_cons.mp h with rfl | h
    · exact ⟨type, nested, .here⟩
    · exact exists_of_mem_preorderOfNested (s := .spread _ type nested) rfl h

theorem exists_of_mem_preorderOfAll : ∀ {selections : List Selection},
    name ∈ preorderOfAll selections → ∃ type nested, Occurs (.spread name type nested) selections
  | [], h => absurd h List.not_mem_nil
  | s :: rest, h => by
    rw [preorderOfAll, List.mem_append] at h
    rcases h with h | h
    · obtain ⟨type, nested, ho⟩ := s.exists_of_mem_preorder h
      exact ⟨type, nested, occurs_append.mpr (Or.inl ho)⟩
    · obtain ⟨type, nested, ho⟩ := exists_of_mem_preorderOfAll h
      exact ⟨type, nested, .later ho⟩

theorem exists_of_mem_preorderOfNested {s : Selection} : ∀ {nested : Option SelectionSet},
    s.nested = nested → name ∈ preorderOfNested nested →
      ∃ type nested, Occurs (.spread name type nested) [s]
  | none, _, h => absurd h List.not_mem_nil
  | some (.mk types selections), hs, h => by
    obtain ⟨type, nested, ho⟩ := exists_of_mem_preorderOfAll h
    exact ⟨type, nested, .inside hs ho⟩

end

/-- **The full walk goes through the spreads that occur**, at any depth, and no others. -/
theorem mem_preorderOfAll : name ∈ preorderOfAll selections ↔
    ∃ type nested, Occurs (.spread name type nested) selections := by
  refine ⟨exists_of_mem_preorderOfAll, fun ⟨type, nested, h⟩ => ?_⟩
  exact h.preorder_subset (by rw [Selection.preorder]; exact List.mem_cons_self)

end Occurrences

/-! ### Spreads of one name -/

section Linked
variable {table : Table} {name type : Text} {nested : Option SelectionSet}
  {selections rest : List Selection}

theorem sizeOf_lt_of_occurs {x : Selection} {selections : List Selection} (h : Occurs x selections) :
    sizeOf x < sizeOf selections := by
  induction h with
  | here => simp only [List.cons.sizeOf_spec]; omega
  | @inside s set rest hs _ ih =>
    obtain ⟨types, inner⟩ := set
    simp only [SelectionSet.selections] at ih
    have hset : sizeOf inner < sizeOf s := by
      cases s <;> simp only [Selection.nested] at hs <;> subst hs <;> simp <;> omega
    simp only [List.cons.sizeOf_spec]
    omega
  | later _ ih => simp only [List.cons.sizeOf_spec]; omega

/-- **No fragment occurs in its own selections**, which would contain themselves. -/
theorem Linked.not_occurs_inside {set : SelectionSet}
    (h : Linked table [.spread name type (some set)]) {type' : Text} :
    ¬ Occurs (.spread name type' nested) set.selections := by
  intro ho
  obtain ⟨set₁, hset₁, ht₁⟩ := h name type _ .here
  obtain ⟨set₂, rfl, ht₂⟩ := h name type' nested (.inside rfl ho)
  obtain rfl := Option.some.inj hset₁
  have hsame : set.selections = set₂.selections := Option.some.inj (ht₁.symm.trans ht₂)
  have hsize := sizeOf_lt_of_occurs ho
  rw [hsame] at hsize
  cases set₂
  simp [SelectionSet.selections] at hsize
  omega

/-- The names of a walk are finished for selections: wherever one of them is spread there, the walk
has gone through what the spread carries. -/
def Finished (walked : List Text) (selections : List Selection) : Prop :=
  ∀ name type nested, Occurs (.spread name type nested) selections → name ∈ walked →
    preorderOfNested nested ⊆ walked

theorem Finished.head {walked : List Text} {s : Selection} (h : Finished walked (s :: rest)) :
    Finished walked [s] := fun name type nested ho =>
  h name type nested (by rw [← List.singleton_append]; exact occurs_append.mpr (Or.inl ho))

theorem Finished.inside {walked : List Text} {s : Selection} (h : Finished walked [s])
    {set : SelectionSet} (hs : s.nested = some set) : Finished walked set.selections :=
  fun name type nested ho => h name type nested (.inside hs ho)

/-- After a walk through the first selection its names are finished for the rest, since spreads of
one name carry the same selections. -/
theorem Finished.after {walked : List Text} {s : Selection} (h : Finished walked (s :: rest))
    (hlinked : Linked table (s :: rest)) : Finished (walked ++ s.preorder) rest := by
  intro name type nested ho hname
  rcases List.mem_append.mp hname with hname | hname
  · exact List.Subset.trans (h name type nested (.later ho) hname) (List.subset_append_left _ _)
  · obtain ⟨type', nested', ho'⟩ := s.exists_of_mem_preorder hname
    obtain ⟨set, rfl, ht⟩ := hlinked name type nested (.later ho)
    obtain ⟨set', rfl, ht'⟩ := hlinked.head name type' nested' ho'
    have hsame : set.selections = set'.selections := Option.some.inj (ht.symm.trans ht')
    have hwalk := ho'.preorder_subset
    rw [Selection.preorder, preorderOfNested_some, preorderOfAll, preorderOfAll,
      List.append_nil] at hwalk
    rw [preorderOfNested_some, SelectionSet.preorder, hsame]
    exact List.Subset.trans (List.subset_cons_self _ _)
      (List.Subset.trans hwalk (List.subset_append_right _ _))

/-- Before a walk into a fragment its name is finished, since it does not occur there. -/
theorem Finished.enter {walked : List Text} {set : SelectionSet}
    (h : Finished walked [.spread name type (some set)])
    (hlinked : Linked table [.spread name type (some set)]) :
    Finished (walked ++ [name]) set.selections := by
  intro name' type' nested' ho hname
  rcases List.mem_append.mp hname with hname | hname
  · exact List.Subset.trans (h.inside rfl name' type' nested' ho hname) (List.subset_append_left _ _)
  · obtain rfl := List.mem_singleton.mp hname
    exact absurd ho hlinked.not_occurs_inside

end Linked

/-! ### The closure -/

theorem eraseDups_append_of_subset {names more : List Text} (h : more ⊆ names) :
    (names ++ more).eraseDups = names.eraseDups := by
  have hnone : more.removeAll names = [] := by
    rw [List.removeAll, List.filter_eq_nil_iff]
    intro n hn
    simpa using h hn
  rw [List.eraseDups_append, hnone, List.eraseDups_nil, List.append_nil]

section Walk
variable {table : Table}

mutual

theorem Selection.addSpreads_eraseDups : ∀ {s : Selection} {walked : List Text}, Linked table [s] →
    Finished walked [s] → s.addSpreads walked.eraseDups = (walked ++ s.preorder).eraseDups
  | .field _ nested, walked, h, hf =>
    addSpreadsOfNested_eraseDups (fun _ hs => h.inside hs) fun _ hs => hf.inside hs
  | .typeCondition _ nested, walked, h, hf =>
    addSpreadsOfNested_eraseDups (fun _ hs => h.inside hs) fun _ hs => hf.inside hs
  | .booleanCondition _ _ nested, walked, h, hf =>
    addSpreadsOfNested_eraseDups (fun _ hs => h.inside hs) fun _ hs => hf.inside hs
  | .spread name type nested, walked, h, hf => by
    rw [Selection.addSpreads, Selection.preorder]
    split_ifs with hn
    · have hmem : name ∈ walked := by simpa using hn
      have hall := hf name type nested .here hmem
      exact (eraseDups_append_of_subset (List.cons_subset.mpr ⟨hmem, hall⟩)).symm
    · have hmem : name ∉ walked := by simpa using hn
      obtain ⟨set, rfl, -⟩ := h name type nested .here
      have hconcat := OrderedMap.eraseDups_concat walked name
      rw [if_neg (by simpa using hmem)] at hconcat
      rw [← hconcat, List.append_cons walked name (preorderOfNested (some set))]
      refine addSpreadsOfNested_eraseDups (fun set' hs => ?_) fun set' hs => ?_
      · exact h.inside hs
      · obtain rfl := Option.some.inj hs
        exact hf.enter h

theorem addSpreadsOfAll_eraseDups : ∀ {selections : List Selection} {walked : List Text},
    Linked table selections → Finished walked selections →
      addSpreadsOfAll walked.eraseDups selections = (walked ++ preorderOfAll selections).eraseDups
  | [], walked, _, _ => by rw [addSpreadsOfAll, preorderOfAll, List.append_nil]
  | s :: rest, walked, h, hf => by
    rw [addSpreadsOfAll, s.addSpreads_eraseDups h.head hf.head,
      addSpreadsOfAll_eraseDups h.tail (hf.after h), preorderOfAll, List.append_assoc]

theorem addSpreadsOfNested_eraseDups : ∀ {nested : Option SelectionSet} {walked : List Text},
    (∀ set, nested = some set → Linked table set.selections) →
    (∀ set, nested = some set → Finished walked set.selections) →
      addSpreadsOfNested walked.eraseDups nested = (walked ++ preorderOfNested nested).eraseDups
  | none, walked, _, _ => by rw [addSpreadsOfNested, preorderOfNested, List.append_nil]
  | some (.mk types selections), walked, h, hf =>
    addSpreadsOfAll_eraseDups (h _ rfl) (hf _ rfl)

end

/-- **The closure lists the names of the full walk, each at its first occurrence**, if all spreads of
a name carry the same selections. -/
theorem SelectionSet.closure_eq_preorder {s : SelectionSet} (h : Linked table s.selections) :
    s.closure = s.preorder.eraseDups := by
  have hnone : Finished [] s.selections := fun _ _ _ _ hname => absurd hname List.not_mem_nil
  cases s with
  | mk types selections => exact addSpreadsOfAll_eraseDups h hnone

end Walk

end QueryCompiler.Typed
