import QueryCompiler.Proofs.TypeCase.Fields
import QueryCompiler.Typed.Fragments

/-!
# The conditions of a type case

The walk for a type case narrows the possible types at every type condition that it enters, and
registers what is left. In the end no record straddles one of these sets, whatever came after it
(`typeCase_settles`). Turning spreads into type conditions keeps the conditions and adds some
(`conditionTypes_inlined`), and the fields met are those of a walk that enters spreads
(`occurrences_inlined`).
-/

namespace QueryCompiler.Typed

/-! ### Narrowed types -/

mutual

/-- The types that are left at each type condition of a selection, of those of the walk. -/
def Selection.conditionTypes (types : List Text) : Selection → List (List Text)
  | .field _ _ => []
  | .typeCondition _ none => []
  | .typeCondition _ (some (.mk possibleTypes selections)) =>
    let narrowed := intersect possibleTypes types
    if narrowed.isEmpty then [] else narrowed :: conditionTypesOfAll narrowed selections
  | .booleanCondition _ _ none => []
  | .booleanCondition _ _ (some (.mk _ selections)) => conditionTypesOfAll types selections
  | .spread _ _ _ => []

/-- The types that are left at each type condition of selections. -/
def conditionTypesOfAll (types : List Text) : List Selection → List (List Text)
  | [] => []
  | selection :: rest => selection.conditionTypes types ++ conditionTypesOfAll types rest

end

/-- The types that are left at each type condition of a selection set, outside the sets of fields. -/
def SelectionSet.conditionTypes (s : SelectionSet) : List (List Text) :=
  conditionTypesOfAll s.possibleTypes s.selections

mutual

theorem Selection.walk_settles {types : List Text} {conditional : Bool} {c c' : TypeCase}
    (hv : c.Valid) (hs : ∀ t ∈ types, t ∈ c.default.possibleTypes) :
    ∀ {s : Selection}, s.walk types conditional c = .ok c' →
      ∀ narrowed ∈ s.conditionTypes types, c'.Settled narrowed
  | .field head nested, _, narrowed, hn => by cases hn
  | .typeCondition _ none, h, _, _ => by cases h
  | .typeCondition _ (some (.mk possibleTypes selections)), h, narrowed, hn => by
    rw [Selection.walk] at h
    rw [Selection.conditionTypes] at hn
    split_ifs at h hn with he
    · cases hn
    · have hsub : ∀ t ∈ intersect possibleTypes types, t ∈ c.default.possibleTypes :=
        fun t ht => hs t (mem_intersect.mp ht).2
      have h₁ := TypeCase.Extends.register hv hsub
      have hsub' : ∀ t ∈ intersect possibleTypes types,
          t ∈ (c.register (intersect possibleTypes types)).default.possibleTypes := by
        rw [h₁.types]; exact hsub
      rcases List.mem_cons.mp hn with rfl | hn
      · exact (walkAll_extends h₁.valid hsub' h).settled _ (TypeCase.settled_register_self hv _)
      · exact walkAll_settles h₁.valid hsub' h narrowed hn
  | .booleanCondition _ _ none, h, _, _ => by cases h
  | .booleanCondition _ _ (some (.mk _ selections)), h, narrowed, hn =>
    walkAll_settles hv hs h narrowed hn
  | .spread _ _ _, _, narrowed, hn => by cases hn

/-- **A walk settles the types of every condition that it enters**, since what a condition has
settled stays so for the rest of the walk. -/
theorem walkAll_settles {types : List Text} {conditional : Bool} {c c' : TypeCase}
    (hv : c.Valid) (hs : ∀ t ∈ types, t ∈ c.default.possibleTypes) :
    ∀ {selections : List Selection}, walkAll types conditional c selections = .ok c' →
      ∀ narrowed ∈ conditionTypesOfAll types selections, c'.Settled narrowed
  | [], _, narrowed, hn => by cases hn
  | selection :: rest, h, narrowed, hn => by
    rw [walkAll] at h
    obtain ⟨c₁, h₁, h₂⟩ := Success.bind_eq_ok.mp h
    have e₁ := Selection.walk_extends hv hs h₁
    have hs₁ : ∀ t ∈ types, t ∈ c₁.default.possibleTypes := by rw [e₁.types]; exact hs
    rcases List.mem_append.mp hn with hn | hn
    · exact (walkAll_extends e₁.valid hs₁ h₂).settled _ (Selection.walk_settles hv hs h₁ _ hn)
    · exact walkAll_settles e₁.valid hs₁ h₂ _ hn

end

theorem typeCase_settles {s : SelectionSet} {c : TypeCase} (h : s.typeCase = .ok c) :
    ∀ narrowed ∈ s.conditionTypes, c.Settled narrowed :=
  walkAll_settles (TypeCase.valid_start _) (fun _ ht => ht) h

/-! ### Spreads as type conditions -/

mutual

theorem Selection.occurrences_inlined {t : Text} {conditional : Bool} :
    ∀ s : Selection, s.inlined.occurrences false t conditional = s.occurrences true t conditional
  | .field head nested => rfl
  | .typeCondition _ none => rfl
  | .typeCondition _ (some (.mk types selections)) => by
    simp only [Selection.inlined, inlinedNested, SelectionSet.inlined, Selection.occurrences,
      occurrencesOfAll_inlined selections]
  | .booleanCondition _ _ none => rfl
  | .booleanCondition _ _ (some (.mk types selections)) => by
    simp only [Selection.inlined, inlinedNested, SelectionSet.inlined, Selection.occurrences,
      occurrencesOfAll_inlined selections]
  | .spread _ _ none => rfl
  | .spread _ _ (some (.mk types selections)) => by
    simp only [Selection.inlined, inlinedNested, SelectionSet.inlined, Selection.occurrences,
      occurrencesOfAll_inlined selections, true_and]

/-- **After spreads have become type conditions, the fields met are those of a walk that enters
spreads.** -/
theorem occurrencesOfAll_inlined {t : Text} {conditional : Bool} : ∀ selections : List Selection,
    occurrencesOfAll false t conditional (inlinedAll selections) =
      occurrencesOfAll true t conditional selections
  | [] => rfl
  | s :: rest => by
    rw [inlinedAll, occurrencesOfAll, occurrencesOfAll, s.occurrences_inlined,
      occurrencesOfAll_inlined rest]

end

theorem SelectionSet.occurrences_inlined (s : SelectionSet) (t : Text) :
    s.inlined.occurrences false t = s.occurrences true t := by
  obtain ⟨types, selections⟩ := s
  exact occurrencesOfAll_inlined selections

@[simp] theorem SelectionSet.possibleTypes_inlined (s : SelectionSet) :
    s.inlined.possibleTypes = s.possibleTypes := by
  cases s; rfl

mutual

theorem Selection.conditionTypes_inlined {types narrowed : List Text} :
    ∀ {s : Selection}, narrowed ∈ s.conditionTypes types → narrowed ∈ s.inlined.conditionTypes types
  | .typeCondition _ (some (.mk possibleTypes selections)), h => by
    rw [Selection.conditionTypes] at h
    rw [Selection.inlined, inlinedNested, SelectionSet.inlined, Selection.conditionTypes]
    split_ifs at h ⊢ with he
    · exact h
    · rcases List.mem_cons.mp h with rfl | h
      · exact List.mem_cons_self
      · exact List.mem_cons_of_mem _ (conditionTypesOfAll_inlined h)
  | .booleanCondition _ _ (some (.mk _ selections)), h => by
    rw [Selection.conditionTypes] at h
    exact conditionTypesOfAll_inlined h

theorem conditionTypesOfAll_inlined {types narrowed : List Text} :
    ∀ {selections : List Selection}, narrowed ∈ conditionTypesOfAll types selections →
      narrowed ∈ conditionTypesOfAll types (inlinedAll selections)
  | s :: rest, h => by
    rw [inlinedAll, conditionTypesOfAll, List.mem_append]
    exact (List.mem_append.mp h).imp s.conditionTypes_inlined conditionTypesOfAll_inlined

end

theorem SelectionSet.conditionTypes_inlined {s : SelectionSet} {narrowed : List Text}
    (h : narrowed ∈ s.conditionTypes) : narrowed ∈ s.inlined.conditionTypes := by
  obtain ⟨types, selections⟩ := s
  exact conditionTypesOfAll_inlined h

end QueryCompiler.Typed
