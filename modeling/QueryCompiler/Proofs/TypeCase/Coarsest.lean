import QueryCompiler.Proofs.TypeCase.Conditions

/-!
# The coarsest records

The records of a type case are as coarse as the type conditions allow. Every condition that narrows
the possible types leaves a set of them (`narrowings`), and two types have one record exactly when
no such set tells them apart.

* `Coarsest`: the parts of a case are the classes of that relation, for the sets registered so far.
* `Coarsest.register`: one more set refines the relation by it. A set that is there already, or that
  has all possible types, changes nothing, so adding a field for the types that the walk stands at
  keeps the relation too (`Coarsest.add_within`).
* `walkAll_coarsest`: hence a walk refines it by the sets that it comes across.
* `Drawn`: each part is taken from one list of the selection set, in its order, so it repeats a type
  only if the list does.
-/

namespace QueryCompiler.Typed

/-! ### Types that have one record -/

namespace TypeCase

variable {c : TypeCase} {sets : List (List Text)}

/-- One part has both types. -/
def Together (c : TypeCase) (t u : Text) : Prop := ∃ part ∈ c.parts, t ∈ part ∧ u ∈ part

/-- Some of the sets has the types, and every set has both or neither. -/
def Alike (sets : List (List Text)) (t u : Text) : Prop :=
  (∃ types ∈ sets, t ∈ types) ∧ ∀ types ∈ sets, t ∈ types ↔ u ∈ types

/-- The parts are the classes of types that the sets do not tell apart. -/
def Coarsest (c : TypeCase) (sets : List (List Text)) : Prop :=
  ∀ t u, c.Together t u ↔ Alike sets t u

theorem alike_self {t : Text} : Alike sets t t ↔ ∃ types ∈ sets, t ∈ types :=
  and_iff_left fun _ _ => Iff.rfl

theorem alike_congr {sets' : List (List Text)} (h : ∀ types, types ∈ sets' ↔ types ∈ sets)
    (t u : Text) : Alike sets' t u ↔ Alike sets t u := by
  simp only [Alike, h]

theorem alike_cons {subset : List Text} {t u : Text} :
    Alike (subset :: sets) t u ↔
      (t ∈ subset ↔ u ∈ subset) ∧ (Alike sets t u ∨
        t ∈ subset ∧ (∀ types ∈ sets, t ∉ types) ∧ ∀ types ∈ sets, u ∉ types) := by
  simp only [Alike, List.exists_mem_cons_iff, List.forall_mem_cons]
  constructor
  · rintro ⟨hsome, hsub, hsets⟩
    refine ⟨hsub, ?_⟩
    by_cases ht : ∃ types ∈ sets, t ∈ types
    · exact Or.inl ⟨ht, hsets⟩
    · have hnone : ∀ types ∈ sets, t ∉ types := fun types hm hin => ht ⟨types, hm, hin⟩
      exact Or.inr ⟨hsome.resolve_right ht, hnone,
        fun types hm hu => hnone types hm ((hsets types hm).mpr hu)⟩
  · rintro ⟨hsub, ⟨hsome, hsets⟩ | ⟨ht, hnt, hnu⟩⟩
    · exact ⟨Or.inr hsome, hsub, hsets⟩
    · exact ⟨Or.inl ht, hsub, fun types hm => iff_of_false (hnt types hm) (hnu types hm)⟩

theorem together_self {t : Text} : c.Together t t ↔ c.Recorded t := by
  simp [Together, Recorded]

theorem Coarsest.recorded_iff (h : c.Coarsest sets) {t : Text} :
    c.Recorded t ↔ ∃ types ∈ sets, t ∈ types := by
  rw [← together_self, h t t, alike_self]

theorem Coarsest.congr {sets' : List (List Text)} (h : c.Coarsest sets)
    (hs : ∀ types, types ∈ sets' ↔ types ∈ sets) : c.Coarsest sets' := fun t u =>
  (h t u).trans (alike_congr hs t u).symm

theorem coarsest_start (types : List Text) : (start types).Coarsest [] := by
  intro t u
  simp [Together, Alike, start, parts]

/-- A cut separates the types inside a subset from those outside it, and no others. -/
theorem together_cutTypes {subset types : List Text} {t u : Text} :
    (∃ part ∈ cutTypes subset types, t ∈ part ∧ u ∈ part) ↔
      t ∈ types ∧ u ∈ types ∧ (t ∈ subset ↔ u ∈ subset) := by
  constructor
  · rintro ⟨part, hp, ht, hu⟩
    obtain ⟨hin, hside⟩ := cutTypes_spec hp
    refine ⟨hin t ht, hin u hu, ?_⟩
    rcases hside with hside | hside
    · exact iff_of_true (hside t ht) (hside u hu)
    · exact iff_of_false (hside t ht) (hside u hu)
  · rintro ⟨ht, hu, hiff⟩
    unfold cutTypes
    simp only
    split_ifs
    · exact ⟨types, by simp, ht, hu⟩
    · exact ⟨types, by simp, ht, hu⟩
    · by_cases hs : t ∈ subset
      · exact ⟨_, List.mem_cons_self, mem_intersect.mpr ⟨ht, hs⟩,
          mem_intersect.mpr ⟨hu, hiff.mp hs⟩⟩
      · refine ⟨without types (intersect types subset), by simp, mem_without.mpr ⟨ht, ?_⟩,
          mem_without.mpr ⟨hu, ?_⟩⟩
        · exact fun h => hs (mem_intersect.mp h).2
        · exact fun h => hs (hiff.mpr (mem_intersect.mp h).2)

/-- Types are together after a subset is registered if they were and are on one side of the subset,
or if both are of the subset and new. -/
theorem together_register (hv : c.Valid) {subset : List Text} (h : c.isDefault subset = false)
    {t u : Text} : (c.register subset).Together t u ↔
      (c.Together t u ∧ (t ∈ subset ↔ u ∈ subset)) ∨
        (t ∈ subset ∧ u ∈ subset ∧ ¬ c.Recorded t ∧ ¬ c.Recorded u) := by
  have hnew : ∀ v, v ∈ unrecorded c.records subset ↔ v ∈ subset ∧ ¬ c.Recorded v := by
    intro v
    rw [mem_unrecorded, TypeCase.recorded_iff]
    simp
  unfold Together
  rw [parts_register hv h]
  simp only [List.mem_append, List.mem_flatMap, or_and_right, exists_or]
  refine or_congr ?_ ?_
  · constructor
    · rintro ⟨part, ⟨old, hold, hcut⟩, ht, hu⟩
      obtain ⟨ht', hu', hiff⟩ := together_cutTypes.mp ⟨part, hcut, ht, hu⟩
      exact ⟨⟨old, hold, ht', hu'⟩, hiff⟩
    · rintro ⟨⟨old, hold, ht, hu⟩, hiff⟩
      obtain ⟨part, hcut, htu⟩ := together_cutTypes.mpr ⟨ht, hu, hiff⟩
      exact ⟨part, ⟨old, hold, hcut⟩, htu⟩
  · constructor
    · rintro ⟨part, hp, ht, hu⟩
      split_ifs at hp
      · cases hp
      · obtain rfl := List.mem_singleton.mp hp
        exact ⟨((hnew t).mp ht).1, ((hnew u).mp hu).1, ((hnew t).mp ht).2, ((hnew u).mp hu).2⟩
    · rintro ⟨ht, hu, hnt, hnu⟩
      have htu : t ∈ unrecorded c.records subset := (hnew t).mpr ⟨ht, hnt⟩
      refine ⟨unrecorded c.records subset, ?_, htu, (hnew u).mpr ⟨hu, hnu⟩⟩
      rw [if_neg fun he => by rw [List.isEmpty_iff] at he; rw [he] at htu; cases htu]
      exact List.mem_singleton_self _

/-- **Registering a subset tells its types apart from all others, and does nothing else.** -/
theorem Coarsest.register (hv : c.Valid) (h : c.Coarsest sets) {subset : List Text}
    (hd : c.isDefault subset = false) : (c.register subset).Coarsest (subset :: sets) := by
  intro t u
  rw [together_register hv hd, alike_cons, ← h t u, h.recorded_iff, h.recorded_iff]
  constructor
  · rintro (⟨htu, hiff⟩ | ⟨ht, hu, hnt, hnu⟩)
    · exact ⟨hiff, Or.inl htu⟩
    · exact ⟨iff_of_true ht hu, Or.inr ⟨ht, fun types hm hin => hnt ⟨types, hm, hin⟩,
        fun types hm hin => hnu ⟨types, hm, hin⟩⟩⟩
  · rintro ⟨hiff, htu | ⟨ht, hnt, hnu⟩⟩
    · exact Or.inl ⟨htu, hiff⟩
    · refine Or.inr ⟨ht, hiff.mp ht, ?_, ?_⟩
      · rintro ⟨types, hm, hin⟩
        exact hnt types hm hin
      · rintro ⟨types, hm, hin⟩
        exact hnu types hm hin

/-- Adding a field for types that are registered, or for all types, keeps the parts coarsest. -/
theorem Coarsest.add_within (hv : c.Valid) (h : c.Coarsest sets) {types : List Text}
    (ht : c.isDefault types = true ∨ types ∈ sets) (field : Field) :
    (c.add types field).Coarsest sets := by
  have hreg : (c.register types).Coarsest sets := by
    cases hd : c.isDefault types with
    | true => rwa [register_of_isDefault hd]
    | false =>
      have hmem := ht.resolve_left (by simp [hd])
      refine (h.register hv hd).congr fun types' => ?_
      rw [List.mem_cons]
      exact ⟨Or.inr, fun hor => hor.elim (fun he => he ▸ hmem) id⟩
  intro t u
  rw [← hreg t u]
  unfold Together
  rw [parts_add]

end TypeCase

/-! ### The sets of a walk -/

/-- The sets of types that are left at the type conditions of a selection set, without those that
have all possible types. -/
def SelectionSet.narrowings (s : SelectionSet) : List (List Text) :=
  s.conditionTypes.filter fun types => !covers types s.possibleTypes

namespace TypeCase

/-- The sets of some that do not have all possible types. -/
def narrow (c : TypeCase) (sets : List (List Text)) : List (List Text) :=
  sets.filter fun types => !c.isDefault types

theorem mem_narrow {c : TypeCase} {sets : List (List Text)} {types : List Text} :
    types ∈ c.narrow sets ↔ types ∈ sets ∧ c.isDefault types = false := by
  simp [narrow]

theorem narrow_congr {c c' : TypeCase} (h : c'.default.possibleTypes = c.default.possibleTypes)
    (sets : List (List Text)) : c'.narrow sets = c.narrow sets := by
  unfold narrow
  simp only [isDefault_congr h]

end TypeCase

open TypeCase

mutual

theorem Selection.walk_coarsest {types : List Text} {conditional : Bool} {c c' : TypeCase}
    {sets : List (List Text)} (hv : c.Valid) (hs : ∀ t ∈ types, t ∈ c.default.possibleTypes)
    (hc : c.Coarsest sets) (ht : c.isDefault types = true ∨ types ∈ sets) :
    ∀ {s : Selection}, s.walk types conditional c = .ok c' →
      c'.Coarsest (sets ++ c.narrow (s.conditionTypes types))
  | .field head nested, h => by
    obtain rfl := Except.ok.inj h
    exact (hc.add_within hv ht _).congr (by simp [Selection.conditionTypes, narrow])
  | .typeCondition _ none, h => by cases h
  | .typeCondition _ (some (.mk possibleTypes selections)), h => by
    rw [Selection.walk] at h
    rw [Selection.conditionTypes]
    split_ifs at h ⊢ with he
    · obtain rfl := Except.ok.inj h
      exact hc.congr (by simp [narrow])
    · have hsub : ∀ t ∈ intersect possibleTypes types, t ∈ c.default.possibleTypes :=
        fun t ht => hs t (mem_intersect.mp ht).2
      have hreg := TypeCase.Extends.register hv hsub
      have hsub' : ∀ t ∈ intersect possibleTypes types,
          t ∈ (c.register (intersect possibleTypes types)).default.possibleTypes := by
        rw [hreg.types]; exact hsub
      cases hd : c.isDefault (intersect possibleTypes types) with
      | true =>
        rw [register_of_isDefault hd] at h
        refine (walkAll_coarsest hv hsub hc (Or.inl hd) h).congr fun types' => ?_
        simp only [List.mem_append, mem_narrow, List.mem_cons]
        grind
      | false =>
        have hrec := walkAll_coarsest hreg.valid hsub' (hc.register hv hd)
          (Or.inr List.mem_cons_self) h
        rw [narrow_congr hreg.types] at hrec
        refine hrec.congr fun types' => ?_
        simp only [List.mem_append, mem_narrow, List.mem_cons]
        grind
  | .booleanCondition _ _ none, h => by cases h
  | .booleanCondition _ _ (some (.mk _ selections)), h => walkAll_coarsest hv hs hc ht h
  | .spread _ _ _, h => by
    obtain rfl := Except.ok.inj h
    exact hc.congr (by simp [Selection.conditionTypes, narrow])

/-- **A walk refines the parts by the sets that it comes across.** The walk stands at types that are
registered or all possible ones, which is why its fields split nothing. -/
theorem walkAll_coarsest {types : List Text} {conditional : Bool} {c c' : TypeCase}
    {sets : List (List Text)} (hv : c.Valid) (hs : ∀ t ∈ types, t ∈ c.default.possibleTypes)
    (hc : c.Coarsest sets) (ht : c.isDefault types = true ∨ types ∈ sets) :
    ∀ {selections : List Selection}, walkAll types conditional c selections = .ok c' →
      c'.Coarsest (sets ++ c.narrow (conditionTypesOfAll types selections))
  | [], h => by
    obtain rfl := Except.ok.inj h
    exact hc.congr (by simp [conditionTypesOfAll, narrow])
  | selection :: rest, h => by
    rw [walkAll] at h
    obtain ⟨c₁, h₁, h₂⟩ := Success.bind_eq_ok.mp h
    have e₁ := Selection.walk_extends hv hs h₁
    have hs₁ : ∀ t ∈ types, t ∈ c₁.default.possibleTypes := by rw [e₁.types]; exact hs
    have ht₁ : c₁.isDefault types = true ∨
        types ∈ sets ++ c.narrow (selection.conditionTypes types) :=
      ht.imp (fun hd => (isDefault_congr e₁.types types).trans hd) (List.mem_append_left _)
    have hrec := walkAll_coarsest e₁.valid hs₁ (Selection.walk_coarsest hv hs hc ht h₁) ht₁ h₂
    rw [narrow_congr e₁.types, List.append_assoc] at hrec
    rwa [conditionTypesOfAll, narrow, List.filter_append]

end

theorem SelectionSet.typeCase_coarsest {s : SelectionSet} {c : TypeCase} (h : s.typeCase = .ok c) :
    c.Coarsest s.narrowings := by
  have hd : (start s.possibleTypes).isDefault s.possibleTypes = true := covers_iff.mpr fun _ ht => ht
  exact walkAll_coarsest (valid_start _) (fun _ ht => ht) (coarsest_start _) (Or.inl hd) h

/-! ### Types without repeats -/

mutual

/-- The possible types of every selection set inside a selection. -/
def Selection.typeLists : Selection → List (List Text)
  | .field _ nested => typeListsOfNested nested
  | .typeCondition _ nested => typeListsOfNested nested
  | .booleanCondition _ _ nested => typeListsOfNested nested
  | .spread _ _ nested => typeListsOfNested nested

/-- The possible types of every selection set in one that may be missing. -/
def typeListsOfNested : Option SelectionSet → List (List Text)
  | none => []
  | some s => s.typeLists

/-- The possible types of a selection set and of every one inside it. -/
def SelectionSet.typeLists : SelectionSet → List (List Text)
  | .mk possibleTypes selections => possibleTypes :: typeListsOfAll selections

/-- The possible types of every selection set inside selections. -/
def typeListsOfAll : List Selection → List (List Text)
  | [] => []
  | selection :: rest => selection.typeLists ++ typeListsOfAll rest

end

/-- The list is taken, in order, from one of some lists. -/
def Drawn (lists : List (List Text)) (types : List Text) : Prop :=
  ∃ list ∈ lists, types.Sublist list

theorem Drawn.mono {lists lists' : List (List Text)} {types : List Text} (h : Drawn lists types)
    (hs : ∀ list ∈ lists, list ∈ lists') : Drawn lists' types := by
  obtain ⟨list, hm, hsub⟩ := h
  exact ⟨list, hs list hm, hsub⟩

theorem Drawn.nodup {lists : List (List Text)} {types : List Text} (h : Drawn lists types)
    (hn : ∀ list ∈ lists, list.Nodup) : types.Nodup := by
  obtain ⟨list, hm, hsub⟩ := h
  exact hsub.nodup (hn list hm)

theorem Drawn.sublist {lists : List (List Text)} {types types' : List Text} (h : Drawn lists types)
    (hs : types'.Sublist types) : Drawn lists types' := by
  obtain ⟨list, hm, hsub⟩ := h
  exact ⟨list, hm, hs.trans hsub⟩

mutual

theorem Selection.conditionTypes_drawn {types narrowed : List Text} :
    ∀ {s : Selection}, narrowed ∈ s.conditionTypes types → Drawn s.typeLists narrowed
  | .typeCondition _ (some (.mk possibleTypes selections)), h => by
    rw [Selection.conditionTypes] at h
    split_ifs at h
    · cases h
    · rcases List.mem_cons.mp h with rfl | h
      · exact ⟨possibleTypes, List.mem_cons_self, List.filter_sublist⟩
      · exact (conditionTypesOfAll_drawn h).mono fun _ => List.mem_cons_of_mem _
  | .booleanCondition _ _ (some (.mk _ selections)), h => by
    rw [Selection.conditionTypes] at h
    exact (conditionTypesOfAll_drawn h).mono fun _ => List.mem_cons_of_mem _

theorem conditionTypesOfAll_drawn {types narrowed : List Text} :
    ∀ {selections : List Selection}, narrowed ∈ conditionTypesOfAll types selections →
      Drawn (typeListsOfAll selections) narrowed
  | selection :: rest, h => by
    rw [conditionTypesOfAll] at h
    rw [typeListsOfAll]
    rcases List.mem_append.mp h with h | h
    · exact (Selection.conditionTypes_drawn h).mono fun _ => List.mem_append_left _
    · exact (conditionTypesOfAll_drawn h).mono fun _ => List.mem_append_right _

end

namespace TypeCase

/-- Registering a subset takes the parts from the old ones and from the subset. -/
theorem drawn_register {c : TypeCase} (hv : c.Valid) {lists : List (List Text)}
    (hc : ∀ part ∈ c.parts, Drawn lists part) {subset : List Text}
    (hs : c.isDefault subset = true ∨ Drawn lists subset) :
    ∀ part ∈ (c.register subset).parts, Drawn lists part := by
  intro part hp
  cases hd : c.isDefault subset with
  | true =>
    rw [register_of_isDefault hd] at hp
    exact hc part hp
  | false =>
    have hsub := hs.resolve_left (by simp [hd])
    obtain ⟨r, hr, rfl⟩ := List.mem_map.mp hp
    rcases mem_register hv hd hr with ⟨r', hr', hcut, -⟩ | ⟨he, -, -⟩
    · refine (hc _ (List.mem_map_of_mem hr')).sublist ?_
      unfold cutTypes at hcut
      simp only at hcut
      split_ifs at hcut
      · rw [List.mem_singleton.mp hcut]
      · rw [List.mem_singleton.mp hcut]
      · rcases List.mem_cons.mp hcut with he | he
        · rw [he]; exact List.filter_sublist
        · rw [List.mem_singleton.mp he]; exact List.filter_sublist
    · rw [he]
      exact hsub.sublist List.filter_sublist

end TypeCase

mutual

theorem Selection.walk_drawn {types : List Text} {conditional : Bool} {c c' : TypeCase}
    {lists : List (List Text)} (hv : c.Valid) (hs : ∀ t ∈ types, t ∈ c.default.possibleTypes)
    (hc : ∀ part ∈ c.parts, Drawn lists part) (ht : c.isDefault types = true ∨ Drawn lists types) :
    ∀ {s : Selection}, (∀ narrowed ∈ s.conditionTypes types, Drawn lists narrowed) →
      s.walk types conditional c = .ok c' → ∀ part ∈ c'.parts, Drawn lists part
  | .field head nested, _, h => by
    obtain rfl := Except.ok.inj h
    rw [parts_add]
    exact drawn_register hv hc ht
  | .typeCondition _ none, _, h => by cases h
  | .typeCondition _ (some (.mk possibleTypes selections)), hl, h => by
    rw [Selection.walk] at h
    rw [Selection.conditionTypes] at hl
    split_ifs at h hl with he
    · obtain rfl := Except.ok.inj h
      exact hc
    · have hsub : ∀ t ∈ intersect possibleTypes types, t ∈ c.default.possibleTypes :=
        fun t ht => hs t (mem_intersect.mp ht).2
      obtain ⟨hnarrowed, hrest⟩ := List.forall_mem_cons.mp hl
      have hreg := TypeCase.Extends.register hv hsub
      exact walkAll_drawn hreg.valid (by rw [hreg.types]; exact hsub)
        (drawn_register hv hc (Or.inr hnarrowed)) (Or.inr hnarrowed) hrest h
  | .booleanCondition _ _ none, _, h => by cases h
  | .booleanCondition _ _ (some (.mk _ selections)), hl, h => walkAll_drawn hv hs hc ht hl h
  | .spread _ _ _, _, h => by
    obtain rfl := Except.ok.inj h
    exact hc

/-- A walk takes the parts from lists from which the sets are that it comes across. -/
theorem walkAll_drawn {types : List Text} {conditional : Bool} {c c' : TypeCase}
    {lists : List (List Text)} (hv : c.Valid) (hs : ∀ t ∈ types, t ∈ c.default.possibleTypes)
    (hc : ∀ part ∈ c.parts, Drawn lists part) (ht : c.isDefault types = true ∨ Drawn lists types) :
    ∀ {selections : List Selection},
      (∀ narrowed ∈ conditionTypesOfAll types selections, Drawn lists narrowed) →
      walkAll types conditional c selections = .ok c' → ∀ part ∈ c'.parts, Drawn lists part
  | [], _, h => by
    obtain rfl := Except.ok.inj h
    exact hc
  | selection :: rest, hl, h => by
    rw [walkAll] at h
    rw [conditionTypesOfAll, List.forall_mem_append] at hl
    obtain ⟨c₁, h₁, h₂⟩ := Success.bind_eq_ok.mp h
    have e₁ := Selection.walk_extends hv hs h₁
    exact walkAll_drawn e₁.valid (by rw [e₁.types]; exact hs)
      (Selection.walk_drawn hv hs hc ht hl.1 h₁)
      (ht.imp_left fun hd => (isDefault_congr e₁.types types).trans hd) hl.2 h₂

end

theorem SelectionSet.typeCase_drawn {s : SelectionSet} {c : TypeCase} (h : s.typeCase = .ok c) :
    ∀ part ∈ c.parts, Drawn s.typeLists part := by
  obtain ⟨possibleTypes, selections⟩ := s
  have hd : (start possibleTypes).isDefault possibleTypes = true := covers_iff.mpr fun _ ht => ht
  refine walkAll_drawn (valid_start _) (fun _ ht => ht) (fun part hp => by cases hp) (Or.inl hd)
    (fun narrowed hn => ?_) h
  exact (conditionTypesOfAll_drawn hn).mono fun _ => List.mem_cons_of_mem _

/-! ### The records -/

/-- **The records are the coarsest partition that the conditions allow.** If the conditions that are
reached have selection sets, there is a type case. Its records are disjoint and nonempty, they have
the types of the narrowed sets between them, none has all possible types, and two of those types are
in one record exactly when every narrowed set has both or neither. If no list of possible types
repeats a type, no record does. -/
theorem typeCase_coarsest_partition (s : SelectionSet) (hs : s.isFilled = true) :
    ∃ c, s.typeCase = .ok c ∧
      c.parts.Pairwise Apart ∧ (∀ part ∈ c.parts, part ≠ []) ∧
      (∀ t, (∃ part ∈ c.parts, t ∈ part) ↔ ∃ types ∈ s.narrowings, t ∈ types) ∧
      (∀ part ∈ c.parts, covers part s.possibleTypes = false) ∧
      (∀ t u, (∃ types ∈ s.narrowings, t ∈ types) → (∃ types ∈ s.narrowings, u ∈ types) →
        ((∃ part ∈ c.parts, t ∈ part ∧ u ∈ part) ↔
          ∀ types ∈ s.narrowings, t ∈ types ↔ u ∈ types)) ∧
      ((∀ types ∈ s.typeLists, types.Nodup) → ∀ part ∈ c.parts, part.Nodup) := by
  obtain ⟨c, hc⟩ := exists_walkAll false (TypeCase.start s.possibleTypes) hs
  have hcase : s.typeCase = .ok c := hc
  have hext := SelectionSet.typeCase_extends hcase
  have hcoarse := SelectionSet.typeCase_coarsest hcase
  refine ⟨c, hcase, hext.valid.disjoint, hext.valid.nonempty, fun t => hcoarse.recorded_iff, ?_, ?_,
    ?_⟩
  · intro part hp
    exact (isDefault_congr hext.types part).symm.trans (hext.valid.narrow part hp)
  · intro t u ht _
    exact (hcoarse t u).trans (and_iff_right ht)
  · intro hn part hp
    exact (SelectionSet.typeCase_drawn hcase part hp).nodup hn

theorem typeCase_coarsest_partition_overlapping :
    overlapping.isFilled = true ∧
    overlapping.narrowings = ([["A", "B"], ["B", "C"]] : List (List Text)) ∧
    (∀ types ∈ overlapping.typeLists, types.Nodup) ∧
    ∃ c, overlapping.typeCase = .ok c ∧
      c.parts.Pairwise Apart ∧ (∀ part ∈ c.parts, part ≠ []) ∧
      (∀ t, (∃ part ∈ c.parts, t ∈ part) ↔ ∃ types ∈ overlapping.narrowings, t ∈ types) ∧
      (∀ part ∈ c.parts, covers part overlapping.possibleTypes = false) ∧
      (∀ t u, (∃ types ∈ overlapping.narrowings, t ∈ types) →
        (∃ types ∈ overlapping.narrowings, u ∈ types) →
        ((∃ part ∈ c.parts, t ∈ part ∧ u ∈ part) ↔
          ∀ types ∈ overlapping.narrowings, t ∈ types ↔ u ∈ types)) ∧
      ((∀ types ∈ overlapping.typeLists, types.Nodup) → ∀ part ∈ c.parts, part.Nodup) :=
  ⟨by decide, by decide, by decide, typeCase_coarsest_partition overlapping (by decide)⟩

end QueryCompiler.Typed
