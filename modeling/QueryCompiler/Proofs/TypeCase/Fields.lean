import QueryCompiler.Proofs.Success
import QueryCompiler.Proofs.TypeCase.Records

/-!
# The fields of a type

A type case gives each concrete type the fields that a walk for this type alone would meet: the walk
enters a type condition if its set has the type, and it enters every condition on a variable.

* `occurrences`: the fields that the walk for a type meets, in order, with repeats.
* `Extends`: what the case has gained after a part of the walk. It composes (`Extends.trans`), and
  `walk_extends` proves it of every selection, by recursion on the selections.
* `typeCase_fields`: so each type reads its own occurrences, grouped by response key.
-/

namespace QueryCompiler.Typed

/-! ### The walk for one type -/

mutual

/-- The fields that an object of a type meets in a selection, under a condition or not. Spreads are
entered only if `spreads` says so, and then like type conditions. -/
def Selection.occurrences (spreads : Bool) (t : Text) (conditional : Bool) :
    Selection → List Field
  | .field head nested => [⟨head.under conditional, nested⟩]
  | .typeCondition _ none => []
  | .typeCondition _ (some (.mk types selections)) =>
    if t ∈ types then occurrencesOfAll spreads t conditional selections else []
  | .booleanCondition _ _ none => []
  | .booleanCondition _ _ (some (.mk _ selections)) => occurrencesOfAll spreads t true selections
  | .spread _ _ none => []
  | .spread _ _ (some (.mk types selections)) =>
    if spreads ∧ t ∈ types then occurrencesOfAll spreads t conditional selections else []

/-- The fields that an object of a type meets in selections one after the other. -/
def occurrencesOfAll (spreads : Bool) (t : Text) (conditional : Bool) :
    List Selection → List Field
  | [] => []
  | selection :: rest =>
    selection.occurrences spreads t conditional ++ occurrencesOfAll spreads t conditional rest

end

/-- The fields that an object of a type meets in a selection set, outside the sets of fields. -/
def SelectionSet.occurrences (s : SelectionSet) (spreads : Bool) (t : Text) : List Field :=
  occurrencesOfAll spreads t false s.selections

/-! ### Conditions that are reached -/

mutual

/-- Every condition that a walk for some types reaches in a selection has a selection set. -/
def Selection.isFilled (types : List Text) : Selection → Bool
  | .field _ _ => true
  | .typeCondition _ none => false
  | .typeCondition _ (some (.mk possibleTypes selections)) =>
    (intersect possibleTypes types).isEmpty || allFilled (intersect possibleTypes types) selections
  | .booleanCondition _ _ none => false
  | .booleanCondition _ _ (some (.mk _ selections)) => allFilled types selections
  | .spread _ _ _ => true

/-- Every condition that a walk for some types reaches in selections has a selection set. -/
def allFilled (types : List Text) : List Selection → Bool
  | [] => true
  | selection :: rest => selection.isFilled types && allFilled types rest

end

/-- Every condition that the walk for the type case reaches has a selection set. -/
def SelectionSet.isFilled (s : SelectionSet) : Bool := allFilled s.possibleTypes s.selections

mutual

theorem Selection.exists_walk {types : List Text} (conditional : Bool) :
    ∀ {s : Selection} (c : TypeCase), s.isFilled types = true →
      ∃ c', s.walk types conditional c = .ok c'
  | .field head nested, c, _ => ⟨_, rfl⟩
  | .typeCondition _ (some (.mk possibleTypes selections)), c, h => by
    rw [Selection.isFilled, Bool.or_eq_true] at h
    rw [Selection.walk]
    split_ifs with he
    · exact ⟨c, rfl⟩
    · exact exists_walkAll conditional _ (h.resolve_left he)
  | .booleanCondition _ _ (some (.mk _ selections)), c, h => exists_walkAll true c h
  | .spread _ _ _, c, _ => ⟨c, rfl⟩

theorem exists_walkAll {types : List Text} (conditional : Bool) :
    ∀ {selections : List Selection} (c : TypeCase), allFilled types selections = true →
      ∃ c', walkAll types conditional c selections = .ok c'
  | [], c, _ => ⟨c, rfl⟩
  | selection :: rest, c, h => by
    rw [allFilled, Bool.and_eq_true] at h
    obtain ⟨c₁, h₁⟩ := Selection.exists_walk conditional c h.1
    obtain ⟨c₂, h₂⟩ := exists_walkAll conditional c₁ h.2
    exact ⟨c₂, by rw [walkAll, h₁]; exact h₂⟩

end

/-! ### What a walk adds to a case -/

/-- The case `c'` comes from `c` by a part of the walk in which each possible type meets the given
fields. -/
structure TypeCase.Extends (c c' : TypeCase) (fields : Text → List Field) : Prop where
  valid : c'.Valid
  types : c'.default.possibleTypes = c.default.possibleTypes
  settled : ∀ types, c.Settled types → c'.Settled types
  inherits : c.Inherits → c'.Inherits
  reads : ∀ t ∈ c.default.possibleTypes, ∀ before, c.Reads t before →
    c'.Reads t ((fields t).foldl addField before)

namespace TypeCase.Extends

variable {c c₁ c₂ : TypeCase} {f g : Text → List Field}

theorem refl (hv : c.Valid) : c.Extends c fun _ => [] :=
  ⟨hv, rfl, fun _ h => h, fun h => h, fun _ _ _ h => h⟩

theorem trans (h₁ : c.Extends c₁ f) (h₂ : c₁.Extends c₂ g) : c.Extends c₂ fun t => f t ++ g t := by
  refine ⟨h₂.valid, h₂.types.trans h₁.types, fun types h => h₂.settled types (h₁.settled types h),
    fun h => h₂.inherits (h₁.inherits h), ?_⟩
  intro t ht before hr
  rw [List.foldl_append]
  exact h₂.reads t (by rwa [h₁.types]) _ (h₁.reads t ht before hr)

theorem congr (h : c.Extends c₁ f) (hfg : ∀ t ∈ c.default.possibleTypes, f t = g t) :
    c.Extends c₁ g :=
  ⟨h.valid, h.types, h.settled, h.inherits, fun t ht before hr => by
    rw [← hfg t ht]; exact h.reads t ht before hr⟩

theorem register (hv : c.Valid) {subset : List Text} (hs : ∀ t ∈ subset, t ∈ c.default.possibleTypes) :
    c.Extends (c.register subset) fun _ => [] :=
  ⟨hv.register hs, by rw [default_register], fun _ h => h.register hv subset,
    fun h => h.register hv subset, fun _ _ _ h => h.register hv subset⟩

theorem add (hv : c.Valid) {types : List Text} (hs : ∀ t ∈ types, t ∈ c.default.possibleTypes)
    (field : Field) : c.Extends (c.add types field) fun t => if t ∈ types then [field] else [] := by
  refine ⟨hv.add hs field, by simp, fun _ h => h.add hv types field, fun h => h.add hv types field,
    fun t ht before hr => ?_⟩
  have := hr.add hv ht types field
  split_ifs at this ⊢ <;> exact this

end TypeCase.Extends

mutual

/-- **A selection adds to each of the types what the type meets in it.** -/
theorem Selection.walk_extends {types : List Text} {conditional : Bool} {c c' : TypeCase}
    (hv : c.Valid) (hs : ∀ t ∈ types, t ∈ c.default.possibleTypes) :
    ∀ {s : Selection}, s.walk types conditional c = .ok c' →
      c.Extends c' fun t => if t ∈ types then s.occurrences false t conditional else []
  | .field head nested, h => by
    obtain rfl := Except.ok.inj h
    exact .add hv hs _
  | .typeCondition _ none, h => by cases h
  | .typeCondition _ (some (.mk possibleTypes selections)), h => by
    rw [Selection.walk] at h
    split_ifs at h with he
    · obtain rfl := Except.ok.inj h
      refine (TypeCase.Extends.refl hv).congr fun t _ => ?_
      have := TypeCase.isEmpty_intersect.mp he
      rw [Selection.occurrences]
      split_ifs with ht hp
      · exact absurd ht (this t hp)
      · rfl
      · rfl
    · have hsub : ∀ t ∈ intersect possibleTypes types, t ∈ c.default.possibleTypes :=
        fun t ht => hs t (mem_intersect.mp ht).2
      have h₁ := TypeCase.Extends.register hv hsub
      have h₂ := walkAll_extends h₁.valid (by rw [h₁.types]; exact hsub) h
      refine (h₁.trans h₂).congr fun t _ => ?_
      rw [Selection.occurrences, List.nil_append]
      simp only [mem_intersect]
      split_ifs <;> simp_all
  | .booleanCondition _ _ none, h => by cases h
  | .booleanCondition _ _ (some (.mk _ selections)), h => walkAll_extends hv hs h
  | .spread _ _ nested, h => by
    obtain rfl := Except.ok.inj h
    refine (TypeCase.Extends.refl hv).congr fun t _ => ?_
    obtain _ | ⟨types', selections⟩ := nested <;> simp [Selection.occurrences]

/-- **Selections add to each of the types what the type meets in them.** -/
theorem walkAll_extends {types : List Text} {conditional : Bool} {c c' : TypeCase}
    (hv : c.Valid) (hs : ∀ t ∈ types, t ∈ c.default.possibleTypes) :
    ∀ {selections : List Selection}, walkAll types conditional c selections = .ok c' →
      c.Extends c' fun t =>
        if t ∈ types then occurrencesOfAll false t conditional selections else []
  | [], h => by
    obtain rfl := Except.ok.inj h
    exact (TypeCase.Extends.refl hv).congr fun t _ => by simp [occurrencesOfAll]
  | selection :: rest, h => by
    rw [walkAll] at h
    obtain ⟨c₁, h₁, h₂⟩ := Success.bind_eq_ok.mp h
    have e₁ := Selection.walk_extends hv hs h₁
    have e₂ := walkAll_extends e₁.valid (by rw [e₁.types]; exact hs) h₂
    refine (e₁.trans e₂).congr fun t _ => ?_
    rw [occurrencesOfAll]
    split_ifs <;> rfl

end

/-! ### The case of a selection set -/

/-- The case of a selection set comes from the empty one by the whole walk. -/
theorem SelectionSet.typeCase_extends {s : SelectionSet} {c : TypeCase} (h : s.typeCase = .ok c) :
    (TypeCase.start s.possibleTypes).Extends c fun t =>
      if t ∈ s.possibleTypes then s.occurrences false t else [] :=
  walkAll_extends (TypeCase.valid_start _) (fun _ ht => ht) h

/-- Each possible type reads what it meets. -/
theorem SelectionSet.typeCase_reads {s : SelectionSet} {c : TypeCase} (h : s.typeCase = .ok c)
    {t : Text} (ht : t ∈ s.possibleTypes) : c.Reads t (grouped (s.occurrences false t)) := by
  have := (typeCase_extends h).reads t ht [] (TypeCase.reads_start _ t)
  rwa [if_pos ht, foldl_addField] at this

/-- A set on three types with two conditions that overlap in one of them, the second under a
variable, and a default field after both. -/
def overlapping : SelectionSet :=
  let leaf (key : Text) : Selection :=
    .field { responseKey := key, name := key, type := .named "T" } none
  .mk ["A", "B", "C"] [leaf "x",
    .typeCondition "AB" (some (.mk ["A", "B"] [leaf "y"])),
    .booleanCondition "v" false (some (.mk ["A", "B", "C"]
      [.typeCondition "BC" (some (.mk ["B", "C"] [leaf "x", leaf "z"]))])),
    leaf "w"]

end QueryCompiler.Typed
