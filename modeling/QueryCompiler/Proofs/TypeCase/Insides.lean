import QueryCompiler.Lowered.Selections
import QueryCompiler.Proofs.TypeCase.Conditions

/-!
# The fields of a type case

The fields of a type case come from the fields that its walk may meet: a field of the case is such a
field under conditions, or several of them merged.

* `Meets`: a field stands among selections where a walk may meet it; `Shows` says that some field with
  a certain selection set does.
* `Has`: all fields of a case are of some kind. Registering and adding keep this for every kind that is
  closed under merging, and `typeCaseOf_has` says it of the case of a set that is lowered.
* `Insides`: so the case has nothing inside its fields that no field of the set has
  (`typeCaseOf_insides`).
-/

namespace QueryCompiler

namespace Typed

/-! ### Fields that a walk may meet -/

/-- The selection set that a walk enters at a selection: that of a condition, and that of a spread if
spreads are entered. -/
def Selection.entered (spreads : Bool) : Selection → Option SelectionSet
  | .field _ _ => none
  | .typeCondition _ nested => nested
  | .booleanCondition _ _ nested => nested
  | .spread _ _ nested => if spreads then nested else none

/-- A field with the selection set stands among selections, outside the sets of other fields; inside a
spread only if spreads are entered. -/
inductive Shows (spreads : Bool) (inner : SelectionSet) : List Selection → Prop
  | here {head rest} : Shows spreads inner (.field head (some inner) :: rest)
  | entered {s set rest} : Selection.entered spreads s = some set →
      Shows spreads inner set.selections → Shows spreads inner (s :: rest)
  | later {s rest} : Shows spreads inner rest → Shows spreads inner (s :: rest)

/-- The field stands among selections, outside the sets of other fields; inside a spread only if
spreads are entered. -/
inductive Meets (spreads : Bool) (f : Field) : List Selection → Prop
  | here {rest} : Meets spreads f (.field f.head f.nested :: rest)
  | entered {s set rest} : Selection.entered spreads s = some set →
      Meets spreads f set.selections → Meets spreads f (s :: rest)
  | later {s rest} : Meets spreads f rest → Meets spreads f (s :: rest)

theorem shows_iff_meets {spreads : Bool} {inner : SelectionSet} {selections : List Selection} :
    Shows spreads inner selections ↔ ∃ head, Meets spreads ⟨head, some inner⟩ selections := by
  constructor
  · intro h
    induction h with
    | @here head rest => exact ⟨head, .here⟩
    | entered hs _ ih => exact ih.imp fun _ => .entered hs
    | later _ ih => exact ih.imp fun _ => .later
  · rintro ⟨head, h⟩
    induction h with
    | here => exact .here
    | entered hs _ ih => exact .entered hs ih
    | later _ ih => exact .later ih

section Meets
variable {spreads : Bool} {f : Field}

theorem not_meets_nil : ¬ Meets spreads f [] := by
  intro h
  cases h

theorem meets_cons {s : Selection} {rest : List Selection} :
    Meets spreads f (s :: rest) ↔ Meets spreads f [s] ∨ Meets spreads f rest := by
  constructor
  · intro h
    cases h with
    | here => exact Or.inl .here
    | entered hs h => exact Or.inl (.entered hs h)
    | later h => exact Or.inr h
  · rintro (h | h)
    · cases h with
      | here => exact .here
      | entered hs h => exact .entered hs h
      | later h => exact absurd h not_meets_nil
    · exact .later h

theorem meets_field {head : FieldHead} {nested : Option SelectionSet} :
    Meets spreads f [.field head nested] ↔ f = ⟨head, nested⟩ := by
  constructor
  · intro h
    cases h with
    | here => rfl
    | entered hs _ => cases hs
    | later h => exact absurd h not_meets_nil
  · rintro rfl
    exact .here

/-- What a walk meets in a selection that it enters. -/
theorem meets_entered {s : Selection} {set : SelectionSet} (hs : s.entered spreads = some set) :
    Meets spreads f [s] ↔ Meets spreads f set.selections := by
  constructor
  · intro h
    cases h with
    | here => cases hs
    | entered hs' h =>
      obtain rfl := Option.some.inj (hs.symm.trans hs')
      exact h
    | later h => exact absurd h not_meets_nil
  · exact .entered hs

/-- Nothing is met in a condition without a set. -/
theorem not_meets_bare {s : Selection} (hfield : ∀ head nested, s ≠ .field head nested)
    (hs : s.nested = none) : ¬ Meets spreads f [s] := by
  intro h
  cases h with
  | here => exact hfield _ _ rfl
  | entered hs' _ =>
    cases s with
    | field => cases hs'
    | typeCondition | booleanCondition =>
      cases hs.symm.trans hs'
    | spread =>
      cases spreads with
      | false => cases hs'
      | true => cases hs.symm.trans hs'
  | later h => exact not_meets_nil h

mutual

theorem Selection.meets_inlined : ∀ {s : Selection}, Meets false f [s.inlined] → Meets true f [s]
  | .field _ _, h => meets_field.mpr (meets_field.mp h)
  | .typeCondition _ none, h | .booleanCondition _ _ none, h | .spread _ _ none, h =>
    absurd h (not_meets_bare (fun _ _ he => by cases he) rfl)
  | .typeCondition _ (some (.mk types selections)), h
  | .booleanCondition _ _ (some (.mk types selections)), h
  | .spread _ _ (some (.mk types selections)), h => by
    have hinner : Meets false f (SelectionSet.mk types (inlinedAll selections)).selections :=
      (meets_entered rfl).mp h
    exact .entered rfl (meets_inlinedAll hinner)

/-- **Where spreads have become type conditions, a walk meets what it meets where it enters
spreads.** -/
theorem meets_inlinedAll : ∀ {selections : List Selection},
    Meets false f (inlinedAll selections) → Meets true f selections
  | [], h => absurd h not_meets_nil
  | s :: rest, h => by
    rw [inlinedAll, meets_cons] at h
    exact meets_cons.mpr (h.imp s.meets_inlined meets_inlinedAll)

end

end Meets

section Shows
variable {spreads : Bool} {inner : SelectionSet}

theorem not_shows_nil : ¬ Shows spreads inner [] := by
  intro h
  cases h

theorem shows_cons {s : Selection} {rest : List Selection} :
    Shows spreads inner (s :: rest) ↔ Shows spreads inner [s] ∨ Shows spreads inner rest := by
  simp only [shows_iff_meets, ← exists_or, ← meets_cons]

theorem shows_append {first second : List Selection} :
    Shows spreads inner (first ++ second) ↔
      Shows spreads inner first ∨ Shows spreads inner second := by
  induction first with
  | nil => exact ⟨Or.inr, fun h => h.resolve_left not_shows_nil⟩
  | cons s rest ih => rw [List.cons_append, shows_cons, ih, ← or_assoc, ← shows_cons]

theorem shows_field {head : FieldHead} {nested : Option SelectionSet} :
    Shows spreads inner [.field head nested] ↔ nested = some inner := by
  rw [shows_iff_meets]
  constructor
  · rintro ⟨head', h⟩
    exact (Field.mk.inj (meets_field.mp h)).2.symm
  · rintro rfl
    exact ⟨head, .here⟩

/-- What a walk meets in a selection that it enters. -/
theorem shows_entered {s : Selection} {set : SelectionSet} (hs : s.entered spreads = some set) :
    Shows spreads inner [s] ↔ Shows spreads inner set.selections := by
  simp only [shows_iff_meets, meets_entered hs]

end Shows

/-! ### The fields of a case -/

/-- All fields of the case are of a kind. -/
structure TypeCase.Has (kind : Field → Prop) (c : TypeCase) : Prop where
  default : ∀ f ∈ c.default.fields, kind f
  records : ∀ r ∈ c.records, ∀ f ∈ r.fields, kind f

section Has
variable {kind : Field → Prop}

theorem TypeCase.has_start (types : List Text) : (TypeCase.start types).Has kind :=
  ⟨fun _ hf => absurd hf List.not_mem_nil, fun _ hr => absurd hr List.not_mem_nil⟩

/-- The fields of a record are those of a record before it was split. -/
theorem TypeCase.exists_of_mem_split {records : List TypeRecord} {subset : List Text}
    {r : TypeRecord} (h : r ∈ (split records subset).1) : ∃ r' ∈ records, r.fields = r'.fields := by
  fun_induction split records subset with
  | case1 => cases h
  | case2 record rest subset inside hempty records left hsplit ih =>
    rw [hsplit] at ih
    rcases List.mem_cons.mp h with rfl | h
    · exact ⟨_, List.mem_cons_self, rfl⟩
    · obtain ⟨r', hr', he⟩ := ih h
      exact ⟨r', List.mem_cons_of_mem _ hr', he⟩
  | case3 record rest subset inside hempty records left hsplit hlength ih =>
    rw [hsplit] at ih
    rcases List.mem_cons.mp h with rfl | h
    · exact ⟨_, List.mem_cons_self, rfl⟩
    · obtain ⟨r', hr', he⟩ := ih h
      exact ⟨r', List.mem_cons_of_mem _ hr', he⟩
  | case4 record rest subset inside hempty records left hsplit hlength ih =>
    rw [hsplit] at ih
    rcases List.mem_cons.mp h with rfl | h
    · exact ⟨record, List.mem_cons_self, rfl⟩
    rcases List.mem_cons.mp h with rfl | h
    · exact ⟨record, List.mem_cons_self, rfl⟩
    · obtain ⟨r', hr', he⟩ := ih h
      exact ⟨r', List.mem_cons_of_mem _ hr', he⟩

/-- **A registered subset brings no fields of its own**: the fields of a record are those of an old
record, or those of the default one if the record is new. -/
theorem TypeCase.fields_register {c : TypeCase} {subset : List Text} {r : TypeRecord}
    (h : r ∈ (c.register subset).records) :
    (∃ r' ∈ c.records, r.fields = r'.fields) ∨ r.fields = c.default.fields := by
  unfold TypeCase.register at h
  split_ifs at h
  · exact Or.inl ⟨r, h, rfl⟩
  simp only at h
  split_ifs at h
  · exact Or.inl (exists_of_mem_split h)
  · rcases List.mem_append.mp h with h | h
    · exact Or.inl (exists_of_mem_split h)
    · obtain rfl := List.mem_singleton.mp h
      exact Or.inr rfl

/-- **Where a field is added**: to the default record and all others, or to some of the records after
its types are registered. -/
theorem TypeCase.fields_add (c : TypeCase) (types : List Text) (field : Field) :
    ((c.add types field).default.fields = addField c.default.fields field ∧
      ∀ r ∈ (c.add types field).records, ∃ r' ∈ c.records, r.fields = addField r'.fields field) ∨
    ((c.add types field).default.fields = c.default.fields ∧
      ∀ r ∈ (c.add types field).records, ∃ r' ∈ (c.register types).records,
        r.fields = r'.fields ∨ r.fields = addField r'.fields field) := by
  unfold TypeCase.add
  split_ifs
  · refine Or.inl ⟨rfl, fun r hr => ?_⟩
    obtain ⟨r', hr', rfl⟩ := List.mem_map.mp hr
    exact ⟨r', hr', rfl⟩
  · refine Or.inr ⟨by rw [default_register], fun r hr => ?_⟩
    obtain ⟨r', hr', rfl⟩ := List.mem_map.mp hr
    refine ⟨r', hr', ?_⟩
    split_ifs
    · exact Or.inr rfl
    · exact Or.inl rfl

theorem TypeCase.Has.register {c : TypeCase} (h : c.Has kind) (subset : List Text) :
    (c.register subset).Has kind := by
  refine ⟨by rw [default_register]; exact h.default, fun r hr => ?_⟩
  rcases fields_register hr with ⟨r', hr', he⟩ | he
  · rw [he]
    exact h.records r' hr'
  · rw [he]
    exact h.default

/-- Two fields of the kind make one of the kind when they are merged. -/
def ClosedUnderMerge (kind : Field → Prop) : Prop := ∀ f g, kind f → kind g → kind (f.merge g)

theorem has_addField (hmerge : ClosedUnderMerge kind) {fields : List Field} {g : Field}
    (h : ∀ f ∈ fields, kind f) (hg : kind g) : ∀ f ∈ addField fields g, kind f := by
  induction fields with
  | nil => exact fun f hf => List.mem_singleton.mp hf ▸ hg
  | cons first rest ih =>
    rw [List.forall_mem_cons] at h
    rw [addField]
    split_ifs
    · exact List.forall_mem_cons.mpr ⟨hmerge _ _ h.1 hg, h.2⟩
    · exact List.forall_mem_cons.mpr ⟨h.1, ih h.2⟩

theorem TypeCase.Has.add (hmerge : ClosedUnderMerge kind) {c : TypeCase} (h : c.Has kind)
    (types : List Text) {g : Field} (hg : kind g) : (c.add types g).Has kind := by
  rcases fields_add c types g with ⟨hdefault, hrecords⟩ | ⟨hdefault, hrecords⟩
  · refine ⟨by rw [hdefault]; exact has_addField hmerge h.default hg, fun r hr => ?_⟩
    obtain ⟨r', hr', he⟩ := hrecords r hr
    rw [he]
    exact has_addField hmerge (h.records r' hr') hg
  · refine ⟨by rw [hdefault]; exact h.default, fun r hr => ?_⟩
    obtain ⟨r', hr', he⟩ := hrecords r hr
    have hold := (h.register types).records r' hr'
    rcases he with he | he
    · rw [he]
      exact hold
    · rw [he]
      exact has_addField hmerge hold hg

/-- The field is of the kind under a condition and without one. -/
def Field.IsUnder (kind : Field → Prop) (f : Field) : Prop :=
  ∀ conditional, kind ⟨f.head.under conditional, f.nested⟩

mutual

theorem Selection.walk_has (hmerge : ClosedUnderMerge kind) {types : List Text} {conditional : Bool}
    {c c' : TypeCase} (hc : c.Has kind) : ∀ {s : Selection},
      (∀ f, Meets false f [s] → f.IsUnder kind) → s.walk types conditional c = .ok c' → c'.Has kind
  | .field head nested, hs, h => by
    obtain rfl := Except.ok.inj h
    exact hc.add hmerge types (hs ⟨head, nested⟩ .here conditional)
  | .typeCondition _ none, _, h => by cases h
  | .typeCondition _ (some (.mk possibleTypes selections)), hs, h => by
    rw [Selection.walk] at h
    split_ifs at h
    · obtain rfl := Except.ok.inj h
      exact hc
    · exact walkAll_has hmerge (hc.register _) (fun f hf => hs f (.entered rfl hf)) h
  | .booleanCondition _ _ none, _, h => by cases h
  | .booleanCondition _ _ (some (.mk _ selections)), hs, h =>
    walkAll_has hmerge hc (fun f hf => hs f (.entered rfl hf)) h
  | .spread _ _ _, _, h => by
    obtain rfl := Except.ok.inj h
    exact hc

/-- **A walk keeps the fields of a case of one kind**, if the fields that it may meet are. -/
theorem walkAll_has (hmerge : ClosedUnderMerge kind) {types : List Text} {conditional : Bool}
    {c c' : TypeCase} (hc : c.Has kind) : ∀ {selections : List Selection},
      (∀ f, Meets false f selections → f.IsUnder kind) →
      walkAll types conditional c selections = .ok c' → c'.Has kind
  | [], _, h => by
    obtain rfl := Except.ok.inj h
    exact hc
  | s :: rest, hs, h => by
    rw [walkAll] at h
    obtain ⟨c₁, h₁, h₂⟩ := Success.bind_eq_ok.mp h
    exact walkAll_has hmerge
      (Selection.walk_has hmerge hc (fun f hf => hs f (meets_cons.mpr (Or.inl hf))) h₁)
      (fun f hf => hs f (.later hf)) h₂

end

end Has

/-! ### What is inside the fields of a case -/

/-- The selections inside the field are of a kind, if there are any. -/
def Field.Inside (kind : List Selection → Prop) (f : Field) : Prop :=
  ∀ set, f.nested = some set → kind set.selections

/-- The selections inside all fields of the case are of a kind. -/
abbrev TypeCase.Insides (kind : List Selection → Prop) (c : TypeCase) : Prop :=
  c.Has (Field.Inside kind)

theorem closedUnderMerge_inside {kind : List Selection → Prop}
    (happend : ∀ first second, kind first → kind second → kind (first ++ second)) :
    ClosedUnderMerge (Field.Inside kind) := by
  rintro ⟨_, nested⟩ ⟨_, nested'⟩ hf hg set hs
  cases nested with
  | none =>
    cases nested' with
    | none => cases hs
    | some second => exact hg set hs
  | some first =>
    cases nested' with
    | none => exact hf set hs
    | some second =>
      obtain rfl := Option.some.inj hs
      exact happend _ _ (hf first rfl) (hg second rfl)

end Typed

namespace Lowered

open Typed

/-- **The fields of the case of a set that is lowered are of a kind if those of the set are**, where the
fields of spreads count if spreads are merged in. -/
theorem typeCaseOf_has {kind : Typed.Field → Prop} (hmerge : ClosedUnderMerge kind) {spreads : Bool}
    {limit : Nat} {s : SelectionSet} {c : TypeCase}
    (hs : ∀ f, Meets spreads f s.selections → f.IsUnder kind)
    (h : typeCaseOf ⟨{}, spreads, limit⟩ s = .ok c) : c.Has kind := by
  cases spreads with
  | false => exact walkAll_has hmerge (TypeCase.has_start _) hs h
  | true =>
    obtain ⟨types, selections⟩ := s
    exact walkAll_has hmerge (TypeCase.has_start _) (fun f hf => hs f (meets_inlinedAll hf)) h

/-- **The case of a set that is lowered has nothing inside its fields that no field of the set has**,
where the fields of spreads count if spreads are merged in. -/
theorem typeCaseOf_insides {kind : List Selection → Prop}
    (happend : ∀ first second, kind first → kind second → kind (first ++ second)) {spreads : Bool}
    {limit : Nat} {s : SelectionSet} {c : TypeCase}
    (hs : ∀ inner, Shows spreads inner s.selections → kind inner.selections)
    (h : typeCaseOf ⟨{}, spreads, limit⟩ s = .ok c) : c.Insides kind := by
  refine typeCaseOf_has (closedUnderMerge_inside happend) (fun f hf _ set hset => ?_) h
  obtain ⟨head, nested⟩ := f
  obtain rfl : nested = some set := hset
  exact hs set (shows_iff_meets.mpr ⟨head, hf⟩)

end Lowered

end QueryCompiler
