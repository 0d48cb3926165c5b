import QueryCompiler.Proofs.TypeCase.Conditions
import QueryCompiler.Lowered.Selections

/-!
# What is read from a body

A code generator reads the body of a selection set for one concrete type at a time: it takes the
inline fragment of the type if there is one, and the body itself if there is none. What it reads is
exact.

* `ReadsFields`, `ReadsSpreads`: the fields and the spreads that are read for a type.
* `spreadsFor`: the spreads that an object of a type meets, each time that it meets them.
* `Faithful`: for every type the body gives the fields that the type meets, lowered, and the spreads
  that the type meets, and so do the bodies inside, level by level.
* `body_faithful`: every body that is made is faithful.
-/

namespace QueryCompiler

namespace Typed

/-! ### The spreads of a type -/

mutual

/-- The fragments that are spread in a selection on objects of a type. -/
def Selection.spreadsFor (t : Text) : Selection → List Text
  | .field _ _ => []
  | .spread fragmentName _ _ => [fragmentName]
  | .typeCondition _ none => []
  | .typeCondition _ (some (.mk types selections)) =>
    if t ∈ types then spreadsForAll t selections else []
  | .booleanCondition _ _ none => []
  | .booleanCondition _ _ (some (.mk _ selections)) => spreadsForAll t selections

/-- The fragments that are spread in selections on objects of a type. -/
def spreadsForAll (t : Text) : List Selection → List Text
  | [] => []
  | selection :: rest => selection.spreadsFor t ++ spreadsForAll t rest

end

/-- The fragments that a selection set spreads, outside the sets of fields, on objects of a type, in
order and with repeats. -/
def SelectionSet.spreadsFor (s : SelectionSet) (t : Text) : List Text := spreadsForAll t s.selections

mutual

theorem Selection.visibleSpreads_eq {t : Text} {group types found : List Text} (hg : t ∈ group)
    (ht : t ∈ types) : ∀ {s : Selection},
      (∀ narrowed ∈ s.conditionTypes types, t ∈ narrowed → ∀ u ∈ group, u ∈ narrowed) →
      s.visibleSpreads group = .ok found → found = s.spreadsFor t
  | .field _ _, _, h => (Except.ok.inj h).symm
  | .spread _ _ _, _, h => (Except.ok.inj h).symm
  | .typeCondition _ none, _, h => by cases h
  | .typeCondition _ (some (.mk possibleTypes selections)), hc, h => by
    rw [Selection.visibleSpreads] at h
    rw [Selection.spreadsFor]
    by_cases hp : t ∈ possibleTypes
    · have hn : t ∈ intersect possibleTypes types := mem_intersect.mpr ⟨hp, ht⟩
      have hne : ¬ (intersect possibleTypes types).isEmpty = true := by
        intro he
        rw [List.isEmpty_iff] at he
        rw [he] at hn; cases hn
      rw [Selection.conditionTypes, if_neg hne] at hc
      have hall := hc _ List.mem_cons_self hn
      rw [if_pos (covers_iff.mpr fun u hu => (mem_intersect.mp (hall u hu)).1)] at h
      rw [if_pos hp]
      exact visibleSpreadsOfAll_eq hg hn
        (fun narrowed hm => hc narrowed (List.mem_cons_of_mem _ hm)) h
    · rw [if_neg fun hcov => hp (covers_iff.mp hcov t hg)] at h
      rw [if_neg hp]
      exact (Except.ok.inj h).symm
  | .booleanCondition _ _ none, _, h => by cases h
  | .booleanCondition _ _ (some (.mk _ selections)), hc, h => visibleSpreadsOfAll_eq hg ht hc h

/-- **The spreads that a group of types meets are those of each of its types**, if a condition that
has one of them has them all. -/
theorem visibleSpreadsOfAll_eq {t : Text} {group types found : List Text} (hg : t ∈ group)
    (ht : t ∈ types) : ∀ {selections : List Selection},
      (∀ narrowed ∈ conditionTypesOfAll types selections, t ∈ narrowed → ∀ u ∈ group, u ∈ narrowed) →
      visibleSpreadsOfAll group selections = .ok found → found = spreadsForAll t selections
  | [], _, h => (Except.ok.inj h).symm
  | s :: rest, hc, h => by
    rw [visibleSpreadsOfAll] at h
    obtain ⟨first, h₁, h⟩ := Success.bind_eq_ok.mp h
    obtain ⟨others, h₂, h⟩ := Success.bind_eq_ok.mp h
    obtain rfl := Except.ok.inj h
    rw [conditionTypesOfAll] at hc
    rw [spreadsForAll,
      s.visibleSpreads_eq hg ht (fun n hn => hc n (List.mem_append_left _ hn)) h₁,
      visibleSpreadsOfAll_eq hg ht (fun n hn => hc n (List.mem_append_right _ hn)) h₂]

end

theorem SelectionSet.visibleSpreads_eq {s : SelectionSet} {t : Text} {group found : List Text}
    (hg : t ∈ group) (ht : t ∈ s.possibleTypes)
    (hc : ∀ narrowed ∈ s.conditionTypes, t ∈ narrowed → ∀ u ∈ group, u ∈ narrowed)
    (h : s.visibleSpreads group = .ok found) : found = s.spreadsFor t :=
  visibleSpreadsOfAll_eq hg ht hc h

end Typed

namespace Lowered

open Typed

/-! ### Reading a body for a type -/

/-- The fields that are read for a type: those of its inline fragment, or else those of the body. -/
def Body.ReadsFields (b : Body) (t : Text) (fields : List Field) : Prop :=
  (∀ i ∈ b.inlineFragments, i.typeCondition = t → i.fields = fields) ∧
    ((∀ i ∈ b.inlineFragments, i.typeCondition ≠ t) → b.fields = fields)

/-- The spreads that are read for a type. -/
def Body.ReadsSpreads (b : Body) (t : Text) (spreads : List Text) : Prop :=
  (∀ i ∈ b.inlineFragments, i.typeCondition = t → i.spreads = spreads) ∧
    ((∀ i ∈ b.inlineFragments, i.typeCondition ≠ t) → b.spreads = spreads)

/-- The body of a selection set is exact: each possible type reads the fields that it meets, merged
by response key and lowered, with what is inside them as `inside` says; and it reads the spreads
that it meets, unless it lies in a record without fields. -/
structure Exact (settings : Settings) (levels : Nat) (inside : SelectionSet → Body → Prop)
    (s : SelectionSet) (b : Body) : Prop where
  fields : ∀ t ∈ s.possibleTypes, ∃ fields, b.ReadsFields t fields ∧
    (grouped (s.occurrences settings.mergeSpreads t)).mapM (fieldWithin settings levels) =
      .ok fields ∧
    List.Forall₂ (fun f g => ∀ nested, f.nested = some nested →
      ∃ inner, g.body = some inner ∧ inside nested inner)
      (grouped (s.occurrences settings.mergeSpreads t)) fields
  spreads : ∀ t ∈ s.possibleTypes,
    (∀ c, typeCaseOf settings s = .ok c → ∀ r ∈ c.records, t ∈ r.possibleTypes → r.fields ≠ []) →
      b.ReadsSpreads t (s.spreadsFor t)

/-- The body is exact, and so are the bodies inside its fields, down to the last level. -/
def Faithful (settings : Settings) : (levels : Nat) → SelectionSet → Body → Prop
  | 0 => Exact settings 0 fun _ _ => False
  | levels + 1 => Exact settings (levels + 1) (Faithful settings levels)

/-! ### The case of a set that is lowered -/

/-- What is known of the type case of a set that is lowered, with spreads entered or not. -/
structure CaseFor (spreads : Bool) (s : SelectionSet) (c : TypeCase) : Prop where
  valid : c.Valid
  types : c.default.possibleTypes = s.possibleTypes
  inherits : c.Inherits
  reads : ∀ t ∈ s.possibleTypes, c.Reads t (grouped (s.occurrences spreads t))
  settled : ∀ narrowed ∈ s.conditionTypes, c.Settled narrowed

theorem caseFor_typeCase {s : SelectionSet} {c : TypeCase} (h : s.typeCase = .ok c) :
    CaseFor false s c := by
  have he := SelectionSet.typeCase_extends h
  exact ⟨he.valid, he.types, he.inherits (TypeCase.inherits_start _),
    fun t ht => SelectionSet.typeCase_reads h ht, typeCase_settles h⟩

theorem caseFor_typeCaseOf {spreads : Bool} {limit : Nat} {s : SelectionSet} {c : TypeCase}
    (h : typeCaseOf ⟨{}, spreads, limit⟩ s = .ok c) : CaseFor spreads s c := by
  cases spreads with
  | false => exact caseFor_typeCase h
  | true =>
    obtain ⟨hv, ht, hi, hr, hs⟩ := caseFor_typeCase (s := s.inlined) h
    rw [s.possibleTypes_inlined] at ht hr
    refine ⟨hv, ht, hi, fun t htt => ?_, fun n hn => hs n (SelectionSet.conditionTypes_inlined hn)⟩
    rw [← s.occurrences_inlined]
    exact hr t htt

namespace CaseFor

variable {spreads : Bool} {s : SelectionSet} {c : TypeCase}

/-- A record adds no code only if it has no fields. -/
theorem addsNothing_iff (hc : CaseFor spreads s c) {r : TypeRecord} (hr : r ∈ c.records) :
    addsNothing s r = true ↔ r.fields = [] := by
  have hn := hc.valid.narrow _ (List.mem_map_of_mem hr)
  rw [TypeCase.isDefault, hc.types] at hn
  simp [addsNothing, hn]

/-- A narrowed condition that has a type of a record has all types of the record. -/
theorem group_of_record (hc : CaseFor spreads s c) {r : TypeRecord} (hr : r ∈ c.records) {t : Text}
    (ht : t ∈ r.possibleTypes) :
    ∀ narrowed ∈ s.conditionTypes, t ∈ narrowed → ∀ u ∈ r.possibleTypes, u ∈ narrowed := by
  intro narrowed hn htn u hu
  have hp : r.possibleTypes ∈ c.parts := List.mem_map_of_mem hr
  rcases hc.settled narrowed hn with hd | ⟨-, hside⟩
  · exact TypeCase.mem_of_isDefault hd (hc.valid.within _ hp u hu)
  · exact (hside _ hp).resolve_right (fun ha => ha t ht htn) u hu

/-- A narrowed condition that has a type of no record has all possible types. -/
theorem group_of_default (hc : CaseFor spreads s c) {t : Text}
    (ht : ∀ r ∈ c.records, t ∉ r.possibleTypes) :
    ∀ narrowed ∈ s.conditionTypes, t ∈ narrowed → ∀ u ∈ s.possibleTypes, u ∈ narrowed := by
  intro narrowed hn htn u hu
  rcases hc.settled narrowed hn with hd | ⟨hrec, -⟩
  · exact TypeCase.mem_of_isDefault hd (by rwa [hc.types])
  · obtain ⟨r, hr, htr⟩ := TypeCase.recorded_iff.mp (hrec t htn)
    exact absurd htr (ht r hr)

end CaseFor

/-! ### Bodies -/

/-- A lowered field says what the field says, and has a body only if that has a selection set. -/
theorem fieldWithin_ok {settings : Settings} {levels : Nat} {f : Typed.Field} {g : Field}
    (h : fieldWithin settings levels f = .ok g) :
    g.head = headOf f.head ∧ (f.nested = none → g.body = none) := by
  obtain ⟨head, _ | s⟩ := f
  · obtain rfl : Field.mk (headOf head) none = g := by
      cases levels <;> exact Except.ok.inj h
    exact ⟨rfl, fun _ => rfl⟩
  · cases levels with
    | zero => cases h
    | succ levels =>
      obtain ⟨c, -, h⟩ := Success.bind_eq_ok.mp h
      obtain ⟨b, -, h⟩ := Success.bind_eq_ok.mp h
      obtain rfl := Except.ok.inj h
      exact ⟨rfl, fun hn => by cases hn⟩

/-- What the parts of a body are made of. -/
theorem bodyOf_eq_ok {lowerField : Typed.Field → Except LoweringError Field} {s : SelectionSet}
    {c : TypeCase} {b : Body} (h : bodyOf lowerField s c = .ok b) :
    c.default.fields.mapM lowerField = .ok b.fields ∧ s.spreads = .ok b.spreads ∧
      ∃ groups, (c.records.filter fun r => !addsNothing s r).mapM (inlineFragments lowerField s) =
        .ok groups ∧ b.inlineFragments = groups.flatten := by
  unfold bodyOf at h
  obtain ⟨fields, hf, h⟩ := Success.bind_eq_ok.mp h
  obtain ⟨groups, hg, h⟩ := Success.bind_eq_ok.mp h
  obtain ⟨spreads, hs, h⟩ := Success.bind_eq_ok.mp h
  obtain rfl := Except.ok.inj h
  exact ⟨hf, hs, groups, hg, rfl⟩

/-- An inline fragment is for one type, and comes from a record that has it and adds code. -/
theorem exists_of_mem_inlineFragments {lowerField : Typed.Field → Except LoweringError Field}
    {s : SelectionSet} {c : TypeCase} {b : Body} (h : bodyOf lowerField s c = .ok b)
    {i : InlineFragment} (hi : i ∈ b.inlineFragments) :
    ∃ r ∈ c.records, addsNothing s r = false ∧ i.possibleTypes = [i.typeCondition] ∧
      i.typeCondition ∈ r.possibleTypes ∧ r.fields.mapM lowerField = .ok i.fields ∧
      s.visibleSpreads r.possibleTypes = .ok i.spreads := by
  obtain ⟨-, -, groups, hg, he⟩ := bodyOf_eq_ok h
  rw [he] at hi
  obtain ⟨group, hgroup, hi⟩ := List.mem_flatten.mp hi
  obtain ⟨r, hr, hl⟩ := Success.mem_of_mapM hg hgroup
  obtain ⟨fields, hf, hl⟩ := Success.bind_eq_ok.mp hl
  obtain ⟨found, hs, hl⟩ := Success.bind_eq_ok.mp hl
  obtain rfl := Except.ok.inj hl
  obtain ⟨type, ht, rfl⟩ := List.mem_map.mp hi
  obtain ⟨hr, hadds⟩ := List.mem_filter.mp hr
  exact ⟨r, hr, Bool.not_eq_true' _ |>.mp hadds, rfl, ht, hf, hs⟩

theorem mem_inlineFragments {lowerField : Typed.Field → Except LoweringError Field}
    {s : SelectionSet} {c : TypeCase} {b : Body} (h : bodyOf lowerField s c = .ok b)
    {i : InlineFragment} (hi : i ∈ b.inlineFragments) :
    ∃ r ∈ c.records, i.typeCondition ∈ r.possibleTypes ∧
      r.fields.mapM lowerField = .ok i.fields ∧ s.visibleSpreads r.possibleTypes = .ok i.spreads := by
  obtain ⟨r, hr, -, -, hmade⟩ := exists_of_mem_inlineFragments h hi
  exact ⟨r, hr, hmade⟩

/-- A record that has fields gives each of its types an inline fragment. -/
theorem exists_inlineFragment {lowerField : Typed.Field → Except LoweringError Field}
    {spreads : Bool} {s : SelectionSet} {c : TypeCase} {b : Body} (hc : CaseFor spreads s c)
    (h : bodyOf lowerField s c = .ok b) {r : TypeRecord} (hr : r ∈ c.records) (hf : r.fields ≠ [])
    {t : Text} (ht : t ∈ r.possibleTypes) : ∃ i ∈ b.inlineFragments, i.typeCondition = t := by
  obtain ⟨-, -, groups, hg, he⟩ := bodyOf_eq_ok h
  have hkept : r ∈ c.records.filter fun r => !addsNothing s r := by
    refine List.mem_filter.mpr ⟨hr, ?_⟩
    rw [Bool.not_eq_true', Bool.eq_false_iff]
    exact fun ha => hf ((hc.addsNothing_iff hr).mp ha)
  obtain ⟨group, hgroup, hl⟩ := Success.exists_mem_of_mapM hg hkept
  obtain ⟨fields, -, hl⟩ := Success.bind_eq_ok.mp hl
  obtain ⟨found, -, hl⟩ := Success.bind_eq_ok.mp hl
  obtain rfl := Except.ok.inj hl
  rw [he]
  exact ⟨_, List.mem_flatten.mpr ⟨_, hgroup, List.mem_map_of_mem ht⟩, rfl⟩

/-- A traversal succeeds on the fields that a type meets, and the body gives their images. -/
theorem bodyOf_readsFields {lowerField : Typed.Field → Except LoweringError Field}
    {spreads : Bool} {s : SelectionSet} {c : TypeCase} {b : Body} (hc : CaseFor spreads s c)
    (h : bodyOf lowerField s c = .ok b) {t : Text} (ht : t ∈ s.possibleTypes) :
    ∃ fields, b.ReadsFields t fields ∧
      (grouped (s.occurrences spreads t)).mapM lowerField = .ok fields := by
  obtain ⟨hrec, hdef⟩ := hc.reads t ht
  obtain ⟨hfields, -, -⟩ := bodyOf_eq_ok h
  -- an inline fragment for the type comes from the record that has it
  have hinline : ∀ i ∈ b.inlineFragments, i.typeCondition = t →
      (grouped (s.occurrences spreads t)).mapM lowerField = .ok i.fields := by
    rintro i hi rfl
    obtain ⟨r, hr, htr, hm, -⟩ := mem_inlineFragments h hi
    rwa [hrec r hr htr] at hm
  by_cases hex : ∃ i ∈ b.inlineFragments, i.typeCondition = t
  · obtain ⟨i, hi, hit⟩ := hex
    refine ⟨i.fields, ⟨fun j hj hjt => ?_, fun hn => absurd hit (hn i hi)⟩, hinline i hi hit⟩
    exact Except.ok.inj ((hinline j hj hjt).symm.trans (hinline i hi hit))
  · have hnone : ∀ i ∈ b.inlineFragments, i.typeCondition ≠ t := fun i hi hit => hex ⟨i, hi, hit⟩
    refine ⟨b.fields, ⟨fun i hi hit => absurd hit (hnone i hi), fun _ => rfl⟩, ?_⟩
    -- a record without fields leaves the default record without fields
    have hsame : c.default.fields = grouped (s.occurrences spreads t) := by
      by_cases hr : ∃ r ∈ c.records, t ∈ r.possibleTypes
      · obtain ⟨r, hr, htr⟩ := hr
        have hempty : r.fields = [] := by
          by_contra hf
          exact hex (exists_inlineFragment hc h hr hf htr)
        rw [← hrec r hr htr, hempty, hc.inherits r hr hempty]
      · exact hdef fun r hr' htr => hr ⟨r, hr', htr⟩
    rwa [← hsame]

theorem bodyOf_readsSpreads {lowerField : Typed.Field → Except LoweringError Field}
    {spreads : Bool} {s : SelectionSet} {c : TypeCase} {b : Body} (hc : CaseFor spreads s c)
    (h : bodyOf lowerField s c = .ok b) {t : Text} (ht : t ∈ s.possibleTypes)
    (hf : ∀ r ∈ c.records, t ∈ r.possibleTypes → r.fields ≠ []) :
    b.ReadsSpreads t (s.spreadsFor t) := by
  obtain ⟨-, hspreads, -⟩ := bodyOf_eq_ok h
  constructor
  · rintro i hi rfl
    obtain ⟨r, hr, htr, -, hv⟩ := mem_inlineFragments h hi
    exact SelectionSet.visibleSpreads_eq htr ht (hc.group_of_record hr htr) hv
  · intro hnone
    refine SelectionSet.visibleSpreads_eq ht ht (hc.group_of_default fun r hr htr => ?_) hspreads
    obtain ⟨i, hi, hit⟩ := exists_inlineFragment hc h hr (hf r hr htr) htr
    exact hnone i hi hit

/-- A body is exact if what is made inside its fields is as `inside` says. -/
theorem exact_bodyOf {spreads : Bool} {limit levels : Nat} {inside : SelectionSet → Body → Prop}
    {s : SelectionSet} {c : TypeCase} {b : Body}
    (hc : typeCaseOf ⟨{}, spreads, limit⟩ s = .ok c)
    (h : bodyOf (fieldWithin ⟨{}, spreads, limit⟩ levels) s c = .ok b)
    (hin : ∀ f g, fieldWithin ⟨{}, spreads, limit⟩ levels f = .ok g → ∀ nested,
      f.nested = some nested → ∃ inner, g.body = some inner ∧ inside nested inner) :
    Exact ⟨{}, spreads, limit⟩ levels inside s b := by
  have hcase := caseFor_typeCaseOf hc
  refine ⟨fun t ht => ?_, fun t ht hf => bodyOf_readsSpreads hcase h ht (hf c hc)⟩
  obtain ⟨fields, hr, hm⟩ := bodyOf_readsFields hcase h ht
  exact ⟨fields, hr, hm, (Success.mapM_eq_ok.mp hm).imp hin⟩

theorem faithful_bodyOf {spreads : Bool} {limit : Nat} : ∀ {levels : Nat} {s : SelectionSet}
    {c : TypeCase} {b : Body}, typeCaseOf ⟨{}, spreads, limit⟩ s = .ok c →
      bodyOf (fieldWithin ⟨{}, spreads, limit⟩ levels) s c = .ok b →
        Faithful ⟨{}, spreads, limit⟩ levels s b
  | 0, s, c, b, hc, h => by
    refine exact_bodyOf hc h fun f g hg nested hn => ?_
    obtain ⟨head, _⟩ := f
    subst hn
    cases hg
  | levels + 1, s, c, b, hc, h => by
    refine exact_bodyOf hc h fun f g hg nested hn => ?_
    obtain ⟨head, _⟩ := f
    subst hn
    obtain ⟨c', hc', hg⟩ := Success.bind_eq_ok.mp hg
    obtain ⟨inner, hb, hg⟩ := Success.bind_eq_ok.mp hg
    obtain rfl := Except.ok.inj hg
    exact ⟨inner, rfl, faithful_bodyOf hc' hb⟩

/-- **What is read for a concrete type is exact.** Whether or not the fields of spreads are merged
in, a body that is made gives each possible type the fields that it meets, grouped by response key
and lowered in order, and the spreads that it meets; and so do the bodies inside its fields. -/
theorem body_faithful {spreads : Bool} {limit : Nat} {s : SelectionSet} {b : Body}
    (h : body ⟨{}, spreads, limit⟩ s = .ok b) : Faithful ⟨{}, spreads, limit⟩ (limit - 1) s b := by
  obtain ⟨c, hc, hb⟩ := Success.bind_eq_ok.mp h
  exact faithful_bodyOf hc hb

/-- A set on three types: a field with a spread inside, a condition on two of the types, and a spread
on two of them that adds a field to one of the condition's types and repeats the first field. -/
def spreading : SelectionSet :=
  let head (key : Text) : Typed.FieldHead :=
    { responseKey := key, name := key, type := .named "T" }
  let inner : SelectionSet := .mk ["D"] [.spread "G" "D" (some (.mk ["D"] [.field (head "u") none]))]
  .mk ["A", "B", "C"] [
    .field (head "x") (some inner),
    .typeCondition "AB" (some (.mk ["A", "B"] [.field (head "y") none, .spread "H" "A" (some (.mk ["A"] []))])),
    .booleanCondition "v" false (some (.mk ["A", "B", "C"]
      [.spread "F" "BC" (some (.mk ["B", "C"]
        [.field (head "x") (some (.mk ["D"] [.field (head "w") none])), .field (head "z") none]))]))]

theorem body_faithful_spreading : ∃ b, body ⟨{}, true, 3⟩ spreading = .ok b ∧
    b.inlineFragments.map InlineFragment.typeCondition = ["A", "B", "C"] ∧
    spreading.spreadsFor "B" = ["H", "F"] ∧ Faithful ⟨{}, true, 3⟩ (3 - 1) spreading b :=
  ⟨_, rfl, by decide, by decide, body_faithful rfl⟩

end Lowered

end QueryCompiler
