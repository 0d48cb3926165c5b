import QueryCompiler.Proofs.TypeCase.Merge
import Mathlib.Data.List.Pairwise

/-!
# The records of a type case

What the two operations on a type case do to its records, said once for all later proofs.

* `parts`: the types of the records. They are what registering changes, and `Valid` says what holds
  of them at any time: they are disjoint, not empty, and narrower than all possible types.
* `Settled`: a list of types that no record straddles. Registering settles its subset, and what is
  settled stays so.
* `Reads`: the fields that an object of a type gets from the case. Registering changes them for no
  type, and adding a field changes them for the types of the field only.

A record that a subset cuts is cut by itself: `split_eq` gives the records after a split without
the walk that passes the rest of the subset on.
-/

namespace QueryCompiler.Typed

/-! ### Lists of types -/

/-- Two lists have no type in common. -/
def Apart (types others : List Text) : Prop := ∀ t ∈ types, t ∉ others

/-- The list lies inside a set of types or outside it. -/
def OneSided (types subset : List Text) : Prop := (∀ t ∈ types, t ∈ subset) ∨ Apart types subset

theorem Apart.mono {types others types' : List Text} (h : Apart types others)
    (hs : ∀ t ∈ types', t ∈ types) : Apart types' others := fun t ht => h t (hs t ht)

theorem OneSided.mono {types subset types' : List Text} (h : OneSided types subset)
    (hs : ∀ t ∈ types', t ∈ types) : OneSided types' subset :=
  h.imp (fun h t ht => h t (hs t ht)) fun h => h.mono hs

namespace TypeCase

@[simp] theorem mem_without {types others : List Text} {t : Text} :
    t ∈ without types others ↔ t ∈ types ∧ t ∉ others := by
  simp [without]

/-- A list of types in its parts inside and outside a subset. -/
def cutTypes (subset types : List Text) : List (List Text) :=
  let inside := intersect types subset
  if inside.isEmpty then [types]
  else if inside.length = types.length then [types]
  else [inside, without types inside]

theorem intersect_eq_self_of_length {types subset : List Text}
    (h : (intersect types subset).length = types.length) : ∀ t ∈ types, t ∈ subset := by
  intro t ht
  have := List.length_filter_eq_length_iff.mp h t ht
  simpa using this

theorem length_intersect_of_subset {types subset : List Text} (h : ∀ t ∈ types, t ∈ subset) :
    (intersect types subset).length = types.length :=
  List.length_filter_eq_length_iff.mpr fun t ht => by simpa using h t ht

theorem isEmpty_intersect {types subset : List Text} :
    (intersect types subset).isEmpty = true ↔ Apart types subset := by
  rw [List.isEmpty_iff, intersect, List.filter_eq_nil_iff]
  simp [Apart]

/-- What a part of a cut is: inside the list, and on one side of the subset. -/
theorem cutTypes_spec {subset types part : List Text} (h : part ∈ cutTypes subset types) :
    (∀ t ∈ part, t ∈ types) ∧ OneSided part subset := by
  unfold cutTypes at h
  simp only at h
  split_ifs at h with h1 h2
  · obtain rfl := List.mem_singleton.mp h
    exact ⟨fun _ ht => ht, Or.inr (isEmpty_intersect.mp h1)⟩
  · obtain rfl := List.mem_singleton.mp h
    exact ⟨fun _ ht => ht, Or.inl (intersect_eq_self_of_length h2)⟩
  · rcases List.mem_cons.mp h with rfl | h
    · refine ⟨fun t ht => (mem_intersect.mp ht).1, Or.inl fun t ht => (mem_intersect.mp ht).2⟩
    · obtain rfl := List.mem_singleton.mp h
      refine ⟨fun t ht => (mem_without.mp ht).1, Or.inr fun t ht hs => ?_⟩
      obtain ⟨ht, hn⟩ := mem_without.mp ht
      exact hn (mem_intersect.mpr ⟨ht, hs⟩)

theorem mem_cutTypes (subset : List Text) {types : List Text} {t : Text} (h : t ∈ types) :
    ∃ part ∈ cutTypes subset types, t ∈ part := by
  unfold cutTypes
  simp only
  split_ifs
  · exact ⟨types, by simp, h⟩
  · exact ⟨types, by simp, h⟩
  · by_cases ht : t ∈ intersect types subset
    · exact ⟨_, List.mem_cons_self, ht⟩
    · exact ⟨_, by simp, mem_without.mpr ⟨h, ht⟩⟩

theorem ne_nil_of_mem_cutTypes {subset types part : List Text} (hne : types ≠ [])
    (h : part ∈ cutTypes subset types) : part ≠ [] := by
  unfold cutTypes at h
  simp only at h
  split_ifs at h with h1 h2
  · obtain rfl := List.mem_singleton.mp h; exact hne
  · obtain rfl := List.mem_singleton.mp h; exact hne
  · rcases List.mem_cons.mp h with rfl | h
    · simpa using h1
    · obtain rfl := List.mem_singleton.mp h
      intro he
      refine h2 (length_intersect_of_subset fun t ht => ?_)
      by_contra hs
      have : t ∈ without types (intersect types subset) :=
        mem_without.mpr ⟨ht, fun hi => hs (mem_intersect.mp hi).2⟩
      rw [he] at this; cases this

theorem pairwise_cutTypes (subset types : List Text) :
    (cutTypes subset types).Pairwise Apart := by
  unfold cutTypes
  simp only
  split_ifs
  · exact List.pairwise_singleton _ _
  · exact List.pairwise_singleton _ _
  · refine List.pairwise_pair.mpr fun t ht hw => ?_
    exact (mem_without.mp hw).2 ht

/-! ### Splitting records -/

/-- A record in its parts inside and outside a subset. -/
def cut (subset : List Text) (record : TypeRecord) : List TypeRecord :=
  (cutTypes subset record.possibleTypes).map fun types => ⟨types, record.fields⟩

/-- The types of a subset that no record has. -/
def unrecorded (records : List TypeRecord) (subset : List Text) : List Text :=
  subset.filter fun t => !records.any fun r => r.possibleTypes.contains t

theorem mem_unrecorded {records : List TypeRecord} {subset : List Text} {t : Text} :
    t ∈ unrecorded records subset ↔ t ∈ subset ∧ ∀ r ∈ records, t ∉ r.possibleTypes := by
  simp [unrecorded]

theorem cut_without {subset inside : List Text} {record : TypeRecord}
    (h : Apart record.possibleTypes inside) :
    cut (without subset inside) record = cut subset record := by
  have hi : intersect record.possibleTypes (without subset inside) =
      intersect record.possibleTypes subset := by
    refine List.filter_congr fun t ht => ?_
    rw [Bool.eq_iff_iff, List.contains_iff_mem, List.contains_iff_mem, mem_without]
    exact and_iff_left (h t ht)
  unfold cut cutTypes
  rw [hi]

theorem unrecorded_cons (record : TypeRecord) (rest : List TypeRecord) (subset : List Text) :
    unrecorded (record :: rest) subset =
      unrecorded rest (without subset (intersect record.possibleTypes subset)) := by
  unfold unrecorded without
  rw [List.filter_filter]
  refine List.filter_congr fun t ht => ?_
  have hc : (intersect record.possibleTypes subset).contains t = record.possibleTypes.contains t := by
    rw [Bool.eq_iff_iff, List.contains_iff_mem, List.contains_iff_mem, mem_intersect]
    exact and_iff_left ht
  rw [List.any_cons, Bool.not_or, hc, Bool.and_comm]

theorem without_eq_self {types others : List Text} (h : Apart types others) :
    without types others = types :=
  List.filter_eq_self.mpr fun t ht => by simpa using h t ht

/-- **Every record is cut by itself**, since no type is in two of them. -/
theorem split_eq {records : List TypeRecord} (subset : List Text)
    (hd : (records.map TypeRecord.possibleTypes).Pairwise Apart) :
    split records subset = (records.flatMap (cut subset), unrecorded records subset) := by
  induction records generalizing subset with
  | nil => simp [split, unrecorded]
  | cons record rest ih =>
    obtain ⟨hr, hd⟩ := List.pairwise_cons.mp hd
    have hcut : rest.flatMap (cut (without subset (intersect record.possibleTypes subset))) =
        rest.flatMap (cut subset) := by
      refine List.flatMap_congr fun r hr' => cut_without fun t ht hi => ?_
      exact hr r.possibleTypes (List.mem_map_of_mem hr') t (mem_intersect.mp hi).1 ht
    rw [split, List.flatMap_cons, unrecorded_cons]
    split_ifs with h1 h2
    · have hw : without subset (intersect record.possibleTypes subset) = subset := by
        rw [List.isEmpty_iff] at h1
        rw [h1]
        exact without_eq_self fun _ _ h => by cases h
      rw [ih subset hd, hw]
      simp [cut, cutTypes, h1]
    · rw [ih _ hd, hcut]
      simp [cut, cutTypes, h1, h2]
    · rw [ih _ hd, hcut]
      simp [cut, cutTypes, h1, h2]

/-! ### The parts of a case -/

/-- The types of each record. -/
def parts (c : TypeCase) : List (List Text) := c.records.map TypeRecord.possibleTypes

/-- A record has the type. -/
def Recorded (c : TypeCase) (t : Text) : Prop := ∃ part ∈ c.parts, t ∈ part

/-- What holds of the parts of a case at any time. -/
structure Valid (c : TypeCase) : Prop where
  disjoint : c.parts.Pairwise Apart
  nonempty : ∀ part ∈ c.parts, part ≠ []
  within : ∀ part ∈ c.parts, ∀ t ∈ part, t ∈ c.default.possibleTypes
  narrow : ∀ part ∈ c.parts, c.isDefault part = false

/-- No record straddles the types, and records have them all unless they are all possible types. -/
def Settled (c : TypeCase) (types : List Text) : Prop :=
  c.isDefault types = true ∨
    ((∀ t ∈ types, c.Recorded t) ∧ ∀ part ∈ c.parts, OneSided part types)

/-- Objects of the type get the fields: from the record that has the type, or from the default one
if none has. -/
def Reads (c : TypeCase) (t : Text) (fields : List Field) : Prop :=
  (∀ r ∈ c.records, t ∈ r.possibleTypes → r.fields = fields) ∧
    ((∀ r ∈ c.records, t ∉ r.possibleTypes) → c.default.fields = fields)

/-- A record has a field whenever the default one has. -/
def Inherits (c : TypeCase) : Prop := ∀ r ∈ c.records, r.fields = [] → c.default.fields = []

theorem recorded_iff {c : TypeCase} {t : Text} :
    c.Recorded t ↔ ∃ r ∈ c.records, t ∈ r.possibleTypes := by
  simp [Recorded, parts]

theorem isDefault_congr {c c' : TypeCase}
    (h : c'.default.possibleTypes = c.default.possibleTypes) (types : List Text) :
    c'.isDefault types = c.isDefault types := by
  unfold isDefault; rw [h]

theorem mem_of_isDefault {c : TypeCase} {types : List Text} (h : c.isDefault types = true) {t : Text}
    (ht : t ∈ c.default.possibleTypes) : t ∈ types :=
  covers_iff.mp h t ht

theorem isDefault_mono {c : TypeCase} {types types' : List Text} (h : c.isDefault types = false)
    (hs : ∀ t ∈ types', t ∈ types) : c.isDefault types' = false := by
  rw [Bool.eq_false_iff] at h ⊢
  exact fun h' => h (covers_iff.mpr fun t ht => hs t (mem_of_isDefault h' ht))

theorem valid_start (types : List Text) : (start types).Valid := by
  refine ⟨List.Pairwise.nil, ?_, ?_, ?_⟩ <;> intro part hp <;> cases hp

theorem reads_start (types : List Text) (t : Text) : (start types).Reads t [] :=
  ⟨fun r (hr : r ∈ []) => (by cases hr), fun _ => rfl⟩

theorem inherits_start (types : List Text) : (start types).Inherits := fun _ _ _ => rfl

/-! ### Registering a subset -/

@[simp] theorem default_register (c : TypeCase) (subset : List Text) :
    (c.register subset).default = c.default := by
  unfold register
  split_ifs <;> rfl

@[simp] theorem isDefault_register (c : TypeCase) (subset types : List Text) :
    (c.register subset).isDefault types = c.isDefault types :=
  isDefault_congr (by rw [default_register]) types

theorem register_of_isDefault {c : TypeCase} {subset : List Text}
    (h : c.isDefault subset = true) : c.register subset = c := by
  unfold register
  rw [if_pos h]

/-- The records after a subset is registered: the old ones cut by it, and a new one for the types
that no record had. -/
theorem records_register {c : TypeCase} {subset : List Text} (hv : c.Valid)
    (h : c.isDefault subset = false) :
    (c.register subset).records = c.records.flatMap (cut subset) ++
      if (unrecorded c.records subset).isEmpty then []
      else [⟨unrecorded c.records subset, c.default.fields⟩] := by
  unfold register
  rw [if_neg (by simp [h]), split_eq subset hv.disjoint]
  simp only
  split_ifs <;> simp

/-- **Where a record comes from**: from an old one by a cut, or new, with types that no record had
and the fields of the default one. -/
theorem mem_register {c : TypeCase} {subset : List Text} (hv : c.Valid)
    (h : c.isDefault subset = false) {r : TypeRecord} (hr : r ∈ (c.register subset).records) :
    (∃ r' ∈ c.records, r.possibleTypes ∈ cutTypes subset r'.possibleTypes ∧
      r.fields = r'.fields) ∨
    (r.possibleTypes = unrecorded c.records subset ∧ r.possibleTypes ≠ [] ∧
      r.fields = c.default.fields) := by
  rw [records_register hv h] at hr
  rcases List.mem_append.mp hr with hr | hr
  · obtain ⟨r', hr', hc⟩ := List.mem_flatMap.mp hr
    obtain ⟨types, ht, rfl⟩ := List.mem_map.mp hc
    exact Or.inl ⟨r', hr', ht, rfl⟩
  · split_ifs at hr with he
    · cases hr
    · obtain rfl := List.mem_singleton.mp hr
      exact Or.inr ⟨rfl, by simpa using he, rfl⟩

theorem recorded_register {c : TypeCase} {subset : List Text} (hv : c.Valid)
    (h : c.isDefault subset = false) {t : Text} :
    (c.register subset).Recorded t ↔ c.Recorded t ∨ t ∈ subset := by
  rw [recorded_iff, recorded_iff]
  constructor
  · rintro ⟨r, hr, ht⟩
    rcases mem_register hv h hr with ⟨r', hr', hc, -⟩ | ⟨he, -, -⟩
    · exact Or.inl ⟨r', hr', (cutTypes_spec hc).1 t ht⟩
    · rw [he] at ht
      exact Or.inr (mem_unrecorded.mp ht).1
  · intro ht
    rw [records_register hv h]
    by_cases hrec : ∃ r ∈ c.records, t ∈ r.possibleTypes
    · obtain ⟨r, hr, htr⟩ := hrec
      obtain ⟨part, hp, htp⟩ := mem_cutTypes subset htr
      exact ⟨⟨part, r.fields⟩, List.mem_append_left _
        (List.mem_flatMap.mpr ⟨r, hr, List.mem_map_of_mem hp⟩), htp⟩
    · have hu : t ∈ unrecorded c.records subset :=
        mem_unrecorded.mpr ⟨ht.resolve_left hrec, fun r hr htr => hrec ⟨r, hr, htr⟩⟩
      refine ⟨⟨unrecorded c.records subset, c.default.fields⟩, List.mem_append_right _ ?_, hu⟩
      rw [if_neg fun he => by rw [List.isEmpty_iff] at he; rw [he] at hu; cases hu]
      simp

/-- The parts after a subset is registered. -/
theorem parts_register {c : TypeCase} {subset : List Text} (hv : c.Valid)
    (h : c.isDefault subset = false) :
    (c.register subset).parts = c.parts.flatMap (cutTypes subset) ++
      if (unrecorded c.records subset).isEmpty then [] else [unrecorded c.records subset] := by
  unfold parts
  rw [records_register hv h, List.map_append, List.map_flatMap, List.flatMap_map]
  congr 1
  · refine List.flatMap_congr fun r _ => ?_
    simp [cut, Function.comp_def]
  · split_ifs <;> rfl

/-- **Registering keeps the parts disjoint, nonempty and narrow.** -/
theorem Valid.register {c : TypeCase} {subset : List Text} (hv : c.Valid)
    (hs : ∀ t ∈ subset, t ∈ c.default.possibleTypes) : (c.register subset).Valid := by
  cases h : c.isDefault subset with
  | true => rwa [register_of_isDefault h]
  | false =>
    have hp : ∀ part ∈ (c.register subset).parts,
        (∃ old ∈ c.parts, part ∈ cutTypes subset old) ∨
          (part = unrecorded c.records subset ∧ part ≠ []) := by
      intro part hpart
      obtain ⟨r, hr, rfl⟩ := List.mem_map.mp hpart
      rcases mem_register hv h hr with ⟨r', hr', hc, -⟩ | ⟨he, hne, -⟩
      · exact Or.inl ⟨_, List.mem_map_of_mem hr', hc⟩
      · exact Or.inr ⟨he, hne⟩
    have hnew : ∀ t ∈ unrecorded c.records subset, t ∈ subset := fun t ht => (mem_unrecorded.mp ht).1
    refine ⟨?_, fun part hpart => ?_, fun part hpart t ht => ?_, fun part hpart => ?_⟩
    · rw [parts_register hv h, List.pairwise_append]
      refine ⟨?_, ?_, ?_⟩
      · refine List.pairwise_flatMap.mpr ⟨fun old _ => pairwise_cutTypes subset old, ?_⟩
        refine hv.disjoint.imp fun {old old'} ho part hp part' hp' t ht ht' => ?_
        exact ho t ((cutTypes_spec hp).1 t ht) ((cutTypes_spec hp').1 t ht')
      · split_ifs
        · exact List.Pairwise.nil
        · exact List.pairwise_singleton _ _
      · intro part hpart part' hpart' t ht ht'
        obtain ⟨old, ho, hc⟩ := List.mem_flatMap.mp hpart
        obtain ⟨r, hr, rfl⟩ := List.mem_map.mp ho
        split_ifs at hpart' with he
        · cases hpart'
        · obtain rfl := List.mem_singleton.mp hpart'
          exact (mem_unrecorded.mp ht').2 r hr ((cutTypes_spec hc).1 t ht)
    · rcases hp part hpart with ⟨old, ho, hc⟩ | ⟨-, hne⟩
      · exact ne_nil_of_mem_cutTypes (hv.nonempty old ho) hc
      · exact hne
    · rw [default_register]
      rcases hp part hpart with ⟨old, ho, hc⟩ | ⟨rfl, -⟩
      · exact hv.within old ho t ((cutTypes_spec hc).1 t ht)
      · exact hs t (hnew t ht)
    · rw [isDefault_register]
      rcases hp part hpart with ⟨old, ho, hc⟩ | ⟨rfl, -⟩
      · exact isDefault_mono (hv.narrow old ho) (cutTypes_spec hc).1
      · exact isDefault_mono h hnew

/-- **Registering settles its subset.** -/
theorem settled_register_self {c : TypeCase} (hv : c.Valid) (subset : List Text) :
    (c.register subset).Settled subset := by
  cases h : c.isDefault subset with
  | true => rw [register_of_isDefault h]; exact Or.inl h
  | false =>
    refine Or.inr ⟨fun t ht => (recorded_register hv h).mpr (Or.inr ht), fun part hpart => ?_⟩
    obtain ⟨r, hr, rfl⟩ := List.mem_map.mp hpart
    rcases mem_register hv h hr with ⟨r', -, hc, -⟩ | ⟨he, -, -⟩
    · exact (cutTypes_spec hc).2
    · rw [he]
      exact Or.inl fun t ht => (mem_unrecorded.mp ht).1

/-- **What is settled stays settled.** -/
theorem Settled.register {c : TypeCase} {types : List Text} (hv : c.Valid) (hs : c.Settled types)
    (subset : List Text) : (c.register subset).Settled types := by
  cases h : c.isDefault subset with
  | true => rwa [register_of_isDefault h]
  | false =>
    rcases hs with hs | ⟨hrec, hside⟩
    · exact Or.inl (by rwa [isDefault_register])
    · refine Or.inr ⟨fun t ht => (recorded_register hv h).mpr (Or.inl (hrec t ht)), ?_⟩
      intro part hpart
      obtain ⟨r, hr, rfl⟩ := List.mem_map.mp hpart
      rcases mem_register hv h hr with ⟨r', hr', hc, -⟩ | ⟨he, -, -⟩
      · exact (hside _ (List.mem_map_of_mem hr')).mono (cutTypes_spec hc).1
      · refine Or.inr fun t ht htt => ?_
        rw [he] at ht
        obtain ⟨r', hr', ht'⟩ := recorded_iff.mp (hrec t htt)
        exact (mem_unrecorded.mp ht).2 r' hr' ht'

/-- **Registering changes the fields of no type.** -/
theorem Reads.register {c : TypeCase} {t : Text} {fields : List Field} (hv : c.Valid)
    (hr : c.Reads t fields) (subset : List Text) : (c.register subset).Reads t fields := by
  cases h : c.isDefault subset with
  | true => rwa [register_of_isDefault h]
  | false =>
    obtain ⟨hrec, hdef⟩ := hr
    refine ⟨fun r hr ht => ?_, fun hn => ?_⟩
    · rcases mem_register hv h hr with ⟨r', hr', hc, hf⟩ | ⟨he, -, hf⟩
      · rw [hf, hrec r' hr' ((cutTypes_spec hc).1 t ht)]
      · rw [he] at ht
        rw [hf, hdef (mem_unrecorded.mp ht).2]
    · rw [default_register]
      refine hdef fun r hr ht => ?_
      obtain ⟨r', hr', ht'⟩ :=
        recorded_iff.mp ((recorded_register hv h).mpr (Or.inl (recorded_iff.mpr ⟨r, hr, ht⟩)))
      exact hn r' hr' ht'

theorem Inherits.register {c : TypeCase} (hv : c.Valid) (hi : c.Inherits) (subset : List Text) :
    (c.register subset).Inherits := by
  cases h : c.isDefault subset with
  | true => rwa [register_of_isDefault h]
  | false =>
    intro r hr he
    rw [default_register]
    rcases mem_register hv h hr with ⟨r', hr', -, hf⟩ | ⟨-, -, hf⟩
    · exact hi r' hr' (hf ▸ he)
    · rw [← hf, he]

/-! ### Adding a field -/

/-- Adding a field registers its types, and changes no part besides. -/
theorem parts_add (c : TypeCase) (types : List Text) (field : Field) :
    (c.add types field).parts = (c.register types).parts := by
  cases h : c.isDefault types with
  | true =>
    rw [register_of_isDefault h, add, if_pos h]
    simp only [parts, List.map_map]
    rfl
  | false =>
    rw [add, if_neg (by simp [h])]
    simp only [parts, List.map_map]
    refine List.map_congr_left fun r _ => ?_
    simp only [Function.comp_apply]
    split_ifs <;> rfl

@[simp] theorem default_types_add (c : TypeCase) (types : List Text) (field : Field) :
    (c.add types field).default.possibleTypes = c.default.possibleTypes := by
  unfold add
  split_ifs
  · rfl
  · simp

theorem valid_congr {c c' : TypeCase} (hp : c'.parts = c.parts)
    (hd : c'.default.possibleTypes = c.default.possibleTypes) (hv : c.Valid) : c'.Valid := by
  obtain ⟨h1, h2, h3, h4⟩ := hv
  refine ⟨by rwa [hp], by rwa [hp], by rwa [hp, hd], ?_⟩
  rw [hp]
  exact fun part hpart => (isDefault_congr hd part).trans (h4 part hpart)

theorem settled_congr {c c' : TypeCase} {types : List Text} (hp : c'.parts = c.parts)
    (hd : c'.default.possibleTypes = c.default.possibleTypes) (hs : c.Settled types) :
    c'.Settled types := by
  unfold Settled Recorded at *
  rwa [hp, isDefault_congr hd]

theorem Valid.add {c : TypeCase} {types : List Text} (hv : c.Valid)
    (hs : ∀ t ∈ types, t ∈ c.default.possibleTypes) (field : Field) :
    (c.add types field).Valid :=
  valid_congr (parts_add c types field) (by simp) (hv.register hs)

theorem Settled.add {c : TypeCase} {types : List Text} (hv : c.Valid) (hs : c.Settled types)
    (types' : List Text) (field : Field) : (c.add types' field).Settled types :=
  settled_congr (parts_add c types' field) (by simp) (hs.register hv types')

/-- **A field goes to its types and to no others.** -/
theorem Reads.add {c : TypeCase} {t : Text} {fields : List Field} (hv : c.Valid)
    (hr : c.Reads t fields) (ht : t ∈ c.default.possibleTypes) (types : List Text) (field : Field) :
    (c.add types field).Reads t (if t ∈ types then addField fields field else fields) := by
  unfold TypeCase.add
  cases h : c.isDefault types with
  | true =>
    rw [if_pos rfl, if_pos (mem_of_isDefault h ht)]
    refine ⟨fun r hm htr => ?_, fun hn => ?_⟩
    · obtain ⟨r', hr', rfl⟩ := List.mem_map.mp hm
      exact congrArg (addField · field) (hr.1 r' hr' htr)
    · refine congrArg (addField · field) (hr.2 fun r hr' htr => ?_)
      exact hn (addTo field r) (List.mem_map_of_mem hr') htr
  | false =>
    rw [if_neg (by simp)]
    have hreg := hr.register hv types
    have hset := (settled_register_self hv types).resolve_left
      (by simp [h])
    refine ⟨fun r hm htr => ?_, fun hn => ?_⟩
    · obtain ⟨r', hr', rfl⟩ := List.mem_map.mp hm
      have htr' : t ∈ r'.possibleTypes := by
        split_ifs at htr with hc <;> exact htr
      have hside := hset.2 _ (List.mem_map_of_mem hr')
      have hiff : covers types r'.possibleTypes = true ↔ t ∈ types := by
        rw [covers_iff]
        rcases hside with hin | hout
        · exact ⟨fun hc => hc t htr', fun _ => hin⟩
        · exact ⟨fun hc => hc t htr', fun htt => absurd htt (hout t htr')⟩
      split_ifs with hc htt htt
      · exact congrArg (addField · field) (hreg.1 r' hr' htr')
      · exact absurd (hiff.mp hc) htt
      · exact absurd (hiff.mpr htt) hc
      · exact hreg.1 r' hr' htr'
    · have hn' : ∀ r ∈ (c.register types).records, t ∉ r.possibleTypes := by
        intro r hr' htr
        refine hn _ (List.mem_map_of_mem hr') ?_
        split_ifs <;> exact htr
      rw [if_neg fun htt => ?_]
      · exact hreg.2 hn'
      · obtain ⟨r, hr', htr⟩ := recorded_iff.mp (hset.1 t htt)
        exact hn' r hr' htr

theorem addField_ne_nil (fields : List Field) (field : Field) : addField fields field ≠ [] := by
  cases fields with
  | nil => simp [addField]
  | cons f fields => rw [addField]; split_ifs <;> simp

theorem Inherits.add {c : TypeCase} (hv : c.Valid) (hi : c.Inherits) (types : List Text)
    (field : Field) : (c.add types field).Inherits := by
  unfold TypeCase.add
  split_ifs
  · intro r hr he
    obtain ⟨r', -, rfl⟩ := List.mem_map.mp hr
    exact absurd he (addField_ne_nil _ _)
  · intro r hr he
    obtain ⟨r', hr', rfl⟩ := List.mem_map.mp hr
    split_ifs at he
    · exact absurd he (addField_ne_nil _ _)
    · exact hi.register hv types r' hr' he

end TypeCase

end QueryCompiler.Typed
