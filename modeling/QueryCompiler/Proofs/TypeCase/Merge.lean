import QueryCompiler.Typed.TypeCase
import Mathlib.Data.List.Basic
import Mathlib.Data.List.Induction

/-!
# Fields with one response key

Adding fields one after the other, each merged into the first of its response key, is the same as
grouping them: the result has one field for each response key, in the order in which the keys first
occur, and that field is made of all fields with the key.

* `joined`: the field that fields with one key become. It says what the first of them says, it is
  conditional if all of them are, and its selections are those of all of them in order.
* `grouped`: the groups in order, each of them joined.
* `foldl_addField`: adding fields one by one groups them.
-/

namespace QueryCompiler.Typed

/-! ### The field of a group -/

/-- The selections of selection sets one after the other, on the possible types of the first. -/
def concatSets : List SelectionSet → Option SelectionSet
  | [] => none
  | first :: rest => some (.mk first.possibleTypes ((first :: rest).flatMap SelectionSet.selections))

/-- The field that a field and more fields with its response key become. -/
def joined (first : Field) (rest : List Field) : Field where
  head := { first.head with
    isConditional := (first :: rest).all fun f => f.head.isConditional }
  nested := concatSets ((first :: rest).filterMap Field.nested)

@[simp] theorem SelectionSet.eta (s : SelectionSet) : .mk s.possibleTypes s.selections = s := by
  cases s; rfl

@[simp] theorem SelectionSet.possibleTypes_mk (types : List Text) (selections : List Selection) :
    (SelectionSet.mk types selections).possibleTypes = types := rfl

@[simp] theorem SelectionSet.selections_mk (types : List Text) (selections : List Selection) :
    (SelectionSet.mk types selections).selections = selections := rfl

theorem joined_nil (first : Field) : joined first [] = first := by
  obtain ⟨head, nested⟩ := first
  cases nested with
  | none => simp [joined, concatSets]
  | some s => simp [joined, concatSets]

theorem mergeNested_concatSets (sets : List SelectionSet) (nested : Option SelectionSet) :
    mergeNested (concatSets sets) nested = concatSets (sets ++ nested.toList) := by
  cases nested with
  | none => cases sets <;> simp [mergeNested]
  | some s => cases sets <;> simp [mergeNested, concatSets]

/-- Merging one more field into a group extends the group. -/
theorem joined_merge (first : Field) (rest : List Field) (f : Field) :
    (joined first rest).merge f = joined first (rest ++ [f]) := by
  have hn : mergeNested (concatSets ((first :: rest).filterMap Field.nested)) f.nested =
      concatSets ((first :: (rest ++ [f])).filterMap Field.nested) := by
    rw [mergeNested_concatSets, ← List.cons_append, List.filterMap_append]
    cases f with
    | mk head nested => cases nested <;> rfl
  simp only [Field.merge, joined] at hn ⊢
  rw [hn]
  simp [Bool.and_assoc]

/-! ### Groups -/

/-- The response keys of fields, each at its first occurrence. -/
def responseKeys (fields : List Field) : List Text :=
  (fields.map fun f => f.head.responseKey).eraseDups

/-- The fields with a response key. -/
def withKey (key : Text) (fields : List Field) : List Field :=
  fields.filter fun f => f.head.responseKey = key

/-- The field of a response key; nothing if no field has the key. -/
def group? (fields : List Field) (key : Text) : Option Field :=
  match withKey key fields with
  | [] => none
  | first :: rest => some (joined first rest)

/-- One field for each response key, in the order of the first occurrences. -/
def grouped (fields : List Field) : List Field := (responseKeys fields).filterMap (group? fields)

theorem mem_responseKeys {fields : List Field} {key : Text} :
    key ∈ responseKeys fields ↔ ∃ f ∈ fields, f.head.responseKey = key := by
  simp [responseKeys]

theorem responseKeys_append_single (fields : List Field) (f : Field) :
    responseKeys (fields ++ [f]) =
      if f.head.responseKey ∈ responseKeys fields then responseKeys fields
      else responseKeys fields ++ [f.head.responseKey] := by
  unfold responseKeys
  rw [List.map_append, List.map_singleton, OrderedMap.eraseDups_concat]
  simp only [List.mem_eraseDups, List.contains_iff_mem]

theorem nodup_responseKeys (fields : List Field) : (responseKeys fields).Nodup := by
  induction fields using List.reverseRecOn with
  | nil => simp [responseKeys]
  | append_singleton fields f ih =>
    rw [responseKeys_append_single]
    split_ifs with h
    · exact ih
    · exact OrderedMap.nodup_concat ih h

theorem withKey_append_single (key : Text) (fields : List Field) (f : Field) :
    withKey key (fields ++ [f]) =
      if f.head.responseKey = key then withKey key fields ++ [f] else withKey key fields := by
  unfold withKey
  rw [List.filter_append]
  split_ifs with h <;> simp [h]

theorem group?_append_same {fields : List Field} {f g : Field}
    (h : group? fields f.head.responseKey = some g) :
    group? (fields ++ [f]) f.head.responseKey = some (g.merge f) := by
  unfold group? at h ⊢
  rw [withKey_append_single, if_pos rfl]
  cases hl : withKey f.head.responseKey fields with
  | nil => rw [hl] at h; cases h
  | cons first rest =>
    rw [hl] at h
    obtain rfl := Option.some.inj h
    rw [joined_merge]; rfl

theorem group?_append_other {fields : List Field} {f : Field} {key : Text}
    (h : f.head.responseKey ≠ key) : group? (fields ++ [f]) key = group? fields key := by
  unfold group?
  rw [withKey_append_single, if_neg h]

theorem group?_isSome {fields : List Field} {key : Text} :
    (∃ g, group? fields key = some g) ↔ key ∈ responseKeys fields := by
  have hw : withKey key fields ≠ [] ↔ key ∈ responseKeys fields := by
    rw [mem_responseKeys]
    unfold withKey
    simp
  rw [← hw]
  unfold group?
  cases withKey key fields <;> simp

theorem responseKey_of_group? {fields : List Field} {key : Text} {g : Field}
    (h : group? fields key = some g) : g.head.responseKey = key := by
  unfold group? at h
  cases hl : withKey key fields with
  | nil => rw [hl] at h; cases h
  | cons first rest =>
    rw [hl] at h
    obtain rfl := Option.some.inj h
    have hf : first ∈ withKey key fields := by rw [hl]; simp
    unfold withKey at hf
    exact of_decide_eq_true (List.mem_filter.mp hf).2

/-! ### One field more -/

theorem addField_of_new {fields : List Field} {f : Field}
    (h : ∀ g ∈ fields, g.head.responseKey ≠ f.head.responseKey) :
    addField fields f = fields ++ [f] := by
  induction fields with
  | nil => rfl
  | cons g fields ih =>
    rw [addField, if_neg (h g (by simp)), ih fun g' hg' => h g' (by simp [hg'])]; rfl

/-- A field whose key is among those of some groups goes into its group. -/
theorem addField_groups {fields : List Field} {f : Field} : ∀ {keys : List Text}, keys.Nodup →
    (∀ key ∈ keys, key ∈ responseKeys fields) → f.head.responseKey ∈ keys →
      addField (keys.filterMap (group? fields)) f = keys.filterMap (group? (fields ++ [f]))
  | [], _, _, hf => by simp at hf
  | key :: keys, hn, hk, hf => by
    obtain ⟨hnew, hn⟩ := List.nodup_cons.mp hn
    obtain ⟨g, hg⟩ := group?_isSome.mpr (hk key (by simp))
    have hkey := responseKey_of_group? hg
    rw [List.filterMap_cons_some hg, addField]
    by_cases h : f.head.responseKey = key
    · have hrest : keys.filterMap (group? (fields ++ [f])) = keys.filterMap (group? fields) := by
        refine List.filterMap_congr fun key' hk' => group?_append_other ?_
        rintro rfl
        exact hnew (h ▸ hk')
      subst h
      rw [if_pos hkey, List.filterMap_cons_some (group?_append_same hg), hrest]
    · have hf' : f.head.responseKey ∈ keys := (List.mem_cons.mp hf).resolve_left h
      rw [if_neg (by rw [hkey]; exact fun e => h e.symm),
        addField_groups hn (fun key' hk' => hk key' (by simp [hk'])) hf',
        List.filterMap_cons_some ((group?_append_other h).trans hg)]

theorem addField_grouped (fields : List Field) (f : Field) :
    addField (grouped fields) f = grouped (fields ++ [f]) := by
  unfold grouped
  rw [responseKeys_append_single]
  split_ifs with h
  · exact addField_groups (nodup_responseKeys fields) (fun _ hk => hk) h
  · have hother : ∀ key ∈ responseKeys fields, f.head.responseKey ≠ key := by
      rintro key hk rfl
      exact h hk
    have hsame : group? (fields ++ [f]) f.head.responseKey = some f := by
      have hw : withKey f.head.responseKey fields = [] := by
        by_contra hw
        refine h (group?_isSome.mp ?_)
        unfold group?
        cases hl : withKey f.head.responseKey fields with
        | nil => exact absurd hl hw
        | cons first rest => exact ⟨_, rfl⟩
      unfold group?
      rw [withKey_append_single, if_pos rfl, hw]
      exact congrArg some (joined_nil f)
    rw [addField_of_new, List.filterMap_append,
      List.filterMap_congr fun key hk => group?_append_other (hother key hk)]
    · simp [hsame]
    · intro g hg
      obtain ⟨key, hk, hg⟩ := List.mem_filterMap.mp hg
      rw [responseKey_of_group? hg]
      exact (hother key hk).symm

/-- **Adding fields one after the other groups them by response key.** -/
theorem foldl_addField (fields : List Field) : fields.foldl addField [] = grouped fields := by
  induction fields using List.reverseRecOn with
  | nil => rfl
  | append_singleton fields f ih => rw [List.foldl_append, List.foldl_cons, List.foldl_nil, ih, addField_grouped]

end QueryCompiler.Typed
