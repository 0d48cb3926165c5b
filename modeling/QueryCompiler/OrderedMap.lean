/-!
# Insertion-ordered maps

Operations, fragments and types are looked up by name and listed in the order in which their names
first came in. An ordered map is the list of its entries, in which no key occurs twice.

* `find?_insert`, `find?_assign`: what a map holds after one more entry.
* `keys_insert`, `keys_assign`: a new key goes to the end, an old one keeps its place.
-/

namespace QueryCompiler

/-- A map that lists its entries in the order in which their keys were first added. -/
structure OrderedMap (κ : Type) (α : Type) where
  /-- The entries in order. -/
  entries : List (κ × α)
  /-- No key occurs twice. -/
  nodup_keys : (entries.map Prod.fst).Nodup

namespace OrderedMap

variable {κ α : Type}

/-- The map without entries. -/
def empty : OrderedMap κ α := ⟨[], List.nodup_nil⟩

instance : EmptyCollection (OrderedMap κ α) := ⟨empty⟩
instance : Inhabited (OrderedMap κ α) := ⟨empty⟩

/-- The keys in the order of their entries. -/
def keys (m : OrderedMap κ α) : List κ := m.entries.map Prod.fst

/-- The values in the order of their entries. -/
def values (m : OrderedMap κ α) : List α := m.entries.map Prod.snd

/-- The number of entries. -/
def size (m : OrderedMap κ α) : Nat := m.entries.length

/-- Whether there are no entries. -/
def isEmpty (m : OrderedMap κ α) : Bool := m.entries.isEmpty

/-- Two maps are equal when they list equal entries in the same order. -/
instance [BEq κ] [BEq α] : BEq (OrderedMap κ α) := ⟨fun m n => m.entries == n.entries⟩

@[ext] theorem ext {m n : OrderedMap κ α} (h : m.entries = n.entries) : m = n := by
  cases m; cases n; cases h; rfl

theorem nodup_concat {l : List κ} (h : l.Nodup) {k : κ} (hk : k ∉ l) : (l ++ [k]).Nodup := by
  refine List.nodup_append.mpr ⟨h, by simp, fun a ha b hb hab => hk ?_⟩
  obtain rfl : b = k := by simpa using hb
  exact hab ▸ ha

/-- One more key is one more first occurrence if it is new. -/
theorem eraseDups_concat [BEq κ] [LawfulBEq κ] (l : List κ) (k : κ) :
    (l ++ [k]).eraseDups = if l.contains k then l.eraseDups else l.eraseDups ++ [k] := by
  rw [List.eraseDups_append]
  by_cases h : k ∈ l
  · simp [List.removeAll, h]
  · simp [List.removeAll, h, List.eraseDups_cons]

variable [DecidableEq κ]

/-- The value of a key. -/
def find? (m : OrderedMap κ α) (k : κ) : Option α := m.entries.lookup k

/-- Whether the key has an entry. -/
def contains (m : OrderedMap κ α) (k : κ) : Bool := m.keys.contains k

/-- The entries with the value of one key replaced. -/
def replaceValue (k : κ) (v : α) (entries : List (κ × α)) : List (κ × α) :=
  entries.map fun e => if e.1 = k then (e.1, v) else e

@[simp] theorem map_fst_replaceValue (k : κ) (v : α) (entries : List (κ × α)) :
    (replaceValue k v entries).map Prod.fst = entries.map Prod.fst := by
  simp only [replaceValue, List.map_map]
  congr 1
  funext e
  simp only [Function.comp]
  split <;> rfl

/-- Adds an entry at the end; a map that has the key already stays as it is. -/
def insert (m : OrderedMap κ α) (k : κ) (v : α) : OrderedMap κ α :=
  if h : k ∈ m.keys then m
  else ⟨m.entries ++ [(k, v)], by
    simpa [keys] using nodup_concat m.nodup_keys (by simpa [keys] using h)⟩

/-- Gives the key a value: in place if the key has an entry, at the end otherwise. -/
def assign (m : OrderedMap κ α) (k : κ) (v : α) : OrderedMap κ α :=
  if k ∈ m.keys then ⟨replaceValue k v m.entries, by simpa using m.nodup_keys⟩ else m.insert k v

/-- Gives the key a value if it has an entry. -/
def update? (m : OrderedMap κ α) (k : κ) (v : α) : Option (OrderedMap κ α) :=
  if m.contains k then some (m.assign k v) else none

/-- The map of the entries of a list, the first of each key. -/
def ofList (entries : List (κ × α)) : OrderedMap κ α :=
  entries.foldl (fun m e => m.insert e.1 e.2) ∅

/-! ### Keys -/

theorem contains_iff (m : OrderedMap κ α) (k : κ) : m.contains k = true ↔ k ∈ m.keys := by
  simp [contains]

theorem keys_insert (m : OrderedMap κ α) (k : κ) (v : α) :
    (m.insert k v).keys = if k ∈ m.keys then m.keys else m.keys ++ [k] := by
  unfold insert
  split <;> simp_all [keys]

theorem keys_assign (m : OrderedMap κ α) (k : κ) (v : α) :
    (m.assign k v).keys = if k ∈ m.keys then m.keys else m.keys ++ [k] := by
  unfold assign
  split
  · simp [keys]
  · rename_i h; rw [keys_insert, if_neg h]

/-- An assignment takes no key away. -/
theorem mem_keys_assign {m : OrderedMap κ α} {k : κ} (h : k ∈ m.keys) (a : κ) (v : α) :
    k ∈ (m.assign a v).keys := by
  rw [keys_assign]
  split
  · exact h
  · exact List.mem_append_left _ h

/-! ### Entries -/

theorem entries_insert {m : OrderedMap κ α} {k : κ} (h : k ∉ m.keys) (v : α) :
    (m.insert k v).entries = m.entries ++ [(k, v)] := by
  rw [insert, dif_neg h]

theorem entries_foldl_insert (entries : List (κ × α)) (m : OrderedMap κ α)
    (h : (m.keys ++ entries.map Prod.fst).Nodup) :
    (entries.foldl (fun m e => m.insert e.1 e.2) m).entries = m.entries ++ entries := by
  induction entries generalizing m with
  | nil => rw [List.foldl_nil, List.append_nil]
  | cons e rest ih =>
    have hnew : e.1 ∉ m.keys := fun he =>
      (List.nodup_append.mp h).2.2 e.1 he e.1 (by simp) rfl
    rw [List.foldl_cons, ih, entries_insert hnew, List.append_assoc, List.singleton_append]
    rw [keys_insert, if_neg hnew, List.append_assoc]
    exact h

/-- A list without repeated keys is the list of the entries of its map. -/
theorem entries_ofList {entries : List (κ × α)} (h : (entries.map Prod.fst).Nodup) :
    (ofList entries).entries = entries :=
  entries_foldl_insert entries ∅ h

/-! ### Values -/

theorem find?_isSome (m : OrderedMap κ α) (k : κ) : (m.find? k).isSome ↔ k ∈ m.keys := by
  unfold find? keys
  induction m.entries with
  | nil => simp
  | cons e l ih =>
    obtain ⟨a, v⟩ := e
    by_cases h : k = a
    · subst h; simp
    · have : (k == a) = false := by simpa using h
      simp [List.lookup_cons, this, h]

theorem find?_eq_none (m : OrderedMap κ α) (k : κ) : m.find? k = none ↔ k ∉ m.keys := by
  rw [← find?_isSome]; simp

theorem mem_keys_of_find? {m : OrderedMap κ α} {k : κ} {v : α} (h : m.find? k = some v) :
    k ∈ m.keys := by
  rw [← find?_isSome, h]
  rfl

theorem exists_of_mem_keys {m : OrderedMap κ α} {k : κ} (h : k ∈ m.keys) :
    ∃ v, m.find? k = some v :=
  Option.isSome_iff_exists.mp ((find?_isSome m k).mpr h)

/-- An entry has the value of its key. -/
theorem find?_of_mem {m : OrderedMap κ α} {e : κ × α} (h : e ∈ m.entries) :
    m.find? e.1 = some e.2 := by
  have hkeys := m.nodup_keys
  unfold find?
  generalize m.entries = entries at h hkeys
  induction entries with
  | nil => cases h
  | cons first rest ih =>
    rw [List.map_cons, List.nodup_cons] at hkeys
    rcases List.mem_cons.mp h with rfl | h
    · exact List.lookup_cons_self
    · have hne : (e.1 == first.1) = false := by
        have hmem : e.1 ∈ rest.map Prod.fst := List.mem_map_of_mem h
        simpa using fun he : e.1 = first.1 => hkeys.1 (he ▸ hmem)
      rw [List.lookup_cons, hne]
      exact ih h hkeys.2

theorem mem_of_find? {m : OrderedMap κ α} {k : κ} {v : α} (h : m.find? k = some v) :
    (k, v) ∈ m.entries := by
  obtain ⟨e, he, rfl⟩ := List.mem_map.mp (mem_keys_of_find? h)
  obtain rfl := Option.some.inj ((find?_of_mem he).symm.trans h)
  exact he

theorem lookup_append_single (l : List (κ × α)) (k a : κ) (v : α) :
    (l ++ [(a, v)]).lookup k = (l.lookup k).or (if k = a then some v else none) := by
  induction l with
  | nil =>
    by_cases h : k = a
    · simp [h]
    · have : (k == a) = false := by simpa using h
      simp [List.lookup_cons, this, h]
  | cons e l ih =>
    obtain ⟨b, w⟩ := e
    by_cases h : k = b
    · subst h; simp
    · have : (k == b) = false := by simpa using h
      simp [List.lookup_cons, this, ih]

theorem lookup_replaceValue (l : List (κ × α)) (k a : κ) (v : α) :
    (replaceValue a v l).lookup k = if k = a then (l.lookup k).map fun _ => v else l.lookup k := by
  induction l with
  | nil => simp [replaceValue]
  | cons e l ih =>
    obtain ⟨b, w⟩ := e
    simp only [replaceValue, List.map_cons] at ih ⊢
    by_cases h : k = b
    · subst h
      by_cases h' : k = a
      · simp [h']
      · simp [h']
    · have hb : (k == b) = false := by simpa using h
      by_cases h' : b = a
      · subst h'; simp [List.lookup_cons, hb, ih, h]
      · simp [List.lookup_cons, hb, ih, h']

/-- A list of what some keys are given, where they are given something. -/
theorem lookup_filterMap {β : Type} (key : β → κ) (value : κ → Option α) (bs : List β) (k : κ) :
    (bs.filterMap fun b => (value (key b)).map fun v => (key b, v)).lookup k =
      if k ∈ bs.map key then value k else none := by
  induction bs with
  | nil => rfl
  | cons b bs ih =>
    rw [List.map_cons, List.filterMap_cons]
    by_cases hk : k = key b
    · subst hk
      rw [if_pos List.mem_cons_self]
      cases hv : value (key b) with
      | none =>
        rw [hv, ite_self] at ih
        exact ih
      | some v => exact List.lookup_cons_self
    · have hmem : k ∈ key b :: bs.map key ↔ k ∈ bs.map key := by simp [hk]
      have hbeq : (k == key b) = false := by simpa using hk
      simp only [hmem]
      rw [← ih]
      cases value (key b) with
      | none => rfl
      | some v => simp [List.lookup_cons, hbeq]

/-- **An insertion gives a new key its value and changes nothing else.** -/
theorem find?_insert (m : OrderedMap κ α) (k a : κ) (v : α) :
    (m.insert a v).find? k = (m.find? k).or (if k = a then some v else none) := by
  unfold insert
  split
  · rename_i h
    by_cases hk : k = a
    · subst hk
      have := (find?_isSome m k).mpr h
      obtain ⟨w, hw⟩ := Option.isSome_iff_exists.mp this
      simp [hw]
    · simp [hk]
  · exact lookup_append_single m.entries k a v

theorem find?_foldl_insert (entries : List (κ × α)) (m : OrderedMap κ α) (k : κ) :
    (entries.foldl (fun m e => m.insert e.1 e.2) m).find? k = (m.find? k).or (entries.lookup k) := by
  induction entries generalizing m with
  | nil => simp
  | cons e rest ih =>
    rw [List.foldl_cons, ih, find?_insert, Option.or_assoc, List.lookup_cons]
    by_cases hk : k = e.1
    · simp [hk]
    · have hbeq : (k == e.1) = false := by simpa using hk
      simp [hk, hbeq]

/-- The map of a list has the first value of each key. -/
theorem find?_ofList (entries : List (κ × α)) (k : κ) :
    (ofList entries).find? k = entries.lookup k :=
  find?_foldl_insert entries ∅ k

/-- **An assignment gives its key the value and changes nothing else.** -/
theorem find?_assign (m : OrderedMap κ α) (k a : κ) (v : α) :
    (m.assign a v).find? k = if k = a then some v else m.find? k := by
  unfold assign
  split
  · rename_i h
    show (replaceValue a v m.entries).lookup k = _
    rw [lookup_replaceValue]
    by_cases hk : k = a
    · subst hk
      obtain ⟨w, hw⟩ := Option.isSome_iff_exists.mp ((find?_isSome m k).mpr h)
      have : m.entries.lookup k = some w := hw
      simp [this]
    · simp [hk, find?]
  · rename_i h
    rw [find?_insert]
    by_cases hk : k = a
    · subst hk; simp [(find?_eq_none m k).mpr h]
    · simp [hk]

end OrderedMap

end QueryCompiler
