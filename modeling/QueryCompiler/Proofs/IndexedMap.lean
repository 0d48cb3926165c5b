import QueryCompiler.OrderedMap
import QueryCompiler.Text.Basic
import Mathlib.Data.List.Induction
import Mathlib.Tactic.SplitIfs

/-!
# Ordered maps with an index

An ordered map as it is stored: a row of entries, and an index from keys to positions through which
every lookup goes. A write changes the two one after the other, and nothing in their types ties them
together. `Indexes` says that they fit: the index holds the position of the only entry of each key,
and nothing else. Every write keeps it (`Indexes.insert`, `Indexes.assign`, `Indexes.update`), so that
a stored map does what the map of its entries does.

Any number of maps are written to and copied in any order (`Edit.run`). What a map was given, by itself
or by the map that it is a copy of, is its `log`; the map lists the keys of the log in the order in
which they first stand there, each with the value that it was given last (`Logged`, `run_refines`).
-/

namespace QueryCompiler

/-! ### Stored maps -/

/-- Entries in order, and the position of the entry of each key. -/
structure IndexedMap (κ α : Type) [BEq κ] [Hashable κ] where
  /-- The entries in order. -/
  entries : Array (κ × α) := #[]
  /-- The positions of the entries by their keys. -/
  index : Std.HashMap κ Nat := ∅

namespace IndexedMap

variable {κ α : Type} [DecidableEq κ] [Hashable κ]

/-- The keys in the order of their entries. -/
def keys (m : IndexedMap κ α) : List κ := m.entries.toList.map Prod.fst

/-- Whether the index has the key. -/
def contains (m : IndexedMap κ α) (k : κ) : Bool := m.index.contains k

/-- The value at the position that the index gives for the key. -/
def find? (m : IndexedMap κ α) (k : κ) : Option α :=
  m.index[k]?.bind fun n => m.entries[n]?.map Prod.snd

/-- The error of a lookup that must find something. -/
def missing : Text := "OrderedMap::at: no entry for key"

/-- The value of a key that must have one. -/
def get (m : IndexedMap κ α) (k : κ) : Except Text α :=
  match m.find? k with
  | some v => .ok v
  | none => .error missing

/-- Adds an entry at the end, where the index then finds it. -/
def push (m : IndexedMap κ α) (k : κ) (v : α) : IndexedMap κ α :=
  { index := m.index.insertIfNew k m.entries.size, entries := m.entries.push (k, v) }

/-- Gives the entry at a position another value. -/
def setAt (m : IndexedMap κ α) (n : Nat) (v : α) : IndexedMap κ α :=
  { m with entries := m.entries.modify n fun e => (e.1, v) }

/-- Adds an entry unless the index has the key, and says whether it did. -/
def insert (m : IndexedMap κ α) (k : κ) (v : α) : Bool × IndexedMap κ α :=
  if m.contains k then (false, m) else (true, m.push k v)

/-- Gives the key a value: in place if the index has the key, at the end otherwise. -/
def assign (m : IndexedMap κ α) (k : κ) (v : α) : IndexedMap κ α :=
  match m.index[k]? with
  | some n => m.setAt n v
  | none => m.push k v

/-- Gives the key a value where a lookup finds its entry. -/
def update? (m : IndexedMap κ α) (k : κ) (v : α) : Option (IndexedMap κ α) :=
  m.index[k]?.map fun n => m.setAt n v

/-- Two maps are equal when they list equal entries in the same order. The indices do not count. -/
instance [BEq α] : BEq (IndexedMap κ α) := ⟨fun m m' => m.entries == m'.entries⟩

/-! ### The index -/

/-- The stored map has the entries of an ordered map, and its index has their positions and nothing
else. -/
structure Indexes (m : IndexedMap κ α) (o : OrderedMap κ α) : Prop where
  entries_eq : m.entries.toList = o.entries
  index_iff : ∀ (k : κ) (n : Nat), m.index[k]? = some n ↔ m.entries[n]?.map Prod.fst = some k

namespace Indexes

variable {m : IndexedMap κ α} {o : OrderedMap κ α}

theorem empty : Indexes ({} : IndexedMap κ α) ∅ :=
  ⟨rfl, fun k n => by simp⟩

theorem keys_eq (h : m.Indexes o) : m.keys = o.keys := by
  rw [keys, h.entries_eq]
  rfl

/-- The key of the entry at a position. -/
theorem getElem?_keys (h : m.Indexes o) (n : Nat) : o.keys[n]? = m.entries[n]?.map Prod.fst := by
  rw [← h.keys_eq, keys, List.getElem?_map, Array.getElem?_toList]

theorem exists_index_iff (h : m.Indexes o) (k : κ) : (∃ n, m.index[k]? = some n) ↔ k ∈ o.keys := by
  simp only [h.index_iff, ← h.getElem?_keys, List.mem_iff_getElem?]

theorem index_eq_none_iff (h : m.Indexes o) (k : κ) : m.index[k]? = none ↔ k ∉ o.keys := by
  rw [← h.exists_index_iff, Option.eq_none_iff_forall_ne_some, not_exists]

theorem contains_eq (h : m.Indexes o) (k : κ) : m.contains k = decide (k ∈ o.keys) := by
  rw [contains, Std.HashMap.contains_eq_isSome_getElem?, Bool.eq_iff_iff, Option.isSome_iff_exists,
    h.exists_index_iff, decide_eq_true_eq]

/-- **A lookup through the index finds the value of the key.** -/
theorem find?_eq (h : m.Indexes o) (k : κ) : m.find? k = o.find? k := by
  unfold find?
  cases hn : m.index[k]? with
  | none =>
    rw [(OrderedMap.find?_eq_none o k).mpr ((h.index_eq_none_iff k).mp hn)]
    rfl
  | some n =>
    obtain ⟨⟨k', v⟩, he, rfl⟩ := Option.map_eq_some_iff.mp ((h.index_iff k n).mp hn)
    have hmem : (k', v) ∈ o.entries := by
      rw [← h.entries_eq, List.mem_iff_getElem?]
      exact ⟨n, by rw [Array.getElem?_toList, he]⟩
    rw [Option.bind_some, he, OrderedMap.find?_of_mem hmem]
    rfl

/-- What a lookup finds is an entry. -/
theorem find?_eq_some_iff (h : m.Indexes o) {k : κ} {v : α} :
    m.find? k = some v ↔ ∃ n : Nat, m.entries[n]? = some (k, v) := by
  rw [h.find?_eq]
  have hmem : (k, v) ∈ o.entries ↔ ∃ n : Nat, m.entries[n]? = some (k, v) := by
    rw [← h.entries_eq, List.mem_iff_getElem?]
    simp only [Array.getElem?_toList]
  rw [← hmem]
  exact ⟨OrderedMap.mem_of_find?, OrderedMap.find?_of_mem⟩

/-! ### Writes -/

/-- A key that is new is put at the end of both. -/
theorem push (h : m.Indexes o) {k : κ} (hk : k ∉ o.keys) (v : α) :
    (m.push k v).Indexes (o.insert k v) := by
  have hnew : ¬ k ∈ m.index := by
    rw [Std.HashMap.mem_iff_contains, ← IndexedMap.contains, h.contains_eq]
    simpa using hk
  refine ⟨?_, fun a n => ?_⟩
  · rw [OrderedMap.entries_insert hk, ← h.entries_eq]
    exact Array.toList_push
  · show (m.index.insertIfNew k m.entries.size)[a]? = some n ↔
      ((m.entries.push (k, v))[n]?).map Prod.fst = some a
    rw [Std.HashMap.getElem?_insertIfNew, Array.getElem?_push]
    by_cases hn : n = m.entries.size
    · -- The new position is in the index under the new key only.
      have hold : m.index[a]? ≠ some n := by
        rw [Ne, h.index_iff, hn, Array.getElem?_size]
        simp
      rw [if_pos hn]
      by_cases ha : k = a
      · simp [ha, hn, ha ▸ hnew]
      · simp [ha, hold]
    · -- The positions before are those of the keys before.
      have hold : m.entries[n]?.map Prod.fst ≠ some k := by
        rw [← h.getElem?_keys]
        exact fun he => hk (List.mem_iff_getElem?.mpr ⟨n, he⟩)
      rw [if_neg hn]
      by_cases ha : k = a
      · subst ha
        simp [hnew, hold, Ne.symm hn]
      · simp [ha, h.index_iff]

/-- A value is replaced at the position of its key. -/
theorem setAt (h : m.Indexes o) {k : κ} {n : Nat} (hn : m.index[k]? = some n) (v : α) :
    (m.setAt n v).Indexes (o.assign k v) := by
  have hkey := (h.index_iff k n).mp hn
  have hk : k ∈ o.keys := (h.exists_index_iff k).mp ⟨n, hn⟩
  have hkeys : ∀ i : Nat, (m.setAt n v).entries[i]?.map Prod.fst = m.entries[i]?.map Prod.fst := by
    intro i
    rw [IndexedMap.setAt, Array.getElem?_modify]
    split_ifs
    · rw [Option.map_map]
      rfl
    · rfl
  refine ⟨?_, fun a i => ?_⟩
  · have hentries : (o.assign k v).entries = OrderedMap.replaceValue k v o.entries := by
      rw [OrderedMap.assign, if_pos hk]
    rw [hentries, ← h.entries_eq]
    refine List.ext_getElem? fun i => ?_
    rw [IndexedMap.setAt, Array.getElem?_toList, Array.getElem?_modify, OrderedMap.replaceValue,
      List.getElem?_map, Array.getElem?_toList]
    cases he : m.entries[i]? with
    | none => simp
    | some e =>
      -- The index gives one position for the key, so no other entry has it.
      have hiff : e.1 = k ↔ n = i := by
        constructor
        · intro hek
          have hi := (h.index_iff k i).mpr (by rw [he, Option.map_some, hek])
          exact Option.some.inj (hn.symm.trans hi)
        · rintro rfl
          simpa [he] using hkey
      by_cases hni : n = i
      · simp [hni, hiff]
      · simp [hni, hiff]
  · rw [hkeys]
    exact h.index_iff a i

theorem insert (h : m.Indexes o) (k : κ) (v : α) : (m.insert k v).2.Indexes (o.insert k v) := by
  unfold IndexedMap.insert
  rw [h.contains_eq]
  by_cases hk : k ∈ o.keys
  · rw [if_pos (decide_eq_true hk), OrderedMap.insert, dif_pos hk]
    exact h
  · rw [if_neg (by simpa using hk)]
    exact h.push hk v

theorem assign (h : m.Indexes o) (k : κ) (v : α) : (m.assign k v).Indexes (o.assign k v) := by
  unfold IndexedMap.assign
  cases hn : m.index[k]? with
  | none =>
    have hk := (h.index_eq_none_iff k).mp hn
    rw [OrderedMap.assign, if_neg hk]
    exact h.push hk v
  | some n => exact h.setAt hn v

theorem update (h : m.Indexes o) (k : κ) (v : α) :
    ((m.update? k v).getD m).Indexes ((o.update? k v).getD o) := by
  unfold IndexedMap.update? OrderedMap.update?
  cases hn : m.index[k]? with
  | none =>
    have hk := (h.index_eq_none_iff k).mp hn
    rw [if_neg (by rwa [OrderedMap.contains_iff])]
    exact h
  | some n =>
    have hk := (h.exists_index_iff k).mp ⟨n, hn⟩
    rw [if_pos ((OrderedMap.contains_iff o k).mpr hk)]
    exact h.setAt hn v

end Indexes

/-! ### Equality -/

omit [Hashable κ] in
theorem entry_beq_iff [BEq α] (e e' : κ × α) :
    (e == e') = true ↔ e.1 = e'.1 ∧ (e.2 == e'.2) = true := by
  show (e.1 == e'.1 && e.2 == e'.2) = true ↔ _
  rw [Bool.and_eq_true, beq_iff_eq]

/-- **Equal maps list the same keys in the same order, with equal values.** -/
theorem beq_iff [BEq α] {m m' : IndexedMap κ α} {o o' : OrderedMap κ α} (h : m.Indexes o)
    (h' : m'.Indexes o') : (m == m') = true ↔ m.keys = m'.keys ∧
      ∀ k v w, m.find? k = some v → m'.find? k = some w → (v == w) = true := by
  show Array.isEqv m.entries m'.entries (· == ·) = true ↔ _
  rw [Array.isEqv_iff_rel]
  constructor
  · rintro ⟨hsize, hall⟩
    have hpair : ∀ n (hn : n < m.entries.size), m.entries[n].1 = m'.entries[n].1 ∧
        (m.entries[n].2 == m'.entries[n].2) = true :=
      fun n hn => (entry_beq_iff _ _).mp (hall n hn)
    have hkeys : m.keys = m'.keys := by
      refine List.ext_getElem (by simpa [keys] using hsize) fun n hn _ => ?_
      simpa [keys] using (hpair n (by simpa [keys] using hn)).1
    refine ⟨hkeys, fun k v w hv hw => ?_⟩
    obtain ⟨n, hn⟩ := h.find?_eq_some_iff.mp hv
    obtain ⟨n', hn'⟩ := h'.find?_eq_some_iff.mp hw
    -- The key has one position only, which is the same in both maps.
    have hsame : n = n' := by
      have hpos : m'.entries[n]?.map Prod.fst = some k := by
        rw [← h'.getElem?_keys, ← h'.keys_eq, ← hkeys, h.keys_eq, h.getElem?_keys, hn]
        rfl
      have hpos' : m'.entries[n']?.map Prod.fst = some k := by rw [hn']; rfl
      exact Option.some.inj
        (((h'.index_iff k n).mpr hpos).symm.trans ((h'.index_iff k n').mpr hpos'))
    subst hsame
    obtain ⟨hlt, he⟩ := Array.getElem?_eq_some_iff.mp hn
    obtain ⟨hlt', he'⟩ := Array.getElem?_eq_some_iff.mp hn'
    have := (hpair n hlt).2
    rwa [he, he'] at this
  · rintro ⟨hkeys, hvalues⟩
    have hsize : m.entries.size = m'.entries.size := by
      simpa [keys] using congrArg List.length hkeys
    refine ⟨hsize, fun n hn => ?_⟩
    have hkey : m.entries[n].1 = m'.entries[n].1 := by
      have := List.getElem_of_eq hkeys (by simpa [keys] using hn)
      simpa [keys] using this
    have hv : m.find? m.entries[n].1 = some m.entries[n].2 :=
      h.find?_eq_some_iff.mpr ⟨n, Array.getElem?_eq_getElem hn⟩
    have hw : m'.find? m.entries[n].1 = some m'.entries[n].2 :=
      h'.find?_eq_some_iff.mpr ⟨n, by rw [hkey]; exact Array.getElem?_eq_getElem (hsize ▸ hn)⟩
    exact (entry_beq_iff _ _).mpr ⟨hkey, hvalues _ _ _ hv hw⟩

end IndexedMap

/-! ### Logs -/

/-- What can be written to a map. -/
inductive Write (κ α : Type)
  /-- An entry is added if the key has none. -/
  | insert (k : κ) (v : α)
  /-- The key is given a value, whether it has an entry or not. -/
  | assign (k : κ) (v : α)
  /-- The key is given a value where a lookup finds its entry; otherwise nothing happens. -/
  | update (k : κ) (v : α)

/-- The log after a write: its key and its value are added if the write does something. -/
def Write.log {κ α : Type} [DecidableEq κ] (log : List (κ × α)) : Write κ α → List (κ × α)
  | .insert k v => if k ∈ log.map Prod.fst then log else log ++ [(k, v)]
  | .assign k v => log ++ [(k, v)]
  | .update k v => if k ∈ log.map Prod.fst then log ++ [(k, v)] else log

namespace OrderedMap

variable {κ α : Type} [DecidableEq κ]

/-- The map after a write. -/
def write (o : OrderedMap κ α) : Write κ α → OrderedMap κ α
  | .insert k v => o.insert k v
  | .assign k v => o.assign k v
  | .update k v => (o.update? k v).getD o

/-- The map lists the keys of the log in the order in which they first stand there, with the values
that they were given last. -/
structure Logged (o : OrderedMap κ α) (log : List (κ × α)) : Prop where
  keys_eq : o.keys = (log.map Prod.fst).eraseDups
  find?_eq : ∀ k, o.find? k = log.reverse.lookup k

namespace Logged

variable {o : OrderedMap κ α} {log : List (κ × α)}

theorem empty : Logged (∅ : OrderedMap κ α) [] := ⟨rfl, fun _ => rfl⟩

theorem mem_keys_iff (h : o.Logged log) (k : κ) : k ∈ o.keys ↔ k ∈ log.map Prod.fst := by
  rw [h.keys_eq, List.mem_eraseDups]

/-- What is given to a key is added to the log. -/
theorem assign (h : o.Logged log) (k : κ) (v : α) : (o.assign k v).Logged (log ++ [(k, v)]) := by
  refine ⟨?_, fun a => ?_⟩
  · rw [keys_assign, List.map_append, List.map_singleton, eraseDups_concat, ← h.keys_eq]
    simp only [h.mem_keys_iff, List.contains_iff_mem]
  · rw [find?_assign, List.reverse_append, List.reverse_singleton, List.singleton_append,
      List.lookup_cons, h.find?_eq]
    by_cases ha : a = k
    · simp [ha]
    · rw [if_neg ha, beq_false_of_ne ha]

theorem insert (h : o.Logged log) (k : κ) (v : α) : (o.insert k v).Logged
    (if k ∈ log.map Prod.fst then log else log ++ [(k, v)]) := by
  by_cases hk : k ∈ o.keys
  · rw [if_pos ((h.mem_keys_iff k).mp hk), OrderedMap.insert, dif_pos hk]
    exact h
  · have hassign := h.assign k v
    rw [OrderedMap.assign, if_neg hk] at hassign
    rwa [if_neg fun hl => hk ((h.mem_keys_iff k).mpr hl)]

theorem update (h : o.Logged log) (k : κ) (v : α) : ((o.update? k v).getD o).Logged
    (if k ∈ log.map Prod.fst then log ++ [(k, v)] else log) := by
  rw [update?]
  by_cases hk : k ∈ o.keys
  · rw [if_pos ((contains_iff o k).mpr hk), if_pos ((h.mem_keys_iff k).mp hk)]
    exact h.assign k v
  · rw [if_neg (by rwa [contains_iff]), if_neg fun hl => hk ((h.mem_keys_iff k).mpr hl)]
    exact h

theorem write (h : o.Logged log) (w : Write κ α) : (o.write w).Logged (w.log log) := by
  cases w with
  | insert k v => exact h.insert k v
  | assign k v => exact h.assign k v
  | update k v => exact h.update k v

end Logged

end OrderedMap

/-! ### Maps that are written to and copied -/

/-- What can be done to maps with names in `ι`. -/
inductive Edit (ι κ α : Type)
  /-- Something is written to a map. -/
  | write (name : ι) (w : Write κ α)
  /-- One map becomes a copy of another. -/
  | copy (source target : ι)

namespace Edit

variable {ι κ α σ τ : Type} [DecidableEq ι]

/-- The states of the maps after an edit, when a write does `write` to a state. -/
def apply (write : σ → Write κ α → σ) (states : ι → σ) : Edit ι κ α → ι → σ
  | .write name w => Function.update states name (write (states name) w)
  | .copy source target => Function.update states target (states source)

/-- The states of the maps after edits, when all start in one state. -/
def run (write : σ → Write κ α → σ) (start : σ) (edits : List (Edit ι κ α)) : ι → σ :=
  edits.foldl (apply write) fun _ => start

section
variable {writes : σ → Write κ α → σ} {writes' : τ → Write κ α → τ} {related : σ → τ → Prop}
  (h : ∀ s t w, related s t → related (writes s w) (writes' t w))
include h

theorem apply_related {states : ι → σ} {states' : ι → τ}
    (hs : ∀ i, related (states i) (states' i)) (e : Edit ι κ α) (i : ι) :
    related (apply writes states e i) (apply writes' states' e i) := by
  cases e with
  | write name w =>
    by_cases hi : i = name
    · subst hi
      simpa [apply] using h _ _ w (hs i)
    · simpa [apply, hi] using hs i
  | copy source target =>
    by_cases hi : i = target
    · subst hi
      simpa [apply] using hs source
    · simpa [apply, hi] using hs i

/-- **What every write keeps is kept by all edits**, copies included. -/
theorem run_related {start : σ} {start' : τ} (hs : related start start')
    (edits : List (Edit ι κ α)) (i : ι) :
    related (run writes start edits i) (run writes' start' edits i) := by
  unfold run
  induction edits using List.reverseRecOn generalizing i with
  | nil => exact hs
  | append_singleton edits e ih =>
    rw [List.foldl_append, List.foldl_append]
    exact apply_related h ih e i

end

/-- What each map was given, by itself or before it was copied. -/
def logs [DecidableEq κ] (edits : List (Edit ι κ α)) : ι → List (κ × α) :=
  run (fun log w => w.log log) [] edits

end Edit

namespace IndexedMap

variable {ι κ α : Type} [DecidableEq ι] [DecidableEq κ] [Hashable κ]

/-- The map after a write. -/
def write (m : IndexedMap κ α) : Write κ α → IndexedMap κ α
  | .insert k v => (m.insert k v).2
  | .assign k v => m.assign k v
  | .update k v => (m.update? k v).getD m

theorem Indexes.write {m : IndexedMap κ α} {o : OrderedMap κ α} (h : m.Indexes o)
    (w : Write κ α) : (m.write w).Indexes (o.write w) := by
  cases w with
  | insert k v => exact h.insert k v
  | assign k v => exact h.assign k v
  | update k v => exact h.update k v

/-- The maps that edits leave when all start empty. -/
def run (edits : List (Edit ι κ α)) : ι → IndexedMap κ α := Edit.run write {} edits

/-- **Stored maps are insertion-ordered lists of entries.** Whatever is written to maps and copied
from one to another, each map has the entries of the ordered map of the same edits, its index has the
positions of the entries and nothing else, and its keys, its lookups, its insertions and its equality
are those of its log. -/
theorem run_refines [BEq α] (edits : List (Edit ι κ α)) (i : ι) :
    (run edits i).entries.toList = (Edit.run OrderedMap.write ∅ edits i).entries ∧
    (∀ (k : κ) (n : Nat), (run edits i).index[k]? = some n ↔
      (run edits i).entries[n]?.map Prod.fst = some k) ∧
    (run edits i).keys = ((Edit.logs edits i).map Prod.fst).eraseDups ∧
    (run edits i).keys.Nodup ∧
    (∀ k, (run edits i).find? k = (Edit.logs edits i).reverse.lookup k ∧
      (run edits i).contains k = ((Edit.logs edits i).reverse.lookup k).isSome ∧
      (run edits i).get k = match (Edit.logs edits i).reverse.lookup k with
        | some v => .ok v
        | none => .error missing) ∧
    (∀ k v, ((run edits i).insert k v).1 = !(run edits i).contains k ∧
      ((run edits i).contains k = true → (run edits i).insert k v = (false, run edits i))) ∧
    (∀ j, (run edits i == run edits j) = true ↔ (run edits i).keys = (run edits j).keys ∧
      ∀ k v w, (run edits i).find? k = some v → (run edits j).find? k = some w →
        (v == w) = true) := by
  have hindexes : ∀ i, (run edits i).Indexes (Edit.run OrderedMap.write ∅ edits i) :=
    Edit.run_related (fun _ _ w h => h.write w) .empty edits
  have hlogged : (Edit.run OrderedMap.write ∅ edits i).Logged (Edit.logs edits i) :=
    Edit.run_related (fun _ _ w h => h.write w) .empty edits i
  have hfind : ∀ k, (run edits i).find? k = (Edit.logs edits i).reverse.lookup k := fun k =>
    ((hindexes i).find?_eq k).trans (hlogged.find?_eq k)
  refine ⟨(hindexes i).entries_eq, (hindexes i).index_iff, ?_, ?_, fun k => ⟨hfind k, ?_, ?_⟩,
    ?_, fun j => beq_iff (hindexes i) (hindexes j)⟩
  · rw [(hindexes i).keys_eq, hlogged.keys_eq]
  · rw [(hindexes i).keys_eq]
    exact OrderedMap.nodup_keys _
  · rw [← hfind, (hindexes i).contains_eq, (hindexes i).find?_eq, Bool.eq_iff_iff,
      decide_eq_true_eq, OrderedMap.find?_isSome]
  · rw [get, hfind]
  · intro k v
    unfold insert
    cases (run edits i).contains k
    · exact ⟨rfl, nofun⟩
    · exact ⟨rfl, fun _ => rfl⟩

end IndexedMap

end QueryCompiler
