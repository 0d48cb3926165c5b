import QueryCompiler.Typed.Fragments
import Mathlib.Data.List.Basic

/-!
# The fragments that a selection set refers to

The closure of a selection set walks the selections of a fragment at its first spread and not again.
Nothing is lost by that if all spreads of a name carry the same selections.

* `Occurs`: a selection stands somewhere in others, inside fields, conditions and spreads too.
* `Linked`: every spread carries what a table has for its name.
* `ownSpreads`: what selections spread outside the selections of other spreads.
* `Adds`: what a walk adds to the names that it starts with, in one predicate.
* `closure_adds`: the closure has what the set itself spreads and what the selections of each of its
  names spread, every name once.
-/

namespace QueryCompiler.Typed

/-! ### Spreads -/

/-- A selection stands among selections, at any depth: inside fields, conditions and spreads too. -/
inductive Occurs (x : Selection) : List Selection → Prop
  | here {rest} : Occurs x (x :: rest)
  | inside {s nested rest} : Selection.nested s = some nested → Occurs x nested.selections →
      Occurs x (s :: rest)
  | later {s rest} : Occurs x rest → Occurs x (s :: rest)

/-- The selections of fragments by name. -/
abbrev Table := Text → Option (List Selection)

/-- Every spread, at any depth, carries the selections that the table has for its name. -/
def Linked (table : Table) (selections : List Selection) : Prop :=
  ∀ name type nested, Occurs (.spread name type nested) selections →
    ∃ set, nested = some set ∧ table name = some set.selections

mutual

/-- The fragments that a selection spreads, at any depth outside the selections of other spreads. -/
def Selection.ownSpreads : Selection → List Text
  | .field _ nested => ownSpreadsOfNested nested
  | .typeCondition _ nested => ownSpreadsOfNested nested
  | .booleanCondition _ _ nested => ownSpreadsOfNested nested
  | .spread fragmentName _ _ => [fragmentName]

/-- The fragments that selections spread one after the other. -/
def ownSpreadsOfAll : List Selection → List Text
  | [] => []
  | selection :: rest => selection.ownSpreads ++ ownSpreadsOfAll rest

/-- The fragments that a selection set spreads if it is there. -/
def ownSpreadsOfNested : Option SelectionSet → List Text
  | none => []
  | some (.mk _ selections) => ownSpreadsOfAll selections

end

theorem ownSpreadsOfAll_append (first second : List Selection) :
    ownSpreadsOfAll (first ++ second) = ownSpreadsOfAll first ++ ownSpreadsOfAll second := by
  induction first with
  | nil => rfl
  | cons s rest ih =>
    rw [List.cons_append, ownSpreadsOfAll, ih, ownSpreadsOfAll, List.append_assoc]

theorem occurs_append {x : Selection} {first second : List Selection} :
    Occurs x (first ++ second) ↔ Occurs x first ∨ Occurs x second := by
  induction first with
  | nil =>
    constructor
    · exact Or.inr
    · rintro (h | h)
      · cases h
      · exact h
  | cons s rest ih =>
    rw [List.cons_append]
    constructor
    · intro h
      cases h with
      | here => exact Or.inl .here
      | inside hs hx => exact Or.inl (.inside hs hx)
      | later h =>
        rcases ih.mp h with h | h
        · exact Or.inl (.later h)
        · exact Or.inr h
    · rintro (h | h)
      · cases h with
        | here => exact .here
        | inside hs hx => exact .inside hs hx
        | later h => exact .later (ih.mpr (Or.inl h))
      · exact .later (ih.mpr (Or.inr h))

namespace Linked

variable {table table' : Table} {s : Selection} {first second rest selections : List Selection}

theorem nil : Linked table [] := by
  intro name type nested h
  cases h

theorem append (h : Linked table first) (h' : Linked table second) :
    Linked table (first ++ second) := by
  intro name type nested ho
  rcases occurs_append.mp ho with ho | ho
  · exact h name type nested ho
  · exact h' name type nested ho

theorem head (h : Linked table (s :: rest)) : Linked table [s] := by
  intro name type nested ho
  rw [← List.singleton_append] at h
  exact h name type nested (occurs_append.mpr (Or.inl ho))

theorem tail (h : Linked table (s :: rest)) : Linked table rest :=
  fun name type nested ho => h name type nested (.later ho)

theorem inside (h : Linked table [s]) {set : SelectionSet} (hs : s.nested = some set) :
    Linked table set.selections :=
  fun name type nested ho => h name type nested (.inside hs ho)

/-- A selection that is no spread is linked if what is inside it is. -/
theorem single (hs : ∀ name type nested, s ≠ .spread name type nested)
    (h : ∀ set, s.nested = some set → Linked table set.selections) : Linked table [s] := by
  intro name type nested ho
  cases ho with
  | here => exact absurd rfl (hs name type nested)
  | inside hset hx => exact h _ hset name type nested hx
  | later ho => cases ho

/-- A spread is linked if it carries what the table has for its name. -/
theorem spread {name type : Text} {set : SelectionSet} (ht : table name = some set.selections)
    (h : Linked table set.selections) : Linked table [.spread name type (some set)] := by
  intro name' type' nested ho
  cases ho with
  | here => exact ⟨set, rfl, ht⟩
  | inside hset hx =>
    obtain rfl := Option.some.inj hset
    exact h name' type' nested hx
  | later ho => cases ho

/-- A table that has more links the same selections. -/
theorem mono (h : Linked table selections)
    (hle : ∀ name inner, table name = some inner → table' name = some inner) :
    Linked table' selections := by
  intro name type nested ho
  obtain ⟨set, hset, ht⟩ := h name type nested ho
  exact ⟨set, hset, hle name _ ht⟩

end Linked

/-! ### What a walk adds -/

/-- A walk starts with some names and finds more: those that the selections walked spread, and those
that the selections of each new name spread; and none of them twice. -/
structure Adds (table : Table) (own names found : List Text) : Prop where
  keeps : names ⊆ found
  nodup : names.Nodup → found.Nodup
  own : own ⊆ found
  new : ∀ name ∈ found, name ∉ names →
    ∃ inner, table name = some inner ∧ ownSpreadsOfAll inner ⊆ found

namespace Adds

variable {table : Table} {own own' names found found' : List Text}

theorem nil : Adds table [] names names :=
  ⟨List.Subset.refl _, fun h => h, List.nil_subset _, fun _ h hn => absurd h hn⟩

theorem append (h : Adds table own names found) (h' : Adds table own' found found') :
    Adds table (own ++ own') names found' := by
  refine ⟨List.Subset.trans h.keeps h'.keeps, fun hn => h'.nodup (h.nodup hn),
    List.append_subset.mpr ⟨List.Subset.trans h.own h'.keeps, h'.own⟩, fun name hname hnew => ?_⟩
  by_cases hf : name ∈ found
  · obtain ⟨inner, ht, hinner⟩ := h.new name hf hnew
    exact ⟨inner, ht, List.Subset.trans hinner h'.keeps⟩
  · exact h'.new name hname hf

/-- A name that was found before adds nothing. -/
theorem found_before {name : Text} (hn : name ∈ names) : Adds table [name] names names :=
  ⟨List.Subset.refl _, fun h => h, List.cons_subset.mpr ⟨hn, List.nil_subset _⟩, fun _ h hnew => absurd h hnew⟩

/-- A new name adds itself and then what its selections add. -/
theorem found_now {name : Text} {inner : List Selection} (ht : table name = some inner)
    (hn : name ∉ names) (h : Adds table (ownSpreadsOfAll inner) (names ++ [name]) found) :
    Adds table [name] names found := by
  have hname : name ∈ found := h.keeps (List.mem_append_right _ (List.mem_singleton_self _))
  refine ⟨List.Subset.trans (List.subset_append_left _ _) h.keeps,
    fun hd => h.nodup (OrderedMap.nodup_concat hd hn),
    List.cons_subset.mpr ⟨hname, List.nil_subset _⟩, fun other hother hnew => ?_⟩
  by_cases he : other = name
  · rw [he]
    exact ⟨inner, ht, h.own⟩
  · refine h.new other hother fun hmem => ?_
    rcases List.mem_append.mp hmem with hmem | hmem
    · exact hnew hmem
    · exact he (List.mem_singleton.mp hmem)

end Adds

section Walk
variable {table : Table}

mutual

theorem Selection.addSpreads_adds : ∀ (s : Selection) (names : List Text), Linked table [s] →
    Adds table s.ownSpreads names (s.addSpreads names)
  | .field _ nested, names, h => addSpreadsOfNested_adds nested names fun _ hs => h.inside hs
  | .typeCondition _ nested, names, h => addSpreadsOfNested_adds nested names fun _ hs => h.inside hs
  | .booleanCondition _ _ nested, names, h =>
    addSpreadsOfNested_adds nested names fun _ hs => h.inside hs
  | .spread name type nested, names, h => by
    rw [Selection.addSpreads, Selection.ownSpreads]
    obtain ⟨set, hset, ht⟩ := h name type nested .here
    split_ifs with hn
    · exact .found_before (by simpa using hn)
    · have hinner := addSpreadsOfNested_adds nested (names ++ [name]) fun _ hs => h.inside hs
      have hown : ownSpreadsOfNested nested = ownSpreadsOfAll set.selections := by
        rw [hset]
        cases set
        rfl
      rw [hown] at hinner
      exact .found_now ht (by simpa using hn) hinner

theorem addSpreadsOfAll_adds : ∀ (selections : List Selection) (names : List Text),
    Linked table selections →
      Adds table (ownSpreadsOfAll selections) names (addSpreadsOfAll names selections)
  | [], _, _ => .nil
  | s :: rest, names, h => by
    rw [addSpreadsOfAll, ownSpreadsOfAll]
    have hfirst := s.addSpreads_adds names h.head
    exact hfirst.append (addSpreadsOfAll_adds rest _ h.tail)

theorem addSpreadsOfNested_adds : ∀ (nested : Option SelectionSet) (names : List Text),
    (∀ set, nested = some set → Linked table set.selections) →
      Adds table (ownSpreadsOfNested nested) names (addSpreadsOfNested names nested)
  | none, _, _ => .nil
  | some (.mk types selections), names, h =>
    addSpreadsOfAll_adds selections names (h (.mk types selections) rfl)

end

/-- **The closure of a set is closed under spreading**, if all spreads of a name carry the same. -/
theorem SelectionSet.closure_adds {s : SelectionSet} (h : Linked table s.selections) :
    Adds table (ownSpreadsOfAll s.selections) [] s.closure := by
  cases s with
  | mk types selections => exact addSpreadsOfAll_adds selections [] h

end Walk

end QueryCompiler.Typed
