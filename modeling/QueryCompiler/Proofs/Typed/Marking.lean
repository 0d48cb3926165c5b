import QueryCompiler.Typed.TypesUsed
import Mathlib.Data.Set.Basic
import Mathlib.Logic.Function.Iterate
import Mathlib.Order.Bounds.Defs

/-!
# Bringing types into use

The types of a list of names come into use one after the other, each of them with those below it,
and those that are in use already are passed by. Although input objects may refer to one another in
circles, this ends (`use_unrolled`), since no more types can be brought into use than the schema has.

Nothing that a type needs is forgotten when the type is passed by later: whenever no name is left,
what is below a type in use is in use too. So the types used are the least set that has what is asked
for and what is below it (`isLeast_useAll`), and each of them is listed once (`nodup_useAll`).
-/

namespace QueryCompiler.Schema

/-- The schema has a type of the name that is listed when it is used: an enum, an input object, or a
scalar that is not built in. -/
def Lists (s : Schema) (name : Text) : Prop :=
  ∃ t, s.type? name = some t ∧
    (t.kind = .enum ∨ t.kind = .inputObject ∨ (t.kind = .scalar ∧ t.name ∉ builtInNames))

/-- **The set has what is listed among some names, and what is listed among the types of the fields of
its input objects.** -/
structure Covers (s : Schema) (names S : Set Text) : Prop where
  names : ∀ name ∈ names, s.Lists name → name ∈ S
  inputFields : ∀ name ∈ S, ∀ t, s.type? name = some t → t.kind = .inputObject →
    ∀ f ∈ t.inputFields, s.Lists f.type.namedType → f.type.namedType ∈ S

section Listed
variable {s : Schema} {t : NamedType} {name : Text}

theorem isListed_iff : isListed t = true ↔
    t.kind = .enum ∨ t.kind = .inputObject ∨ (t.kind = .scalar ∧ t.name ∉ builtInNames) := by
  simp [isListed, isBuiltInScalar, or_assoc]

theorem lists_iff (ht : s.type? name = some t) : s.Lists name ↔ isListed t = true := by
  rw [isListed_iff, Lists, ht]
  exact ⟨fun ⟨_, h, hl⟩ => Option.some.inj h ▸ hl, fun hl => ⟨t, rfl, hl⟩⟩

theorem not_lists (ht : s.type? name = none) : ¬ s.Lists name := by
  rintro ⟨t, h, -⟩
  rw [ht] at h
  cases h

theorem mem_typesBelow : name ∈ typesBelow t ↔
    t.kind = .inputObject ∧ ∃ f ∈ t.inputFields, f.type.namedType = name := by
  rw [typesBelow]
  split <;> simp [*]

end Listed

/-! ### One type after the other -/

section Sequences
variable {s : Schema} {used names : List Text} {name : Text}

@[simp]
theorem useAll_nil : s.useAll used [] = used := by rw [useAll]

/-- The equation of `useAll`, without the facts that its recursion needs. -/
theorem useAll_cons (used : List Text) (name : Text) (names : List Text) :
    s.useAll used (name :: names) =
      if used.contains name then s.useAll used names
      else
        match s.type? name with
        | none => s.useAll used names
        | some t =>
          if isListed t then s.useAll (used ++ [name]) (typesBelow t ++ names)
          else s.useAll used names := by
  rw [useAll]
  by_cases hn : used.contains name = true
  · rw [dif_pos hn, if_pos hn]
  · rw [dif_neg hn, if_neg hn]
    split <;> rename_i ht <;> rw [ht]

/-- The types of a list come into use after those of another. -/
theorem useAll_append (used first second : List Text) :
    s.useAll used (first ++ second) = s.useAll (s.useAll used first) second := by
  fun_induction s.useAll used first with
  | case1 => rfl
  | case2 used name names hn ih => rw [List.cons_append, useAll_cons, if_pos hn, ih]
  | case3 used name names hn ht ih => rw [List.cons_append, useAll_cons, if_neg hn, ht, ih]
  | case4 used name names hn t ht hl ih =>
    rw [List.cons_append, useAll_cons, if_neg hn, ht, ← ih, List.append_assoc]
    exact if_pos hl
  | case5 used name names hn t ht hl ih =>
    rw [List.cons_append, useAll_cons, if_neg hn, ht, ← ih]
    exact if_neg hl

theorem useAll_eq_foldl (used names : List Text) : s.useAll used names = names.foldl s.use used := by
  induction names generalizing used with
  | nil => exact useAll_nil
  | cons name names ih => rw [List.foldl_cons, ← ih, ← List.singleton_append, useAll_append, use]

/-- How a type comes into use, if `inner` says how the types below it do. -/
def useWith (s : Schema) (inner : List Text → Text → List Text) (used : List Text) (name : Text) :
    List Text :=
  if used.contains name then used
  else
    match s.type? name with
    | none => used
    | some t => if isListed t then (typesBelow t).foldl inner (used ++ [name]) else used

/-- A type comes into use as the types below it do. -/
theorem use_eq (used : List Text) (name : Text) : s.use used name = s.useWith s.use used name := by
  rw [use, useWith, useAll_cons, useAll_nil]
  cases s.type? name with
  | none => rfl
  | some t => simp only [List.append_nil, useAll_eq_foldl]

theorem subset_useAll (used names : List Text) : used ⊆ s.useAll used names := by
  fun_induction s.useAll used names with
  | case1 => exact List.Subset.refl _
  | case2 used name names hn ih => exact ih
  | case3 used name names hn ht ih => exact ih
  | case4 used name names hn t ht hl ih => exact List.Subset.trans (List.subset_append_left _ _) ih
  | case5 used name names hn t ht hl ih => exact ih

/-- **Each type is listed once.** -/
theorem nodup_useAll (h : used.Nodup) (names : List Text) : (s.useAll used names).Nodup := by
  fun_induction s.useAll used names with
  | case1 => exact h
  | case2 used name names hn ih => exact ih h
  | case3 used name names hn ht ih => exact ih h
  | case4 used name names hn t ht hl ih =>
    refine ih (OrderedMap.nodup_concat h fun hmem => hn ?_)
    exact List.contains_iff_mem.mpr hmem
  | case5 used name names hn t ht hl ih => exact ih h

end Sequences

/-! ### The end of the recursion -/

section Unrolling
variable {s : Schema} {used used' : List Text}

theorem length_unused_le (h : used ⊆ used') : (s.unused used').length ≤ (s.unused used).length := by
  rw [unused, unused, ← List.countP_eq_length_filter, ← List.countP_eq_length_filter]
  refine List.countP_mono_left fun name _ hname => ?_
  simp only [Bool.not_eq_true', List.contains_eq_mem, decide_eq_false_iff_not] at hname ⊢
  exact fun hmem => hname (h hmem)

/-- **Types below one another are entered no more often than the schema has types that are not in
use**: it does not matter what would be done for one that is entered deeper. -/
theorem use_unrolled (inner : List Text → Text → List Text) : ∀ (n : Nat) (used : List Text)
    (name : Text), (s.unused used).length < n → s.useWith^[n] inner used name = s.use used name
  | 0, _, _, h => absurd h (Nat.not_lt_zero _)
  | n + 1, used, name, h => by
    rw [Function.iterate_succ_apply', use_eq, useWith, useWith]
    by_cases hn : used.contains name = true
    · rw [if_pos hn, if_pos hn]
    rw [if_neg hn, if_neg hn]
    cases ht : s.type? name with
    | none => rfl
    | some t =>
      have hlt := length_unused_lt s (Bool.not_eq_true _ ▸ hn) ht
      -- All types below are entered with `name` in use, and with what those before them brought in.
      have hbelow : ∀ (names used' : List Text), (s.unused used').length < n →
          names.foldl (s.useWith^[n] inner) used' = names.foldl s.use used' := by
        intro names
        induction names with
        | nil => exact fun _ _ => rfl
        | cons m names ih =>
          intro used' hused
          rw [List.foldl_cons, List.foldl_cons, use_unrolled inner n used' m hused]
          exact ih _ (Nat.lt_of_le_of_lt (length_unused_le (subset_useAll used' [m])) hused)
      simp only
      rw [hbelow (typesBelow t) (used ++ [name]) (by omega)]

end Unrolling

/-! ### The least set that covers the names -/

section Least
variable {s : Schema} {used names : List Text} {S : Set Text}

/-- The listed types below one of the name are in use. -/
def Finished (s : Schema) (used : List Text) (name : Text) : Prop :=
  ∀ t, s.type? name = some t → ∀ below ∈ typesBelow t, s.Lists below → below ∈ used

/-- **No more comes into use than must**: whatever set has the types used so far and covers the names
has the types used then. -/
theorem useAll_subset (hused : ∀ name ∈ used, name ∈ S) (h : s.Covers {name | name ∈ names} S) :
    ∀ name ∈ s.useAll used names, name ∈ S := by
  fun_induction s.useAll used names with
  | case1 => exact hused
  | case2 used name names hn ih =>
    exact ih hused ⟨fun m hm => h.names m (List.mem_cons_of_mem _ hm), h.inputFields⟩
  | case3 used name names hn ht ih =>
    exact ih hused ⟨fun m hm => h.names m (List.mem_cons_of_mem _ hm), h.inputFields⟩
  | case4 used name names hn t ht hl ih =>
    have hname : name ∈ S := h.names name List.mem_cons_self ((lists_iff ht).mpr hl)
    refine ih (fun m hm => ?_) ⟨fun m hm hlists => ?_, h.inputFields⟩
    · rcases List.mem_append.mp hm with hm | hm
      · exact hused m hm
      · exact List.mem_singleton.mp hm ▸ hname
    · rcases List.mem_append.mp hm with hm | hm
      · obtain ⟨hkind, f, hf, rfl⟩ := mem_typesBelow.mp hm
        exact h.inputFields name hname t ht hkind f hf hlists
      · exact h.names m (List.mem_cons_of_mem _ hm) hlists
  | case5 used name names hn t ht hl ih =>
    exact ih hused ⟨fun m hm => h.names m (List.mem_cons_of_mem _ hm), h.inputFields⟩

/-- **All that must comes into use**: the listed names, and what is below each type that has come into
use meanwhile. -/
theorem useAll_covers (used names : List Text) :
    (∀ name ∈ names, s.Lists name → name ∈ s.useAll used names) ∧
      ∀ name ∈ s.useAll used names, name ∈ used ∨ s.Finished (s.useAll used names) name := by
  fun_induction s.useAll used names with
  | case1 => exact ⟨List.forall_mem_nil _, fun name hname => .inl hname⟩
  | case2 used name names hn ih =>
    refine ⟨List.forall_mem_cons.mpr ⟨fun _ => ?_, ih.1⟩, ih.2⟩
    exact subset_useAll used names (List.contains_iff_mem.mp hn)
  | case3 used name names hn ht ih =>
    exact ⟨List.forall_mem_cons.mpr ⟨fun hl => absurd hl (not_lists ht), ih.1⟩, ih.2⟩
  | case4 used name names hn t ht hl ih =>
    have hname : name ∈ s.useAll (used ++ [name]) (typesBelow t ++ names) :=
      subset_useAll _ _ (List.mem_append_right _ (List.mem_singleton_self name))
    refine ⟨List.forall_mem_cons.mpr ⟨fun _ => hname, fun m hm => ?_⟩, fun m hm => ?_⟩
    · exact ih.1 m (List.mem_append_right _ hm)
    · rcases ih.2 m hm with hm | hm
      · rcases List.mem_append.mp hm with hm | hm
        · exact .inl hm
        · -- The type is passed by from here on, and the types below it are still to come.
          refine .inr fun t' ht' below hbelow => ?_
          rw [List.mem_singleton.mp hm, ht] at ht'
          exact ih.1 below (List.mem_append_left _ (Option.some.inj ht' ▸ hbelow))
      · exact .inr hm
  | case5 used name names hn t ht hl ih =>
    refine ⟨List.forall_mem_cons.mpr ⟨fun hlists => ?_, ih.1⟩, ih.2⟩
    exact absurd ((lists_iff ht).mp hlists) hl

/-- **The types used are the least set that covers what is asked for**, in whichever order. -/
theorem isLeast_useAll (s : Schema) (names : List Text) :
    IsLeast {S | s.Covers {name | name ∈ names} S} {name | name ∈ s.useAll [] names} := by
  obtain ⟨hnames, hfinished⟩ := useAll_covers (s := s) [] names
  refine ⟨⟨hnames, fun name hname t ht hkind f hf hlists => ?_⟩, fun S hS name hname => ?_⟩
  · rcases hfinished name hname with hnil | h
    · cases hnil
    · exact h t ht _ (mem_typesBelow.mpr ⟨hkind, f, hf, rfl⟩) hlists
  · exact useAll_subset (List.forall_mem_nil _) hS name hname

end Least

end QueryCompiler.Schema
