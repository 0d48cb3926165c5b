import Mathlib.Data.List.Basic
import QueryCompiler.Json.Basic

/-!
# What an object holds

An object that is put together from a list of members holds under every key the last member of that
key (`Json.member?_ofMembers`), so if the keys are distinct it has all of the members
(`Json.members_ofMembers_perm`). Members are listed from the last one on, and `lookup_member` decides
one after the other. The readers of members depend on what is held only.
-/

namespace QueryCompiler.Json

/-! ### Members -/

/-- A key is that of the first member or is looked up among the others. -/
@[simp] theorem lookup_member (key k : Text) (value : Json) (rest : Members) :
    List.lookup key ((k, value) :: rest) = if key = k then some value else rest.lookup key := by
  by_cases h : key = k
  · subst h
    simp
  · have : (key == k) = false := by simpa using h
    simp [List.lookup_cons, this, h]

theorem mem_setMember {key : Text} {value : Json} {m : Text × Json} : ∀ {members : Members},
    m ∈ setMember key value members → m = (key, value) ∨ m ∈ members
  | [], h => Or.inl (List.mem_singleton.mp h)
  | (k, v) :: rest, h => by
    rw [setMember] at h
    split_ifs at h with hlt heq
    · exact List.mem_cons.mp h
    · exact (List.mem_cons.mp h).imp_right (List.mem_cons_of_mem _)
    · rcases List.mem_cons.mp h with rfl | h
      · exact Or.inr List.mem_cons_self
      · exact (mem_setMember h).imp_right (List.mem_cons_of_mem _)

/-- Members stay in order when one is set. -/
theorem pairwise_setMember (key : Text) (value : Json) : ∀ {members : Members},
    members.Pairwise (fun a b => a.1 < b.1) →
      (setMember key value members).Pairwise fun a b => a.1 < b.1
  | [], _ => List.pairwise_singleton _ _
  | (k, v) :: rest, h => by
    obtain ⟨hhead, hrest⟩ := List.pairwise_cons.mp h
    rw [setMember]
    split_ifs with hlt heq
    · refine List.pairwise_cons.mpr ⟨fun m hm => ?_, h⟩
      rcases List.mem_cons.mp hm with rfl | hm
      · exact hlt
      · exact List.lt_trans hlt (hhead m hm)
    · subst heq
      exact List.pairwise_cons.mpr ⟨hhead, hrest⟩
    · refine List.pairwise_cons.mpr ⟨fun m hm => ?_, pairwise_setMember key value hrest⟩
      rcases mem_setMember hm with rfl | hm
      · exact (List.le_iff_lt_or_eq.mp (List.not_lt.mp hlt)).resolve_right (Ne.symm heq)
      · exact hhead m hm

theorem lookup_foldl_setMember (key : Text) : ∀ (members start : Members),
    start.Pairwise (fun a b => a.1 < b.1) →
      (members.foldl (fun object m => setMember m.1 m.2 object) start).lookup key =
        (members.reverse.lookup key).or (start.lookup key)
  | [], _, _ => rfl
  | m :: members, start, h => by
    rw [List.foldl_cons, lookup_foldl_setMember key members _ (pairwise_setMember m.1 m.2 h),
      lookup_setMember _ _ _ _ h, List.reverse_cons, List.lookup_append, Option.or_assoc]
    congr 1
    rw [show [m] = [(m.1, m.2)] from rfl, lookup_member]
    split_ifs <;> rfl

/-- **An object holds under every key the last member of that key.** -/
@[simp] theorem member?_ofMembers (members : Members) (key : Text) :
    (ofMembers members).member? key = members.reverse.lookup key :=
  (lookup_foldl_setMember key members [] .nil).trans (Option.or_none)

/-- Setting a member of a new key adds it. -/
theorem setMember_perm {key : Text} {value : Json} : ∀ {members : Members},
    key ∉ members.map Prod.fst → (setMember key value members).Perm ((key, value) :: members)
  | [], _ => .refl _
  | (k, v) :: rest, h => by
    rw [List.map_cons, List.mem_cons, not_or] at h
    rw [setMember, if_neg h.1]
    split_ifs with hlt
    · exact .refl _
    · exact ((setMember_perm h.2).cons (k, v)).trans (.swap _ _ _)

theorem foldl_setMember_perm : ∀ {members start : Members},
    ((start ++ members).map Prod.fst).Nodup →
      (members.foldl (fun object m => setMember m.1 m.2 object) start).Perm (start ++ members)
  | [], start, _ => by
    rw [List.foldl_nil, List.append_nil]
  | m :: members, start, h => by
    have hnew : m.1 ∉ start.map Prod.fst := by
      intro hm
      rw [List.map_append, List.nodup_append] at h
      exact h.2.2 m.1 hm m.1 List.mem_cons_self rfl
    have hset : (setMember m.1 m.2 start ++ members).Perm (start ++ m :: members) :=
      ((setMember_perm hnew).append_right members).trans List.perm_middle.symm
    rw [List.foldl_cons]
    exact (foldl_setMember_perm ((hset.map Prod.fst).nodup_iff.mpr h)).trans hset

/-- **An object of members with distinct keys has these members.** -/
theorem members_ofMembers_perm {members : Members} (h : (members.map Prod.fst).Nodup) :
    (ofMembers members).members.Perm members := by
  rw [← List.nil_append members] at h
  exact foldl_setMember_perm h

theorem lookup_of_mem {key : Text} {value : Json} : ∀ {members : Members},
    (members.map Prod.fst).Nodup → (key, value) ∈ members → members.lookup key = some value
  | (k, v) :: rest, hn, h => by
    obtain ⟨hnew, hrest⟩ := List.nodup_cons.mp hn
    rw [lookup_member]
    rcases List.mem_cons.mp h with heq | hmem
    · obtain ⟨rfl, rfl⟩ := Prod.mk.inj heq
      exact if_pos rfl
    · have hkey : key ∈ rest.map Prod.fst := List.mem_map.mpr ⟨(key, value), hmem, rfl⟩
      have hne : key ≠ k := fun he => hnew (he ▸ hkey)
      rw [if_neg hne, lookup_of_mem hrest hmem]

/-- **An object of members with distinct keys holds each of them under its key.** -/
theorem member?_ofMembers_of_mem {members : Members} (hn : (members.map Prod.fst).Nodup) {key : Text}
    {value : Json} (h : (key, value) ∈ members) : (ofMembers members).member? key = some value := by
  rw [member?_ofMembers]
  refine lookup_of_mem ?_ (List.mem_reverse.mpr h)
  rw [List.map_reverse]
  exact (List.reverse_perm _).nodup_iff.mpr hn

/-! ### Readers -/

section Readers
variable {j : Json} {key : Text}

theorem member_eq_ok {value : Json} : j.member key = .ok value ↔ j.member? key = some value := by
  cases j with
  | object members =>
    simp only [member, member?, Json.members]
    cases members.lookup key with
    | none => exact ⟨fun h => (by cases h), fun h => (by cases h)⟩
    | some v =>
      exact ⟨fun h => congrArg some (Except.ok.inj h), fun h => congrArg _ (Option.some.inj h)⟩
  | _ => exact ⟨fun h => (by cases h), fun h => (by cases h)⟩

theorem memberText_of (h : j.member? key = some (.string text)) : j.memberText key = .ok text := by
  rw [memberText, member_eq_ok.mpr h]
  rfl

theorem memberText?_of {text : Option Text} (h : j.member? key = text.map .string) :
    j.memberText? key = .ok text := by
  rw [memberText?, h]
  cases text <;> rfl

end Readers

end QueryCompiler.Json
