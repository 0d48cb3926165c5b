import QueryCompiler.Proofs.Lowered.Mentions
import QueryCompiler.Proofs.Typed.Levels

/-!
# The levels of a lowering

A lowering counts the levels of the sets that it makes. Where it merges in the fields of spreads these
are not the levels that resolving has counted, so the program of a document may still be refused for
its levels, and for nothing else.

* `bodyOf_tooDeep`, `fieldWithin_tooDeep`: lowering well-formed selections fails for their levels only.
* `program_tooDeep`, `ofTyped_ok_or_tooDeep`: so lowering the program of a document does, and only if
  spreads are merged.
* `ofTyped_tooDeep_folded`: a document that is resolved, and refused for its levels when it is lowered.
-/

namespace QueryCompiler

open Success (FailsOnly failsOnly_ok failsOnly_error)

namespace Lowered

open Typed

/-- The error is that selection sets are nested too deep. -/
def IsNesting (limit : Nat) (e : LoweringError) : Prop := ∃ key, e = .selectionNesting limit key

/-! ### Selection sets -/

section Bodies
variable {spreads : Bool} {limit levels : Nat}

/-- The type case of a well-formed set can be made. -/
theorem typeCaseOf_failsOnly {P : LoweringError → Prop} {s : SelectionSet}
    (hs : WellFormed s.selections) : FailsOnly P (typeCaseOf ⟨{}, spreads, limit⟩ s) := by
  obtain ⟨types, selections⟩ := s
  obtain ⟨hfilled, hinlined⟩ : allFilled types selections = true ∧
    allFilled types (inlinedAll selections) = true := allFilled_of_wellFormed hs
  obtain ⟨c, hc⟩ : ∃ c, typeCaseOf ⟨{}, spreads, limit⟩ (.mk types selections) = .ok c := by
    cases spreads with
    | false => exact exists_walkAll false _ hfilled
    | true => exact exists_walkAll false _ hinlined
  rw [hc]
  exact failsOnly_ok c

/-- The spreads of a well-formed set can be listed. -/
theorem visibleSpreads_failsOnly {P : LoweringError → Prop} {s : SelectionSet}
    (hs : WellFormed s.selections) (types : List Text) : FailsOnly P (s.visibleSpreads types) := by
  obtain ⟨names, hnames⟩ := exists_visibleSpreadsOfAll hs
  rw [SelectionSet.visibleSpreads, hnames]
  exact failsOnly_ok names

/-- A set fails for its levels only, if the fields inside do with one level less. -/
theorem bodyOf_tooDeep {s : SelectionSet} {c : TypeCase} (hs : WellFormed s.selections)
    (hc : typeCaseOf ⟨{}, spreads, limit⟩ s = .ok c)
    (hfield : ∀ f : Typed.Field, f.Inside WellFormed →
      FailsOnly (fun e => IsNesting limit e ∧ ¬ f.Inside (NestsWithin spreads levels))
        (fieldWithin ⟨{}, spreads, limit⟩ levels f)) :
    FailsOnly (fun e => IsNesting limit e ∧ ¬ NestsWithin spreads (levels + 1) s.selections)
      (bodyOf (fieldWithin ⟨{}, spreads, limit⟩ levels) s c) := by
  -- The selections inside the fields are well-formed, and on one level less than the set.
  have hinsides : c.Insides fun inner => WellFormed inner ∧
      (NestsWithin spreads (levels + 1) s.selections → NestsWithin spreads levels inner) := by
    refine typeCaseOf_insides (fun first second h h' => ?_) (fun inner hi => ⟨?_, ?_⟩) hc
    · exact ⟨h.1.append h'.1, fun hn => (h.2 hn).append (h'.2 hn)⟩
    · exact fun x hx => hs x (hi.occurs hx)
    · exact fun hn => hn inner hi
  refine bodyOf_failsOnly hinsides (visibleSpreads_failsOnly hs) fun f hf e he => ?_
  obtain ⟨hnesting, hdeep⟩ := hfield f (fun set hset => (hf set hset).1) e he
  exact ⟨hnesting, fun hn => hdeep fun set hset => (hf set hset).2 hn⟩

/-- **A field fails for its levels only.** If what is inside it is well-formed, lowering it within some
levels fails only if it nests on more. -/
theorem fieldWithin_tooDeep {f : Typed.Field} (hf : f.Inside WellFormed) :
    FailsOnly (fun e => IsNesting limit e ∧ ¬ f.Inside (NestsWithin spreads levels))
      (fieldWithin ⟨{}, spreads, limit⟩ levels f) := by
  induction levels generalizing f with
  | zero =>
    obtain ⟨head, _ | s⟩ := f
    · exact failsOnly_ok _
    · exact failsOnly_error ⟨⟨_, rfl⟩, fun h => h s rfl⟩
  | succ levels ih =>
    obtain ⟨head, _ | s⟩ := f
    · exact failsOnly_ok _
    · refine (typeCaseOf_failsOnly (hf s rfl)).bind fun c hc =>
        FailsOnly.bind (fun e he => ?_) fun _ _ => failsOnly_ok _
      obtain ⟨hnesting, hdeep⟩ := bodyOf_tooDeep (hf s rfl) hc (fun f hf => ih hf) e he
      exact ⟨hnesting, fun h => hdeep (h s rfl)⟩

/-- **A root set fails for its levels only.** -/
theorem body_tooDeep {s : SelectionSet} (hs : WellFormed s.selections) :
    FailsOnly (fun e => IsNesting limit e ∧ ¬ NestsWithin spreads (limit - 1 + 1) s.selections)
      (body ⟨{}, spreads, limit⟩ s) :=
  (typeCaseOf_failsOnly hs).bind fun _ hc => bodyOf_tooDeep hs hc fun _ hf => fieldWithin_tooDeep hf

end Bodies

/-! ### Programs -/

theorem ofDocument_options {schema : Schema} {d : Document} {options : CompilerOptions}
    {p : Typed.Program} (h : Typed.Program.ofDocument schema d options = .ok p) :
    p.options = options := by
  obtain ⟨result, -, h⟩ := Success.bind_eq_ok.mp h
  obtain rfl := Except.ok.inj h
  rfl

/-- The program of a document has a selection set for every operation and for every fragment. -/
theorem selectionSet_ne_none {schema : Schema} {d : Document} {p : Typed.Program}
    (h : p.CarriesAll schema d) : (∀ e ∈ p.operations.entries, e.2.selectionSet ≠ none) ∧
      ∀ e ∈ p.fragments.entries, e.2.selectionSet ≠ none := by
  refine ⟨fun e he hnone => ?_, fun e he hnone => ?_⟩
  · obtain ⟨o, -, hcarry⟩ := Success.exists_of_mem_right h.operations he
    obtain ⟨root, inner, -, hset, -⟩ := hcarry.selections
    cases hnone.symm.trans hset
  · obtain ⟨d, -, -, hcarry⟩ := h.fragments _ _ (OrderedMap.find?_of_mem he)
    obtain ⟨inner, hset, -⟩ := hcarry.selections
    cases hnone.symm.trans hset

/-- The error is that selection sets nest too deeply, and a root set of the program does so. -/
def IsTooDeep (p : Typed.Program) (spreads : Bool) (limit : Nat) (e : LoweringError) : Prop :=
  IsNesting limit e ∧ ∃ s, p.IsRoot s ∧ ¬ NestsWithin spreads (limit - 1 + 1) s.selections

/-- **The program of a document fails for its levels only.** -/
theorem program_tooDeep {schema : Schema} {d : Document} {options : CompilerOptions}
    {p : Typed.Program} (h : Typed.Program.ofDocument schema d options = .ok p) :
    FailsOnly (IsTooDeep p options.mergeInFieldsFromFragmentSpreads options.maxSelectionDepth.toNat)
      (Program.ofTyped p) := by
  have hall := Program.ofDocument_carriesAll h
  have hnames := (ofDocument_closure h).1
  obtain ⟨hoperation, hfragment⟩ := selectionSet_ne_none hall
  have hbody : ∀ s, p.IsRoot s → FailsOnly
      (IsTooDeep p options.mergeInFieldsFromFragmentSpreads options.maxSelectionDepth.toNat)
      (body (.ofOptions {} p.options) s) := by
    intro s hs e he
    rw [ofDocument_options h] at he
    obtain ⟨hnesting, hdeep⟩ := body_tooDeep (hall.wellFormed hs) e he
    exact ⟨hnesting, s, hs, hdeep⟩
  exact Program.ofTypedWith_failsOnly
    (fun e he => Operation.ofTyped_failsOnly (fun hnone => absurd hnone (hoperation e he))
      (fun s hs => (hnames s (.operation he hs)).2.2.2) fun s hs => hbody s (Or.inl ⟨e, he, hs⟩))
    fun e he => Fragment.ofTyped_failsOnly (fun hnone => absurd hnone (hfragment e he))
      fun s hs => hbody s (Or.inr ⟨e, he, hs⟩)

/-- **A document that is resolved can be lowered, but for levels that come from spreads.** If the
fields of spreads are not merged in, lowering succeeds. If they are, it succeeds or fails for its
levels, and then some operation or fragment nests on more levels than the limit once the fields of
spreads count. In no case is the program malformed or a fragment missing. -/
theorem ofTyped_ok_or_tooDeep {schema : Schema} {d : Document} {options : CompilerOptions}
    {p : Typed.Program} (h : Typed.Program.ofDocument schema d options = .ok p) :
    (∃ program, Program.ofTyped p = .ok program) ∨
      options.mergeInFieldsFromFragmentSpreads = true ∧
      (∃ s, p.IsRoot s ∧
        ¬ NestsWithin true (options.maxSelectionDepth.toNat - 1 + 1) s.selections) ∧
      ∃ key, Program.ofTyped p = .error (.selectionNesting options.maxSelectionDepth.toNat key) := by
  cases hrun : Program.ofTyped p with
  | ok program => exact Or.inl ⟨program, rfl⟩
  | error e =>
    obtain ⟨⟨key, rfl⟩, s, hs, hdeep⟩ := program_tooDeep h e hrun
    cases hmerge : options.mergeInFieldsFromFragmentSpreads with
    | false =>
      -- Without the fields of spreads, what is lowered nests no deeper than what was resolved.
      rw [hmerge] at hdeep
      exact absurd (ofDocument_roots h hs).2 hdeep
    | true =>
      rw [hmerge] at hdeep
      exact Or.inr ⟨rfl, ⟨s, hs, hdeep⟩, key, rfl⟩

/-- The options with two levels and spreads that are merged in, or not. -/
def twoLevels (merge : Bool) : CompilerOptions :=
  { maxSelectionDepth := 2, mergeInFieldsFromFragmentSpreads := merge }

/-- The operation and the two fragments have two levels each. -/
theorem ofTyped_ok_folded : ∃ schema d p, readFolded = some (schema, d) ∧
    Typed.Program.ofDocument schema d (twoLevels false) = .ok p ∧
    ∃ program, Program.ofTyped p = .ok program := by
  have hok : (readFolded.any fun r =>
      (Typed.Program.ofDocument r.1 r.2 (twoLevels false)).isOk) = true := by decide +kernel
  obtain ⟨⟨schema, d⟩, hr, hok⟩ := (Option.any_eq_true _ _).mp hok
  cases hp : Typed.Program.ofDocument schema d (twoLevels false) with
  | error e => rw [hp] at hok; cases hok
  | ok p =>
    refine ⟨schema, d, p, hr, hp, ?_⟩
    rcases ofTyped_ok_or_tooDeep hp with hlowered | ⟨hmerge, -⟩
    · exact hlowered
    · cases hmerge

/-- **A document that is resolved may be refused for its levels when it is lowered**: no operation and
no fragment has more than two levels, but the field of one fragment, merged into that of the operation,
is on the third. -/
theorem ofTyped_tooDeep_folded : ∃ schema d p, readFolded = some (schema, d) ∧
    Typed.Program.ofDocument schema d (twoLevels true) = .ok p ∧
    Program.ofTyped p = .error (.selectionNesting 2 "q") := by
  have hrefused : (readFolded.any fun r =>
      (Typed.Program.ofDocument r.1 r.2 (twoLevels true)).toOption.any fun p =>
        match Program.ofTyped p with
        | .ok _ => false
        | .error e => e = .selectionNesting 2 "q") = true := by decide +kernel
  obtain ⟨⟨schema, d⟩, hr, hrefused⟩ := (Option.any_eq_true _ _).mp hrefused
  obtain ⟨p, hp, hrefused⟩ := (Option.any_eq_true _ _).mp hrefused
  refine ⟨schema, d, p, hr, Success.toOption_eq_some.mp hp, ?_⟩
  cases h : Program.ofTyped p with
  | ok program => rw [h] at hrefused; cases hrefused
  | error e =>
    rw [h] at hrefused
    exact congrArg Except.error (of_decide_eq_true hrefused)

end Lowered

end QueryCompiler
