import QueryCompiler.Proofs.Typed.Closure
import QueryCompiler.Proofs.Typed.Resolved

/-!
# Selections under their directives

The directives of a selection drop it, whatever the variables are, or they put it under conditions on
variables, one around the other (`underConditions_kept`).

* `Directive.forbids`: a literal keeps the selection out.
* `Directive.guard?`: the variable that the selection depends on.
* `guarded`: a typed selection under conditions on variables.
* `kept`: what stands for a selection that has directives.
-/

namespace QueryCompiler

namespace Document

/-- No assignment makes the directive allow its selection, since a literal keeps it out. -/
def Directive.forbids (d : Directive) : Bool :=
  !d.allows (fun _ => true) && !d.allows fun _ => false

/-- A selection with the directives is dropped, whatever the variables are. -/
def areForbidding (directives : List Directive) : Bool := directives.any Directive.forbids

/-- The variable that a conditional directive is given, and whether it must be false. -/
def Directive.guard? (d : Directive) : Option (Text × Bool) :=
  (d.arguments.find? fun a => a.name == ("if" : Text)).bind fun a =>
    match a.value with
    | .variable name => if Resolve.isCondition d then some (name, d.name == ("skip" : Text)) else none
    | _ => none

end Document

namespace Typed

/-- A selection under conditions on variables, the first one innermost. -/
def guarded (types : List Text) (s : Selection) (guards : List (Text × Bool)) : Selection :=
  guards.foldl (fun s g => .booleanCondition g.1 g.2 (some (.mk types [s]))) s

/-- What stands for a selection with directives: nothing if they drop it, or else the selection under
its guards. -/
def kept (types : List Text) (directives : List Document.Directive) (s : Selection) :
    List Selection :=
  if Document.areForbidding directives then []
  else [guarded types s (directives.filterMap Document.Directive.guard?)]

end Typed

namespace Resolve

open Document (Directive areForbidding)
open Typed (guarded kept Linked Table ownSpreadsOfAll)

/-! ### One directive -/

section Directive
variable {d : Directive}

theorem forbids_of_not_isCondition (h : ¬ isCondition d = true) : d.forbids = false := by
  rw [Directive.forbids, allows_of_not_isCondition h, Bool.not_true, Bool.false_and]

/-- A directive that is given a literal forbids its selection if it is the one that it excludes. -/
theorem forbids_of_literal (h : isCondition d = true) {b : Bool}
    (hb : ∀ assignment, d.condition? assignment = some b) :
    d.forbids = (b == (d.name == ("skip" : Text))) := by
  rw [Directive.forbids, allows_of_isCondition h (hb _), allows_of_isCondition h (hb _), Bool.and_self]
  cases b <;> cases d.name == ("skip" : Text) <;> rfl

theorem forbids_of_variable (h : isCondition d = true) {name : Text}
    (hv : ∀ assignment, d.condition? assignment = some (assignment name)) : d.forbids = false := by
  rw [Directive.forbids, allows_of_isCondition h (hv _), allows_of_isCondition h (hv _)]
  cases d.name == ("skip" : Text) <;> rfl

/-- A directive is given nothing that could be evaluated, or a literal, or a variable. -/
theorem condition?_cases (d : Directive) :
    ((∀ assignment, d.condition? assignment = none) ∧ d.guard? = none) ∨
      (∃ b, (∀ assignment, d.condition? assignment = some b) ∧ d.guard? = none) ∨
      ∃ name, (∀ assignment, d.condition? assignment = some (assignment name)) ∧
        (isCondition d = true → d.guard? = some (name, d.name == ("skip" : Text))) := by
  unfold Directive.condition? Directive.guard?
  cases d.arguments.find? fun a => a.name == ("if" : Text) with
  | none => exact Or.inl ⟨fun _ => rfl, rfl⟩
  | some a =>
    simp only [Option.bind_some]
    cases a.value with
    | «variable» name => exact Or.inr (Or.inr ⟨name, fun _ => rfl, fun hc => if_pos hc⟩)
    | boolean b => exact Or.inr (Or.inl ⟨b, fun _ => rfl, rfl⟩)
    | int _ | float _ | string _ | null | enum _ | list _ | object _ =>
      exact Or.inl ⟨fun _ => rfl, rfl⟩

theorem allows_of_condition?_eq_none {assignment : Text → Bool}
    (h : d.condition? assignment = none) : d.allows assignment = true := by
  rw [Directive.allows, h]
  split_ifs <;> rfl

/-- **A directive without a variable that does not forbid its selection allows it.** -/
theorem allows_of_guard?_eq_none (hf : d.forbids = false) (hg : d.guard? = none)
    (assignment : Text → Bool) : d.allows assignment = true := by
  by_cases hc : isCondition d = true
  · rcases condition?_cases d with ⟨hnone, -⟩ | ⟨b, hb, -⟩ | ⟨name, -, hguard⟩
    · exact allows_of_condition?_eq_none (hnone assignment)
    · rw [forbids_of_literal hc hb] at hf
      rw [allows_of_isCondition hc (hb assignment), bne, hf]
      rfl
    · rw [hguard hc] at hg
      cases hg
  · exact allows_of_not_isCondition hc assignment

theorem not_allows_of_forbids (hf : d.forbids = true) (assignment : Text → Bool) :
    d.allows assignment = false := by
  by_cases hc : isCondition d = true
  · rcases condition?_cases d with ⟨hnone, -⟩ | ⟨b, hb, -⟩ | ⟨name, hname, -⟩
    · rw [Directive.forbids, allows_of_condition?_eq_none (hnone _)] at hf
      cases hf
    · rw [forbids_of_literal hc hb] at hf
      rw [allows_of_isCondition hc (hb assignment), bne, hf]
      rfl
    · rw [forbids_of_variable hc hname] at hf
      cases hf
  · rw [forbids_of_not_isCondition hc] at hf
    cases hf

theorem guard?_of_not_isCondition (h : ¬ isCondition d = true) : d.guard? = none := by
  unfold Directive.guard?
  cases d.arguments.find? fun a => a.name == ("if" : Text) with
  | none => rfl
  | some a =>
    rw [Option.bind_some]
    cases a.value <;> simp [h]

end Directive

/-! ### All directives -/

/-- **What becomes of a selection under its directives.** -/
theorem underConditions_kept {types : List Text} : ∀ {directives : List Directive}
    {s : Typed.Selection} {r : Option Typed.Selection}, underConditions types s directives = .ok r →
      r.toList = kept types directives s
  | [], s, r, h => congrArg Option.toList (Except.ok.inj h).symm
  | d :: rest, s, r, h => by
    rw [underConditions] at h
    rw [kept, areForbidding, List.any_cons, ← areForbidding, List.filterMap_cons]
    split_ifs at h with hc
    · simp only at h
      cases ha : d.arguments.find? fun a => a.name == ("if" : Text) with
      | none => rw [ha] at h; cases h
      | some a =>
        rw [ha] at h
        simp only at h
        cases hv : a.value with
        | boolean b =>
          have hb : ∀ assignment, d.condition? assignment = some b := fun assignment => by
            rw [Directive.condition?, ha, Option.bind_some, hv]
          have hg : d.guard? = none := by rw [Directive.guard?, ha, Option.bind_some, hv]
          rw [hv] at h
          simp only at h
          split_ifs at h with hskip
          · rw [forbids_of_literal hc hb, hskip, beq_self_eq_true, Bool.true_or, if_pos rfl]
            exact congrArg Option.toList (Except.ok.inj h).symm
          · rw [forbids_of_literal hc hb, beq_eq_false_iff_ne.mpr hskip, Bool.false_or, hg]
            exact underConditions_kept h
        | «variable» name =>
          have hvar : ∀ assignment, d.condition? assignment = some (assignment name) :=
            fun assignment => by rw [Directive.condition?, ha, Option.bind_some, hv]
          have hg : d.guard? = some (name, d.name == ("skip" : Text)) := by
            rw [Directive.guard?, ha, Option.bind_some, hv]
            exact if_pos hc
          rw [hv] at h
          rw [forbids_of_variable hc hvar, Bool.false_or, hg]
          exact underConditions_kept h
        | int _ | float _ | string _ | null | enum _ | list _ | object _ => rw [hv] at h; cases h
    · rw [forbids_of_not_isCondition hc, Bool.false_or, guard?_of_not_isCondition hc]
      exact underConditions_kept h

/-- A selection whose directives name no variable is selected, unless it is dropped. -/
theorem isSelected_of_unguarded {s : Document.Selection} (hf : areForbidding s.directives = false)
    (hg : s.directives.filterMap Directive.guard? = []) (assignment : Text → Bool) :
    s.isSelected assignment = true := by
  rw [Document.Selection.isSelected, List.all_eq_true]
  intro d hd
  refine allows_of_guard?_eq_none ?_ (List.filterMap_eq_nil_iff.mp hg d hd) assignment
  rw [areForbidding, List.any_eq_false] at hf
  simpa using hf d hd

/-- A selection that is dropped is selected under no assignment. -/
theorem isSelected_of_areForbidding {s : Document.Selection}
    (h : areForbidding s.directives = true) (assignment : Text → Bool) :
    s.isSelected assignment = false := by
  obtain ⟨d, hd, hf⟩ := List.any_eq_true.mp h
  rw [Document.Selection.isSelected, List.all_eq_false]
  exact ⟨d, hd, by rw [not_allows_of_forbids hf]; exact Bool.false_ne_true⟩

/-! ### Spreads under conditions -/

section Spreads
variable {table : Table} {types : List Text}

theorem ownSpreads_guarded (guards : List (Text × Bool)) (s : Typed.Selection) :
    (guarded types s guards).ownSpreads = s.ownSpreads := by
  induction guards generalizing s with
  | nil => rfl
  | cons g rest ih =>
    refine (ih _).trans ?_
    rw [Typed.Selection.ownSpreads, Typed.ownSpreadsOfNested, ownSpreadsOfAll, ownSpreadsOfAll,
      List.append_nil]

theorem linked_guarded (guards : List (Text × Bool)) {s : Typed.Selection} (h : Linked table [s]) :
    Linked table [guarded types s guards] := by
  induction guards generalizing s with
  | nil => exact h
  | cons g rest ih =>
    refine ih (.single (fun _ _ _ he => by cases he) fun set hs => ?_)
    obtain rfl := Option.some.inj hs
    exact h

theorem ownSpreads_kept (directives : List Directive) (s : Typed.Selection) :
    ownSpreadsOfAll (kept types directives s) =
      if areForbidding directives then [] else s.ownSpreads := by
  rw [kept]
  split_ifs with hf
  · rfl
  · rw [ownSpreadsOfAll, ownSpreadsOfAll, ownSpreads_guarded, List.append_nil]

theorem linked_kept (directives : List Directive) {s : Typed.Selection} (h : Linked table [s]) :
    Linked table (kept types directives s) := by
  rw [kept]
  split_ifs with hf
  · exact .nil
  · exact linked_guarded _ h

end Spreads

end Resolve

end QueryCompiler
