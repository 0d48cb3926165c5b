import QueryCompiler.Proofs.Typed.Rules

/-!
# Resolving keeps the spreads

The typed form of selections spreads what the selections spread, apart from the spreads that a literal
keeps out (`Resolves.ownSpreads_eq`).

* `spreadNames`: the spreads of selections, or of a document, without those in selections that are
  skipped for their directives.
-/

namespace QueryCompiler

namespace Document

/-! ### The spreads of a document -/

mutual

/-- The names that a selection spreads at any depth, but none in selections with directives that are
skipped. -/
def Selection.spreadNames (skips : List Directive → Bool) : Selection → List Text
  | .field head selections =>
    if skips head.directives then [] else spreadNamesOfAll skips selections
  | .spread head => if skips head.directives then [] else [head.name]
  | .inline head selections =>
    if skips head.directives then [] else spreadNamesOfAll skips selections

/-- The names that selections spread one after the other. -/
def spreadNamesOfAll (skips : List Directive → Bool) : List Selection → List Text
  | [] => []
  | s :: rest => s.spreadNames skips ++ spreadNamesOfAll skips rest

end

/-- The names that the definitions of a document spread. -/
def spreadNames (skips : List Directive → Bool) (d : Document) : List Text :=
  d.operations.flatMap (fun o => spreadNamesOfAll skips o.selections) ++
    d.fragments.flatMap fun f => spreadNamesOfAll skips f.selections

end Document

namespace Typed

open Document (spreadNamesOfAll areForbidding)
open Resolve (ownSpreads_kept)

/-- **Selections that resolve spread what they spread in the document**, without what is dropped. -/
theorem Resolves.ownSpreads_eq {schema : Schema} {definitions : List Document.Fragment}
    {types : List Text} {selections : List Document.Selection} {typed : List Selection}
    (h : Resolves schema definitions types selections typed) :
    ownSpreadsOfAll typed = spreadNamesOfAll areForbidding selections := by
  induction h with
  | nil => rfl
  | leaf _ _ _ ih => rw [ownSpreadsOfAll_append, ownSpreads_kept, ih]; rfl
  | field _ _ _ _ ihi ih =>
    rw [ownSpreadsOfAll_append, ownSpreads_kept, ih, Selection.ownSpreads, ownSpreadsOfNested, ihi]
    rfl
  | inlineAny _ _ _ _ ihi ih =>
    rw [ownSpreadsOfAll_append, ownSpreads_kept, ih, Selection.ownSpreads, ownSpreadsOfNested, ihi]
    rfl
  | inlineOn _ _ _ _ ihi ih =>
    rw [ownSpreadsOfAll_append, ownSpreads_kept, ih, Selection.ownSpreads, ownSpreadsOfNested, ihi]
    rfl
  | spread _ _ _ _ _ ih => rw [ownSpreadsOfAll_append, ownSpreads_kept, ih]; rfl

end Typed

end QueryCompiler
