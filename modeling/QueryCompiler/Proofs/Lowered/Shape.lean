import QueryCompiler.Proofs.Lowered.Within
import QueryCompiler.Proofs.TypeCase.Layers

/-!
# The shape of a lowered set

What code generators rely on without checking it: an inline fragment is for one concrete type, and it
repeats what the body around it says, so that it can be read by itself.

* `Body.IsShaped`: the response keys in each list of fields are distinct; an inline fragment has a type
  of the set, and at least the fields and spreads of the body; a set on one type has none.
* `visibleSpreads_sublist`: fewer types see more spreads.
* `fits_bodyOf`: the inline fragment of a record fits, since the record is a layer on the default one.
* `Body.MadeFrom.isShaped`: so a body that is made from a set is shaped, at any depth (`body_shaped`).
-/

namespace QueryCompiler

namespace Typed

mutual

theorem Selection.visibleSpreads_sublist {group group' found found' : List Text}
    (hgroup : ∀ t ∈ group', t ∈ group) : ∀ {s : Selection}, s.visibleSpreads group = .ok found →
      s.visibleSpreads group' = .ok found' → found.Sublist found'
  | .field _ _, h, h' | .spread _ _ _, h, h' => by
    rw [← Except.ok.inj h, ← Except.ok.inj h']
  | .typeCondition _ none, h, _ => by cases h
  | .typeCondition _ (some (.mk possibleTypes selections)), h, h' => by
    rw [Selection.visibleSpreads] at h h'
    split_ifs at h with hcovers
    · have hcovers' : covers possibleTypes group' = true :=
        covers_iff.mpr fun t ht => covers_iff.mp hcovers t (hgroup t ht)
      rw [if_pos hcovers'] at h'
      exact visibleSpreadsOfAll_sublist hgroup h h'
    · rw [← Except.ok.inj h]
      exact List.nil_sublist _
  | .booleanCondition _ _ none, h, _ => by cases h
  | .booleanCondition _ _ (some (.mk _ selections)), h, h' =>
    visibleSpreadsOfAll_sublist hgroup h h'

/-- **Fewer types see more spreads**, since more conditions cover them. -/
theorem visibleSpreadsOfAll_sublist {group group' found found' : List Text}
    (hgroup : ∀ t ∈ group', t ∈ group) : ∀ {selections : List Selection},
      visibleSpreadsOfAll group selections = .ok found →
      visibleSpreadsOfAll group' selections = .ok found' → found.Sublist found'
  | [], h, h' => by
    rw [← Except.ok.inj h, ← Except.ok.inj h']
  | s :: rest, h, h' => by
    rw [visibleSpreadsOfAll] at h h'
    obtain ⟨first, h₁, h⟩ := Success.bind_eq_ok.mp h
    obtain ⟨others, h₂, h⟩ := Success.bind_eq_ok.mp h
    obtain ⟨first', h₁', h'⟩ := Success.bind_eq_ok.mp h'
    obtain ⟨others', h₂', h'⟩ := Success.bind_eq_ok.mp h'
    rw [← Except.ok.inj h, ← Except.ok.inj h']
    exact (s.visibleSpreads_sublist hgroup h₁ h₁').append
      (visibleSpreadsOfAll_sublist hgroup h₂ h₂')

end

end Typed

namespace Lowered

open Typed

/-! ### Shapes -/

/-- The response names of fields, in order. -/
def namesOf (fields : List Field) : List Text := fields.map fun f => f.head.responseName

/-- The inline fragment fits the body of a set on some types: it is for one of them, it has fields,
under distinct names, it has the names of the body, unconditional ones as such, and its spreads. -/
structure InlineFragment.Fits (types : List Text) (b : Body) (i : InlineFragment) : Prop where
  distinct : (namesOf i.fields).Nodup
  nonempty : i.fields ≠ []
  single : i.possibleTypes = [i.typeCondition]
  within : i.typeCondition ∈ types
  includes : ∀ f ∈ b.fields, ∃ g ∈ i.fields, g.head.responseName = f.head.responseName ∧
    (f.head.isConditional = false → g.head.isConditional = false)
  spreads : b.spreads.Sublist i.spreads

/-- The shape of the body of a set on some types: its fields have distinct names, its inline fragments
fit it, and it has none if no two of the types are different. -/
structure Body.IsShaped (types : List Text) (b : Body) : Prop where
  distinct : (namesOf b.fields).Nodup
  fits : ∀ i ∈ b.inlineFragments, i.Fits types b
  plain : (∀ t ∈ types, ∀ u ∈ types, t = u) → b.inlineFragments = []

/-! ### Lowered fields -/

section Fields
variable {settings : Settings} {levels : Nat} {fields : List Typed.Field} {lowered : List Field}

/-- The response names of lowered fields are their response keys. -/
theorem namesOf_lowered (h : fields.mapM (fieldWithin settings levels) = .ok lowered) :
    namesOf lowered = keysOf fields := by
  rw [namesOf, keysOf, ← List.forall₂_eq_eq_eq, List.forall₂_map_left_iff,
    List.forall₂_map_right_iff]
  refine (Success.mapM_eq_ok.mp h).flip.imp fun g f hg => ?_
  rw [(fieldWithin_ok hg).1]
  rfl

/-- Lowered fields include others if the fields do. -/
theorem includes_lowered {others : List Typed.Field} {lowered' : List Field}
    (h : fields.mapM (fieldWithin settings levels) = .ok lowered)
    (h' : others.mapM (fieldWithin settings levels) = .ok lowered')
    (hincludes : Includes fields others) :
    ∀ f ∈ lowered, ∃ g ∈ lowered', g.head.responseName = f.head.responseName ∧
      (f.head.isConditional = false → g.head.isConditional = false) := by
  intro f hf
  obtain ⟨source, hsource, hlower⟩ := Success.mem_of_mapM h hf
  obtain ⟨source', hsource', hprovides⟩ := hincludes source hsource
  obtain ⟨g, hg, hlower'⟩ := Success.exists_mem_of_mapM h' hsource'
  refine ⟨g, hg, ?_⟩
  rw [(fieldWithin_ok hlower).1, (fieldWithin_ok hlower').1]
  exact hprovides

end Fields

/-! ### Bodies -/

section Bodies
variable {spreads : Bool} {limit : Nat} {s : SelectionSet} {b : Body}

/-- The types of a record are possible types, but not all of them. -/
theorem CaseFor.ne_of_mem {c : TypeCase} (hc : CaseFor spreads s c) {r : TypeRecord}
    (hr : r ∈ c.records) {t : Text} (ht : t ∈ r.possibleTypes) :
    t ∈ s.possibleTypes ∧ ∃ u ∈ s.possibleTypes, t ≠ u := by
  have hpart : r.possibleTypes ∈ c.parts := List.mem_map_of_mem hr
  refine ⟨hc.types ▸ hc.valid.within _ hpart t ht, ?_⟩
  by_contra hsame
  push Not at hsame
  have hnarrow := hc.valid.narrow _ hpart
  rw [TypeCase.isDefault, hc.types, Bool.eq_false_iff, Ne, covers_iff] at hnarrow
  exact hnarrow fun u hu => hsame u hu ▸ ht

/-- **The inline fragments of a layered case fit the body.** -/
theorem fits_bodyOf {settings : Settings} {levels : Nat} {c : TypeCase}
    (hcase : CaseFor spreads s c) (hlayers : c.Layered)
    (hb : bodyOf (fieldWithin settings levels) s c = .ok b) {i : InlineFragment}
    (hi : i ∈ b.inlineFragments) : i.Fits s.possibleTypes b := by
  obtain ⟨hfields, hspreads, -⟩ := bodyOf_eq_ok hb
  obtain ⟨r, hr, hadds, hsingle, ht, hm, hv⟩ := exists_of_mem_inlineFragments hb hi
  have hwithin : ∀ t ∈ r.possibleTypes, t ∈ s.possibleTypes := fun t ht => (hcase.ne_of_mem hr ht).1
  have hlayer := hlayers.records r hr
  have hnames : namesOf i.fields = keysOf r.fields := namesOf_lowered hm
  refine ⟨hnames ▸ hlayer.distinct, fun hnil => ?_, hsingle, hwithin _ ht,
    includes_lowered hfields hm hlayer.includes,
    visibleSpreadsOfAll_sublist hwithin hspreads hv⟩
  -- a record without fields adds no code
  rw [hnil] at hnames
  have hempty : r.fields = [] := List.map_eq_nil_iff.mp hnames.symm
  rw [(hcase.addsNothing_iff hr).mpr hempty] at hadds
  cases hadds

theorem Body.MadeFrom.isShaped (h : b.MadeFrom spreads limit s) :
    b.IsShaped s.possibleTypes := by
  obtain ⟨levels, c, hc, hb⟩ := h
  have hcase := caseFor_typeCaseOf hc
  have hlayers := typeCaseOf_layered hc
  refine ⟨?_, fun i hi => fits_bodyOf hcase hlayers hb hi, fun hsame => ?_⟩
  · rw [namesOf_lowered (bodyOf_eq_ok hb).1]
    exact hlayers.default
  · refine List.eq_nil_iff_forall_not_mem.mpr fun i hi => ?_
    obtain ⟨r, hr, -, -, ht, -⟩ := exists_of_mem_inlineFragments hb hi
    obtain ⟨hmem, u, hu, hne⟩ := hcase.ne_of_mem hr ht
    exact hne (hsame _ hmem u hu)

/-- **The shape of every lowered tree.** Whatever the set and the options are, if the set is lowered,
then every body in the result, at any depth, is made from a set whose selections stand somewhere in
it; and whichever set a body is made from, it has the shape of a body for the possible types of that
set. -/
theorem body_shaped {options : CompilerOptions} (h : body (.ofOptions {} options) s = .ok b) :
    b.MadeFrom options.mergeInFieldsFromFragmentSpreads options.maxSelectionDepth.toNat s ∧
      ∀ inner : Body, inner.Within b →
        (∃ set : SelectionSet, inner.MadeFrom options.mergeInFieldsFromFragmentSpreads
          options.maxSelectionDepth.toNat set ∧
          ∀ x, Occurs x set.selections → Occurs x s.selections) ∧
        ∀ set : SelectionSet, inner.MadeFrom options.mergeInFieldsFromFragmentSpreads
          options.maxSelectionDepth.toNat set → inner.IsShaped set.possibleTypes := by
  have hmade := madeFrom_body h
  exact ⟨hmade, fun inner hinner => ⟨hinner.made hmade, fun set hset => hset.isShaped⟩⟩

theorem body_shaped_spreading : ∃ b,
    body (.ofOptions {} { maxSelectionDepth := 3 }) spreading = .ok b ∧
    b.inlineFragments.map (fun i => (i.typeCondition, namesOf i.fields, i.spreads)) =
      ([("A", ["x", "y"], ["H", "F"]), ("B", ["x", "y", "z"], ["H", "F"]),
        ("C", ["x", "z"], ["F"])] : List (Text × List Text × List Text)) ∧
    b.IsShaped spreading.possibleTypes := by
  obtain ⟨b, hb⟩ : ∃ b, body (.ofOptions {} { maxSelectionDepth := 3 }) spreading = .ok b :=
    ⟨_, rfl⟩
  obtain ⟨hmade, hshaped⟩ := body_shaped hb
  refine ⟨b, hb, ?_, (hshaped b .refl).2 spreading hmade⟩
  obtain rfl := Except.ok.inj hb
  decide

end Bodies

end Lowered

end QueryCompiler
