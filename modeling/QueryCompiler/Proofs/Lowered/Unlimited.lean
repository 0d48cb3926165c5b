import QueryCompiler.Proofs.Lowered.Depth

/-!
# Lowering without a limit

A lowering that counts no levels recurs through sets that are merged on the way, which are no parts of
the set that it starts with. It comes to an end because they are no higher (`heightOfAll_lt`), so the
lowering that is left as many levels as a field is high is one without a limit
(`fieldFully_lowersFully`).

The limit cuts its results and does nothing else (`Cut`): what has few enough levels is lowered alike,
what has more is refused for its levels, and what cannot be lowered still cannot (`body_limit_exact`).
-/

namespace QueryCompiler

open Success (FailsOnly failsOnly_ok)

namespace Typed

/-! ### The height of selections -/

mutual

/-- How many selection sets stand inside each other in the fields of the selection, at most. Conditions
and spreads are on the level of the set that they stand in. -/
def Selection.height : Selection → Nat
  | .field _ none | .typeCondition _ none | .booleanCondition _ _ none | .spread _ _ none => 0
  | .field _ (some (.mk _ selections)) => heightOfAll selections + 1
  | .typeCondition _ (some (.mk _ selections)) => heightOfAll selections
  | .booleanCondition _ _ (some (.mk _ selections)) => heightOfAll selections
  | .spread _ _ (some (.mk _ selections)) => heightOfAll selections

/-- The height of the highest of selections. -/
def heightOfAll : List Selection → Nat
  | [] => 0
  | s :: rest => max s.height (heightOfAll rest)

end

/-- How many selection sets stand inside each other in the field, at most. -/
def Field.height (f : Field) : Nat := (Selection.field f.head f.nested).height

section Height
variable {spreads : Bool} {inner : SelectionSet} {selections : List Selection}

theorem Selection.height_entered {s : Selection} (h : s.entered spreads = some inner) :
    heightOfAll inner.selections ≤ s.height := by
  obtain ⟨types, selections⟩ := inner
  cases s with
  | field => cases h
  | typeCondition | booleanCondition =>
    obtain rfl : _ = some (SelectionSet.mk types selections) := h
    exact Nat.le_refl _
  | spread =>
    cases spreads with
    | false => cases h
    | true =>
      obtain rfl : _ = some (SelectionSet.mk types selections) := h
      exact Nat.le_refl _

/-- The set of a field is less high than the selections that show the field. -/
theorem heightOfAll_lt (h : Shows spreads inner selections) :
    heightOfAll inner.selections < heightOfAll selections := by
  induction h with
  | @here head rest =>
    obtain ⟨types, selections⟩ := inner
    simp only [heightOfAll, Selection.height, SelectionSet.selections]
    omega
  | @entered s set rest hs _ ih =>
    have hset := s.height_entered hs
    simp only [heightOfAll]
    omega
  | @later s rest _ ih =>
    simp only [heightOfAll]
    omega

theorem nestsWithin_of_height {levels : Nat} (h : heightOfAll selections < levels) :
    NestsWithin spreads levels selections := by
  induction levels generalizing selections with
  | zero => omega
  | succ levels ih =>
    intro inner hi
    have hlt := heightOfAll_lt hi
    exact ih (by omega)

theorem Field.inside_of_height {f : Field} {levels : Nat} (h : f.height ≤ levels) :
    f.Inside (NestsWithin spreads levels) := by
  obtain ⟨head, nested⟩ := f
  rintro ⟨types, selections⟩ rfl
  exact nestsWithin_of_height h

end Height

end Typed

namespace Lowered

open Typed (SelectionSet TypeCase NestsWithin)

variable {spreads : Bool} {limit : Nat}

/-! ### The lowering -/

/-- The function lowers fields and all that is inside them, on however many levels. -/
structure LowersFully (spreads : Bool) (lower : Typed.Field → Except LoweringError Field) : Prop where
  leaf : ∀ head, lower ⟨head, none⟩ = .ok (.mk (headOf head) none)
  nested : ∀ head s, lower ⟨head, some s⟩ = do
    let typeCase ← (if spreads then s.inlined else s).typeCase
    let body ← bodyOf lower s typeCase
    return .mk (headOf head) (some body)

/-- A field, with all levels that it has. -/
def fieldFully (spreads : Bool) (f : Typed.Field) : Except LoweringError Field :=
  fieldWithin ⟨{}, spreads, 0⟩ f.height f

/-- A root selection set, with all levels that it has. -/
def bodyFully (spreads : Bool) (s : SelectionSet) : Except LoweringError Body := do
  bodyOf (fieldFully spreads) s (← (if spreads then s.inlined else s).typeCase)

/-- What is inside the fields of the case of a set nests on one level less than the set. -/
theorem typeCaseOf_nestsWithin {levels : Nat} {s : SelectionSet} {c : TypeCase}
    (hs : NestsWithin spreads (levels + 1) s.selections)
    (h : typeCaseOf ⟨{}, spreads, limit⟩ s = .ok c) : c.Insides (NestsWithin spreads levels) :=
  typeCaseOf_insides (fun _ _ => NestsWithin.append) hs h

theorem bodyOf_congr {kind : Typed.Field → Prop}
    {lower lower' : Typed.Field → Except LoweringError Field} {s : SelectionSet} {c : TypeCase}
    (hc : c.Has kind) (h : ∀ f, kind f → lower f = lower' f) :
    bodyOf lower s c = bodyOf lower' s c := by
  have hdefault : c.default.fields.mapM lower = c.default.fields.mapM lower' :=
    Success.mapM_congr fun f hf => h f (hc.default f hf)
  have hrecords : (c.records.filter fun r => !addsNothing s r).mapM (inlineFragments lower s) =
      (c.records.filter fun r => !addsNothing s r).mapM (inlineFragments lower' s) := by
    refine Success.mapM_congr fun r hr => ?_
    have hfields : r.fields.mapM lower = r.fields.mapM lower' :=
      Success.mapM_congr fun f hf => h f (hc.records r (List.mem_of_mem_filter hr) f hf)
    rw [inlineFragments, inlineFragments, hfields]
  simp only [bodyOf, hdefault, hrecords]

/-- **More levels than a field has make no difference.** -/
theorem fieldWithin_stable (limit limit' : Nat) {levels levels' : Nat} {f : Typed.Field}
    (h : levels ≤ levels') (hf : f.Inside (NestsWithin spreads levels)) :
    fieldWithin ⟨{}, spreads, limit'⟩ levels' f = fieldWithin ⟨{}, spreads, limit⟩ levels f := by
  induction levels generalizing levels' f with
  | zero =>
    obtain ⟨head, _ | s⟩ := f
    · cases levels' <;> rfl
    · exact absurd (hf s rfl) id
  | succ levels ih =>
    obtain ⟨k, rfl⟩ : ∃ k, levels' = k + 1 := ⟨levels' - 1, by omega⟩
    have hle : levels ≤ k := by omega
    obtain ⟨head, _ | s⟩ := f
    · rfl
    · refine Success.bind_congr fun c hc => ?_
      have hinsides := typeCaseOf_nestsWithin (hf s rfl) hc
      have hbody := bodyOf_congr (s := s) hinsides fun f hf => ih hle hf
      rw [hbody]

/-- The levels that a field has are as good as any number of levels that it nests on. -/
theorem fieldFully_eq (limit : Nat) {levels : Nat} {f : Typed.Field}
    (hf : f.Inside (NestsWithin spreads levels)) :
    fieldFully spreads f = fieldWithin ⟨{}, spreads, limit⟩ levels f := by
  have hheight : f.Inside (NestsWithin spreads f.height) :=
    Typed.Field.inside_of_height (Nat.le_refl _)
  have hmore := fieldWithin_stable limit 0 (Nat.le_max_left levels f.height) hf
  have hmore' := fieldWithin_stable 0 0 (Nat.le_max_right levels f.height) hheight
  exact hmore'.symm.trans hmore

/-- **There is a lowering without a limit.** -/
theorem fieldFully_lowersFully (spreads : Bool) : LowersFully spreads (fieldFully spreads) := by
  refine ⟨fun head => rfl, fun head s => ?_⟩
  obtain ⟨types, selections⟩ := s
  have hnests : NestsWithin spreads (Typed.heightOfAll selections + 1) selections :=
    Typed.nestsWithin_of_height (Nat.lt_succ_self _)
  have hstep : fieldFully spreads ⟨head, some (.mk types selections)⟩ =
    fieldWithin ⟨{}, spreads, 0⟩ (Typed.heightOfAll selections + 1)
      ⟨head, some (.mk types selections)⟩ := rfl
  rw [hstep]
  refine Success.bind_congr fun c hc => ?_
  -- The fields of the case are merged, so they are left as many levels as the set, not as they have.
  have hinsides := typeCaseOf_nestsWithin hnests hc
  have hbody := bodyOf_congr (s := .mk types selections) hinsides fun f hf => fieldFully_eq 0 hf
  rw [hbody]

/-- Without a limit nothing is refused but conditions that have no set. -/
theorem LowersFully.failsBare {lower : Typed.Field → Except LoweringError Field}
    (hlower : LowersFully spreads lower) (f : Typed.Field) :
    FailsOnly LoweringError.IsBare (lower f) := by
  have hf : f.Inside (NestsWithin spreads f.height) :=
    Typed.Field.inside_of_height (Nat.le_refl _)
  generalize f.height = levels at hf
  induction levels generalizing f with
  | zero =>
    obtain ⟨head, _ | s⟩ := f
    · rw [hlower.leaf]
      exact failsOnly_ok _
    · exact absurd (hf s rfl) id
  | succ levels ih =>
    obtain ⟨head, _ | s⟩ := f
    · rw [hlower.leaf]
      exact failsOnly_ok _
    · rw [hlower.nested]
      refine FailsOnly.bind (Typed.walkAll_failsBare _ _ _ _) fun c hc => ?_
      have hcase : typeCaseOf ⟨{}, spreads, 0⟩ s = .ok c := hc
      have hinsides := typeCaseOf_nestsWithin (hf s rfl) hcase
      have hspreads := fun types => Typed.visibleSpreadsOfAll_failsBare types s.selections
      exact (bodyOf_failsOnly hinsides hspreads ih).bind fun _ _ => failsOnly_ok _

/-! ### The levels of what is lowered -/

mutual

/-- The levels of selection sets in a field. -/
def Field.levels : Field → Nat
  | .mk _ none => 0
  | .mk _ (some body) => body.levels

/-- The levels of selection sets in a body, the body itself being the first. The fields of its inline
fragments are on its level. -/
def Body.levels : Body → Nat
  | .mk fields _ inlineFragments =>
    max (levelsOfFields fields) (levelsOfInlineFragments inlineFragments) + 1

/-- The most levels of selection sets in fields. -/
def levelsOfFields : List Field → Nat
  | [] => 0
  | f :: rest => max f.levels (levelsOfFields rest)

/-- The most levels of selection sets in the fields of inline fragments. -/
def levelsOfInlineFragments : List InlineFragment → Nat
  | [] => 0
  | .mk _ _ fields _ :: rest => max (levelsOfFields fields) (levelsOfInlineFragments rest)

end

section Levels
variable {n : Nat}

theorem levelsOfFields_le {fields : List Field} :
    levelsOfFields fields ≤ n ↔ ∀ f ∈ fields, f.levels ≤ n := by
  induction fields with
  | nil => simp [levelsOfFields]
  | cons f rest ih => rw [levelsOfFields, Nat.max_le, ih, List.forall_mem_cons]

theorem levelsOfInlineFragments_le {inline : List InlineFragment} :
    levelsOfInlineFragments inline ≤ n ↔ ∀ i ∈ inline, ∀ f ∈ i.fields, f.levels ≤ n := by
  induction inline with
  | nil => simp [levelsOfInlineFragments]
  | cons i rest ih =>
    obtain ⟨type, types, fields, spreads⟩ := i
    rw [levelsOfInlineFragments, Nat.max_le, ih, levelsOfFields_le, List.forall_mem_cons]
    rfl

theorem Body.levels_le {fields : List Field} {spreads : List Text} {inline : List InlineFragment} :
    (Body.mk fields spreads inline).levels ≤ n + 1 ↔
      (∀ f ∈ fields, f.levels ≤ n) ∧ ∀ i ∈ inline, ∀ f ∈ i.fields, f.levels ≤ n := by
  rw [Body.levels, Nat.add_le_add_iff_right, Nat.max_le, levelsOfFields_le,
    levelsOfInlineFragments_le]

theorem Body.levels_pos (b : Body) : 0 < b.levels := by
  obtain ⟨fields, spreads, inline⟩ := b
  exact Nat.succ_pos _

end Levels

/-! ### Cutting -/

/-- One computation is the other, cut by a limit: it gives the results that fit, refuses the others for
their levels, and fails where the other does. -/
structure Cut {α : Type} (limit : Nat) (fits : α → Prop) (full cut : Except LoweringError α) :
    Prop where
  fails : ∀ e, full = .error e → ∃ e', cut = .error e'
  kept : ∀ a, full = .ok a → fits a → cut = .ok a
  refused : ∀ a, full = .ok a → ¬ fits a → ∃ key, cut = .error (.selectionNesting limit key)

namespace Cut

variable {α β : Type} {fits : α → Prop} {fits' : β → Prop}

theorem pure {a : α} (h : fits a) : Cut limit fits (.ok a) (.ok a) := by
  refine ⟨nofun, fun b hb _ => hb, fun b hb hn => ?_⟩
  obtain rfl := Except.ok.inj hb
  exact absurd h hn

theorem error {e e' : LoweringError} : Cut limit fits (.error e) (.error e') :=
  ⟨fun _ _ => ⟨e', rfl⟩, nofun, nofun⟩

/-- A step that is the same in both. -/
theorem same {x : Except LoweringError α} {f g : α → Except LoweringError β}
    (h : ∀ a, x = .ok a → Cut limit fits' (f a) (g a)) : Cut limit fits' (x >>= f) (x >>= g) := by
  cases x with
  | error e => exact error
  | ok a => exact h a rfl

/-- A step that is cut. What follows from a result that does not fit must not fit either. -/
theorem bind {full cut : Except LoweringError α} {f g : α → Except LoweringError β}
    (h : Cut limit fits full cut) (hf : ∀ a, fits a → Cut limit fits' (f a) (g a))
    (hdeep : ∀ a b, f a = .ok b → fits' b → fits a) :
    Cut limit fits' (full >>= f) (cut >>= g) := by
  cases hx : full with
  | error e =>
    obtain ⟨e', he'⟩ := h.fails e hx
    rw [he']
    exact error
  | ok a =>
    by_cases ha : fits a
    · rw [h.kept a hx ha]
      exact hf a ha
    · obtain ⟨key, hkey⟩ := h.refused a hx ha
      rw [hkey]
      refine ⟨fun _ _ => ⟨_, rfl⟩, fun b hb hfits => ?_, fun _ _ _ => ⟨key, rfl⟩⟩
      exact absurd (hdeep a b hb hfits) ha

theorem mapM {f g : α → Except LoweringError β} {as : List α}
    (h : ∀ a ∈ as, Cut limit fits' (f a) (g a)) :
    Cut limit (fun bs => ∀ b ∈ bs, fits' b) (as.mapM f) (as.mapM g) := by
  induction as with
  | nil =>
    rw [List.mapM_nil, List.mapM_nil]
    exact pure (List.forall_mem_nil _)
  | cons a as ih =>
    rw [List.forall_mem_cons] at h
    rw [List.mapM_cons, List.mapM_cons]
    refine h.1.bind (fun b hb => (ih h.2).bind (fun bs hbs => ?_) fun bs bs' he hall => ?_)
      fun b bs he hall => ?_
    · exact pure (List.forall_mem_cons.mpr ⟨hb, hbs⟩)
    · obtain rfl := Except.ok.inj he
      exact (List.forall_mem_cons.mp hall).2
    · obtain ⟨bs', -, he⟩ := Success.bind_eq_ok.mp he
      obtain rfl := Except.ok.inj he
      exact (List.forall_mem_cons.mp hall).1

end Cut

section Cuts
variable {n : Nat} {lower cut : Typed.Field → Except LoweringError Field} {s : SelectionSet}

/-- No record is without types, so what does not fit in a record does not fit in a body. -/
theorem cut_inlineFragments (h : ∀ f, Cut limit (·.levels ≤ n) (lower f) (cut f))
    {r : Typed.TypeRecord} (hr : r.possibleTypes ≠ []) :
    Cut limit (fun is => ∀ i ∈ is, ∀ f ∈ i.fields, f.levels ≤ n) (inlineFragments lower s r)
      (inlineFragments cut s r) := by
  refine (Cut.mapM fun f _ => h f).bind (fun fields hfields => Cut.same fun spreads _ => ?_)
    fun fields is he his => ?_
  · refine .pure fun i hi => ?_
    obtain ⟨type, -, rfl⟩ := List.mem_map.mp hi
    exact hfields
  · obtain ⟨spreads, -, he⟩ := Success.bind_eq_ok.mp he
    obtain rfl := Except.ok.inj he
    obtain ⟨type, htype⟩ := List.exists_mem_of_ne_nil _ hr
    exact his _ (List.mem_map_of_mem htype)

/-- **A body has one level more than its fields.** -/
theorem cut_bodyOf (h : ∀ f, Cut limit (·.levels ≤ n) (lower f) (cut f)) {c : TypeCase}
    (hc : c.Valid) : Cut limit (·.levels ≤ n + 1) (bodyOf lower s c) (bodyOf cut s c) := by
  have hrecords : ∀ r ∈ c.records.filter fun r => !addsNothing s r, r.possibleTypes ≠ [] :=
    fun r hr => hc.nonempty _ (List.mem_map_of_mem (List.mem_of_mem_filter hr))
  refine (Cut.mapM fun f _ => h f).bind (fun fields hfields => ?_) fun fields b he hb => ?_
  · refine (Cut.mapM fun r hr => cut_inlineFragments h (hrecords r hr)).bind
      (fun groups hgroups => Cut.same fun spreads _ => ?_) fun groups b he hb => ?_
    · refine .pure (Body.levels_le.mpr ⟨hfields, fun i hi => ?_⟩)
      obtain ⟨group, hgroup, hi⟩ := List.mem_flatten.mp hi
      exact hgroups group hgroup i hi
    · obtain ⟨spreads, -, he⟩ := Success.bind_eq_ok.mp he
      obtain rfl := Except.ok.inj he
      exact fun group hgroup i hi =>
        (Body.levels_le.mp hb).2 i (List.mem_flatten.mpr ⟨group, hgroup, hi⟩)
  · obtain ⟨groups, -, he⟩ := Success.bind_eq_ok.mp he
    obtain ⟨spreads, -, he⟩ := Success.bind_eq_ok.mp he
    obtain rfl := Except.ok.inj he
    exact (Body.levels_le.mp hb).1

end Cuts

/-- **A field is cut by the levels that are left.** -/
theorem cut_fieldWithin {lower : Typed.Field → Except LoweringError Field}
    (hlower : LowersFully spreads lower) (levels : Nat) (f : Typed.Field) :
    Cut limit (·.levels ≤ levels) (lower f) (fieldWithin ⟨{}, spreads, limit⟩ levels f) := by
  induction levels generalizing f with
  | zero =>
    obtain ⟨head, _ | s⟩ := f
    · rw [hlower.leaf]
      exact .pure (Nat.le_refl 0)
    · refine ⟨fun _ _ => ⟨_, rfl⟩, fun g hg hfits => ?_, fun _ _ _ => ⟨_, rfl⟩⟩
      rw [hlower.nested] at hg
      obtain ⟨c, -, hg⟩ := Success.bind_eq_ok.mp hg
      obtain ⟨b, -, hg⟩ := Success.bind_eq_ok.mp hg
      obtain rfl := Except.ok.inj hg
      exact absurd hfits (Nat.not_le_of_lt b.levels_pos)
  | succ levels ih =>
    obtain ⟨head, _ | s⟩ := f
    · rw [hlower.leaf]
      exact .pure (Nat.zero_le _)
    · rw [hlower.nested]
      refine Cut.same fun c hc => ?_
      have hcase : typeCaseOf ⟨{}, spreads, limit⟩ s = .ok c := hc
      have hvalid : c.Valid := (caseFor_typeCaseOf hcase).valid
      refine (cut_bodyOf ih hvalid).bind (fun b hb => .pure hb) fun b g hg hfits => ?_
      obtain rfl := Except.ok.inj hg
      exact hfits

/-! ### Root sets -/

variable {s : SelectionSet}

theorem bodyFully_failsBare : FailsOnly LoweringError.IsBare (bodyFully spreads s) := by
  refine FailsOnly.bind (Typed.walkAll_failsBare _ _ _ _) fun c _ => ?_
  have hinsides : c.Insides fun _ => True :=
    ⟨fun _ _ _ _ => trivial, fun _ _ _ _ _ _ => trivial⟩
  exact bodyOf_failsOnly hinsides
    (fun types => Typed.visibleSpreadsOfAll_failsBare types s.selections)
    fun f _ => (fieldFully_lowersFully spreads).failsBare f

theorem cut_body (h : 1 ≤ limit) :
    Cut limit (·.levels ≤ limit) (bodyFully spreads s) (body ⟨{}, spreads, limit⟩ s) := by
  obtain ⟨k, rfl⟩ : ∃ k, limit = k + 1 := ⟨limit - 1, by omega⟩
  refine Cut.same fun c hc => ?_
  have hcase : typeCaseOf ⟨{}, spreads, k + 1⟩ s = .ok c := hc
  have hvalid : c.Valid := (caseFor_typeCaseOf hcase).valid
  exact cut_bodyOf (cut_fieldWithin (fieldFully_lowersFully spreads) k) hvalid

/-- **The limit of a lowering is exact and otherwise invisible.** A selection set is compared with its
lowering without a limit, which fails only at a condition without a set. Where that fails, lowering the
set fails. Otherwise the result is the same if it has no more levels than the limit, and the set is
refused for its levels if it has more. So no larger limit changes what is lowered. -/
theorem body_limit_exact (h : 1 ≤ limit) :
    LowersFully spreads (fieldFully spreads) ∧
      (∀ e, bodyFully spreads s = .error e →
        e.IsBare ∧ ∃ e', body ⟨{}, spreads, limit⟩ s = .error e') ∧
      (∀ b, bodyFully spreads s = .ok b →
        (b.levels ≤ limit → body ⟨{}, spreads, limit⟩ s = .ok b) ∧
        (limit < b.levels →
          ∃ key, body ⟨{}, spreads, limit⟩ s = .error (.selectionNesting limit key))) ∧
      ∀ limit' b, limit ≤ limit' → body ⟨{}, spreads, limit⟩ s = .ok b →
        body ⟨{}, spreads, limit'⟩ s = .ok b := by
  have hcut : Cut limit (·.levels ≤ limit) (bodyFully spreads s) (body ⟨{}, spreads, limit⟩ s) :=
    cut_body h
  refine ⟨fieldFully_lowersFully spreads,
    fun e he => ⟨bodyFully_failsBare e he, hcut.fails e he⟩,
    fun b hb => ⟨hcut.kept b hb, fun hlt => hcut.refused b hb (Nat.not_le_of_lt hlt)⟩,
    fun limit' b hle hb => ?_⟩
  have hcut' : Cut limit' (·.levels ≤ limit') (bodyFully spreads s)
      (body ⟨{}, spreads, limit'⟩ s) := cut_body (Nat.le_trans h hle)
  cases hfull : bodyFully spreads s with
  | error e =>
    obtain ⟨e', he'⟩ := hcut.fails e hfull
    cases he'.symm.trans hb
  | ok b' =>
    by_cases hfits : b'.levels ≤ limit
    · obtain rfl := Except.ok.inj ((hcut.kept b' hfull hfits).symm.trans hb)
      exact hcut'.kept b' hfull (Nat.le_trans hfits hle)
    · obtain ⟨key, hkey⟩ := hcut.refused b' hfull hfits
      cases hkey.symm.trans hb

/-- Two levels are lowered with a limit of two, and refused with a limit of one. -/
theorem body_limit_exact_spreading : ∃ b, bodyFully true spreading = .ok b ∧ b.levels = 2 ∧
    body ⟨{}, true, 2⟩ spreading = .ok b ∧
    ∃ key, body ⟨{}, true, 1⟩ spreading = .error (.selectionNesting 1 key) := by
  obtain ⟨b, hb, hlevels⟩ : ∃ b, bodyFully true spreading = .ok b ∧ b.levels = 2 :=
    ⟨_, rfl, by decide⟩
  have htwo := (body_limit_exact (Nat.le_succ 1)).2.2.1 b hb
  have hone := (body_limit_exact (Nat.le_refl 1)).2.2.1 b hb
  refine ⟨b, hb, hlevels, htwo.1 (Nat.le_of_eq hlevels), hone.2 ?_⟩
  rw [hlevels]
  exact Nat.lt_succ_self 1

end Lowered

end QueryCompiler
