import QueryCompiler.Proofs.Typed.Meaning
import QueryCompiler.Proofs.Typed.Steps

/-!
# Resolving keeps the meaning

`Agree` is what resolving a list of selections establishes, for all depths at once. It is proved of
each kind of selection (`one_agrees`, `all_agree`), given that spreads resolve to fragments that agree with
their definitions. Fragments are resolved on demand and shared, so that is an invariant of the
fragments found so far (`Sound`), which every step keeps (`Grows`).
-/

namespace QueryCompiler

namespace Typed

open Document (FieldNode Selects Mentions)

/-! ### Reaching fields -/

theorem reachedByAll_append (assignment : Text → Bool) (t : Text) (first second : List Selection) :
    reachedByAll assignment t (first ++ second) =
      reachedByAll assignment t first ++ reachedByAll assignment t second := by
  induction first with
  | nil => rfl
  | cons s rest ih => rw [List.cons_append, reachedByAll, ih, reachedByAll, List.append_assoc]

theorem fieldsOfAll_append (first second : List Selection) :
    fieldsOfAll (first ++ second) = fieldsOfAll first ++ fieldsOfAll second := by
  induction first with
  | nil => rfl
  | cons s rest ih => rw [List.cons_append, fieldsOfAll, ih, fieldsOfAll, List.append_assoc]

end Typed

namespace Document

theorem Mentions.left {definitions : List Fragment} {first second : List Selection}
    {node : FieldNode} (h : Mentions definitions first node) :
    Mentions definitions (first ++ second) node := by
  induction h with
  | field => exact .field
  | inline h _ => exact .inline h
  | spread hd h _ => exact .spread hd h
  | later _ ih => exact .later ih

theorem Mentions.right {definitions : List Fragment} {first second : List Selection}
    {node : FieldNode} (h : Mentions definitions second node) :
    Mentions definitions (first ++ second) node := by
  induction first with
  | nil => exact h
  | cons s rest ih => exact .later ih

end Document

namespace Typed

open Document (FieldNode Selects Mentions)

section Agreement
variable {schema : Schema} {definitions : List Document.Fragment}

theorem FieldOf.mono {inside inside' : List Document.Selection → SelectionSet → Prop}
    (hi : ∀ selections s, inside selections s → inside' selections s) {f : Field} {node : FieldNode}
    (h : FieldOf schema inside f node) : FieldOf schema inside' f node :=
  ⟨h.responseKey, h.name, h.aliasName, h.args, h.leaf,
    fun s hs => ⟨(h.nested s hs).1, hi _ _ (h.nested s hs).2⟩⟩

variable (schema definitions) in
/-- Typed selections agree with selections on some possible types. -/
structure Agree (types : List Text) (selections : List Document.Selection)
    (typed : List Selection) : Prop where
  selects : ∀ t ∈ types, ∀ assignment, ∃ fields,
    Selects schema definitions assignment t selections fields ∧
      List.Forall₂ (FieldOf schema (Means schema definitions)) (reachedByAll assignment t typed) fields
  mentions : ∀ f ∈ fieldsOfAll typed, ∃ node, Mentions definitions selections node ∧
    FieldOf schema (Means schema definitions) f node

/-- Selections that agree mean the same. -/
theorem Agree.means {types : List Text} {selections : List Document.Selection}
    {typed : List Selection} (h : Agree schema definitions types selections typed) :
    Means schema definitions selections (.mk types typed)
  | 0 => trivial
  | depth + 1 => by
    refine ⟨fun t ht assignment => ?_, fun f hf => ?_⟩
    · obtain ⟨fields, hs, hf⟩ := h.selects t ht assignment
      refine ⟨fields, fun l => ⟨fun hl => hl.unique hs, fun hl => hl ▸ hs⟩, hf.imp fun f node hfn => ?_⟩
      exact hfn.mono fun _ _ hm => hm depth
    · obtain ⟨node, hm, hfn⟩ := h.mentions f hf
      exact ⟨node, hm, hfn.mono fun _ _ hm => hm depth⟩

theorem Agree.nil {types : List Text} : Agree schema definitions types [] [] :=
  ⟨fun _ _ _ => ⟨[], .nil, .nil⟩, fun f hf => by cases hf⟩

theorem Agree.append {types : List Text} {first second : List Document.Selection}
    {typed typed' : List Selection} (h : Agree schema definitions types first typed)
    (h' : Agree schema definitions types second typed') :
    Agree schema definitions types (first ++ second) (typed ++ typed') := by
  refine ⟨fun t ht assignment => ?_, fun f hf => ?_⟩
  · obtain ⟨fields, hs, hf⟩ := h.selects t ht assignment
    obtain ⟨fields', hs', hf'⟩ := h'.selects t ht assignment
    rw [reachedByAll_append]
    exact ⟨fields ++ fields', hs.append hs', List.rel_append hf hf'⟩
  · rw [fieldsOfAll_append] at hf
    rcases List.mem_append.mp hf with hf | hf
    · obtain ⟨node, hm, hfn⟩ := h.mentions f hf
      exact ⟨node, hm.left, hfn⟩
    · obtain ⟨node, hm, hfn⟩ := h'.mentions f hf
      exact ⟨node, hm.right, hfn⟩

end Agreement

end Typed

namespace Resolve

open Document (FieldNode Selects Mentions)
open Typed (FieldHead reachedByAll fieldsOfAll Agree FieldOf Means intersect)

/-! ### Conditions -/

theorem isCondition_iff {d : Document.Directive} : isCondition d = true ↔
    d.name = ("include" : Text) ∨ d.name = ("skip" : Text) := by
  simp [isCondition]

theorem allows_of_not_isCondition {d : Document.Directive} (h : ¬ isCondition d = true)
    (assignment : Text → Bool) : d.allows assignment = true := by
  rw [isCondition_iff, not_or] at h
  rw [Document.Directive.allows, if_neg h.1, if_neg h.2]

/-- A conditional directive that is given a boolean allows its selection if the boolean is not the
one that `skip` excludes. -/
theorem allows_of_isCondition {d : Document.Directive} (h : isCondition d = true)
    {assignment : Text → Bool} {b : Bool} (hb : d.condition? assignment = some b) :
    d.allows assignment = (b != (d.name == ("skip" : Text))) := by
  have hne : ¬ ("include" : Text) = ("skip" : Text) := by decide
  rcases isCondition_iff.mp h with hn | hn
  · rw [Document.Directive.allows, if_pos hn, hb, hn]
    cases b <;> rfl
  · rw [Document.Directive.allows, if_neg (by rw [hn]; exact fun e => hne e.symm), if_pos hn, hb, hn]
    cases b <;> rfl

/-- **Conditions keep the fields of a selection exactly when its directives allow it.** -/
theorem underConditions_spec {types : List Text} : ∀ {directives : List Document.Directive}
    {s : Typed.Selection} {r : Option Typed.Selection},
      underConditions types s directives = .ok r →
      (∀ assignment t, reachedByAll assignment t r.toList =
        if directives.all (Document.Directive.allows assignment) then s.reached assignment t else []) ∧
      ∀ f ∈ fieldsOfAll r.toList, f ∈ s.fields
  | [], s, r, h => by
    obtain rfl := Except.ok.inj h
    exact ⟨fun _ _ => by simp [reachedByAll], fun f hf => by simpa [fieldsOfAll] using hf⟩
  | d :: rest, s, r, h => by
    rw [underConditions] at h
    split at h
    · rename_i hc
      simp only at h
      split at h
      · cases h
      · rename_i argument ha
        split at h
        · rename_i b hv
          have hcond : ∀ assignment, d.condition? assignment = some b := fun assignment => by
            rw [Document.Directive.condition?, ha]; simp [hv]
          split at h
          · rename_i hb
            obtain rfl := Except.ok.inj h
            refine ⟨fun assignment t => ?_, fun f hf => by cases hf⟩
            rw [List.all_cons, allows_of_isCondition hc (hcond assignment), hb]
            simp [reachedByAll]
          · rename_i hb
            obtain ⟨hr, hf⟩ := underConditions_spec h
            refine ⟨fun assignment t => ?_, hf⟩
            rw [hr, List.all_cons, allows_of_isCondition hc (hcond assignment)]
            simp [hb]
        · rename_i name hv
          have hcond : ∀ assignment, d.condition? assignment = some (assignment name) :=
            fun assignment => by rw [Document.Directive.condition?, ha]; simp [hv]
          obtain ⟨hr, hf⟩ := underConditions_spec h
          refine ⟨fun assignment t => ?_, fun f hf' => ?_⟩
          · rw [hr, List.all_cons, allows_of_isCondition hc (hcond assignment),
              Typed.Selection.reached]
            by_cases hb : assignment name = (d.name == ("skip" : Text))
            · simp [hb]
            · simp [hb, reachedByAll]
          · simpa [Typed.Selection.fields, fieldsOfAll] using hf f hf'
        · cases h
    · rename_i hc
      obtain ⟨hr, hf⟩ := underConditions_spec h
      refine ⟨fun assignment t => ?_, hf⟩
      rw [hr, List.all_cons, allows_of_not_isCondition hc, Bool.true_and]

section Selections
variable {schema : Schema} {definitions : List Document.Fragment}

/-- A selection and its typed form agree under the directives of the selection, if they agree when
the directives allow it. -/
theorem underConditions_agrees {types : List Text} {s : Document.Selection} {x : Typed.Selection}
    {r : Option Typed.Selection} (hu : underConditions types x s.directives = .ok r)
    (hs : ∀ t ∈ types, ∀ assignment, s.isSelected assignment = true → ∃ fields,
      Selects schema definitions assignment t [s] fields ∧
        List.Forall₂ (FieldOf schema (Means schema definitions)) (x.reached assignment t) fields)
    (hm : ∀ f ∈ x.fields, ∃ node, Mentions definitions [s] node ∧
      FieldOf schema (Means schema definitions) f node) :
    Agree schema definitions types [s] r.toList := by
  obtain ⟨hr, hf⟩ := underConditions_spec hu
  refine ⟨fun t ht assignment => ?_, fun f hf' => hm f (hf f hf')⟩
  rw [hr assignment t]
  by_cases hsel : s.isSelected assignment = true
  · rw [if_pos (by exact hsel)]
    exact hs t ht assignment hsel
  · rw [if_neg (by exact hsel)]
    exact ⟨[], .excluded (by simpa using hsel) .nil, .nil⟩

/-! ### Types -/

theorem possibleTypes_eq {name : Text} {type : NamedType} (ht : schema.type? name = some type)
    (hc : type.isComposite = true) :
    schema.possibleTypes name = .ok (schema.possibleTypesOf type) := by
  rw [Schema.possibleTypes, Schema.typeNamed, ht]
  show (if type.isComposite = true then _ else _) = _
  rw [if_pos hc]

theorem isPossible_iff {name : Text} {types : List Text}
    (h : schema.possibleTypes name = .ok types) {t : Text} :
    schema.IsPossible name t ↔ t ∈ types := by
  constructor
  · rintro ⟨types', h', ht⟩
    rw [h] at h'
    cases h'
    exact ht
  · exact fun ht => ⟨types, h, ht⟩

/-! ### Fragments that are resolved -/

variable (schema definitions) in
/-- A typed fragment agrees with its definition. -/
structure FragmentAgrees (d : Document.Fragment) (f : Typed.Fragment) : Prop where
  types : schema.possibleTypes d.typeCondition = .ok f.possibleTypes
  selections : ∃ typed, f.selectionSet = some (.mk f.possibleTypes typed) ∧
    Agree schema definitions f.possibleTypes d.selections typed

variable (schema definitions) in
/-- Every fragment that is resolved agrees with the definition of its name. -/
def Sound (p : Progress) : Prop :=
  ∀ name f, p.fragments.find? name = some f → ∃ d,
    definitions.find? (fun d => d.name == name) = some d ∧ FragmentAgrees schema definitions d f

variable (schema definitions) in
/-- A later progress is sound and has the fragments of an earlier one. -/
structure Grows (p p' : Progress) : Prop where
  sound : Sound schema definitions p'
  keys : ∀ name ∈ p.fragments.keys, name ∈ p'.fragments.keys

theorem Grows.refl {p : Progress} (h : Sound schema definitions p) :
    Grows schema definitions p p := ⟨h, fun _ hn => hn⟩

theorem Grows.trans {p p₁ p' : Progress} (h : Grows schema definitions p p₁)
    (h' : Grows schema definitions p₁ p') : Grows schema definitions p p' :=
  ⟨h'.sound, fun name hn => h'.keys name (h.keys name hn)⟩

/-- Steps that leave the fragments as they are keep them sound. -/
theorem Grows.of_fragments_eq {p p' : Progress} (h : Sound schema definitions p)
    (he : p'.fragments = p.fragments) : Grows schema definitions p p' := by
  refine ⟨fun name f hf => h name f ?_, fun name hn => ?_⟩
  · rwa [he] at hf
  · rwa [he]

/-- A fragment that agrees with its definition may be added. -/
theorem Grows.insert {p : Progress} {d : Document.Fragment} {f : Typed.Fragment}
    (h : Sound schema definitions p)
    (hd : definitions.find? (fun e => e.name == d.name) = some d)
    (hf : FragmentAgrees schema definitions d f) :
    Grows schema definitions p { p with fragments := p.fragments.insert d.name f } := by
  refine ⟨fun name g hg => ?_, fun name hn => ?_⟩
  · replace hg : (p.fragments.find? name).or (if name = d.name then some f else none) = some g := by
      rw [← OrderedMap.find?_insert]; exact hg
    rcases Option.or_eq_some_iff.mp hg with hg | ⟨-, hg⟩
    · exact h name g hg
    · by_cases hn : name = d.name
      · rw [if_pos hn] at hg
        obtain rfl := Option.some.inj hg
        rw [hn]
        exact ⟨d, hd, hf⟩
      · rw [if_neg hn] at hg; cases hg
  · show name ∈ (p.fragments.insert d.name f).keys
    rw [OrderedMap.keys_insert]
    split
    · exact hn
    · exact List.mem_append_left _ hn

variable (schema definitions) in
/-- What spreads resolve to: fragments that agree with the definitions of their names. -/
def SpreadsAgree (spread : Text → Location → Step Typed.Fragment) : Prop :=
  ∀ name location p f p', Sound schema definitions p → spread name location p = .ok (f, p') →
    Grows schema definitions p p' ∧ ∃ d,
      definitions.find? (fun d => d.name == name) = some d ∧ FragmentAgrees schema definitions d f

end Selections

/-! ### Selections -/

section Selections
variable {ctx : Context} {definitions : List Document.Fragment}
  {spread : Text → Location → Step Typed.Fragment} {parent : NamedType} {types : List Text}
  {depth : Nat} {p p' : Progress} {r : Option Typed.Selection}

/-- The fields of a typed field and of the field that it comes from. -/
theorem fieldOf {f : Document.Field} {selections : List Document.Selection} {head : FieldHead}
    {type : NamedType} {p₁ : Progress} {nested : Option Typed.SelectionSet}
    (hh : fieldHead ctx parent f p = .ok ((head, type), p₁))
    (hleaf : nested = none → selections = [])
    (hnested : ∀ s, nested = some s → type.isComposite = true ∧
      s.possibleTypes = ctx.schema.possibleTypesOf type ∧
      Means ctx.schema definitions selections s) :
    FieldOf ctx.schema (Means ctx.schema definitions) ⟨head, nested⟩ (f, selections) := by
  obtain ⟨definition, -, ht, hkey, hname, halias, htype, -, hargs, -⟩ := fieldHead_ok hh
  refine ⟨hkey, hname, halias, hargs.imp fun a b hab => ⟨hab.1, hab.2.1⟩, hleaf, fun s hs => ?_⟩
  obtain ⟨hc, htypes, hm⟩ := hnested s hs
  refine ⟨?_, hm⟩
  rw [htypes]
  show ctx.schema.possibleTypes head.type.namedType = _
  rw [htype]
  exact possibleTypes_eq ht hc

/-- One field, selected on every type. -/
theorem field_agrees {f : Document.Field} {selections : List Document.Selection}
    {x : Typed.Field}
    (hx : FieldOf ctx.schema (Means ctx.schema definitions) x (f, selections))
    (hu : underConditions types (.field x.head x.nested) f.directives = .ok r) :
    Agree ctx.schema definitions types [.field f selections] r.toList := by
  refine underConditions_agrees (s := .field f selections) hu (fun t _ assignment hs => ?_)
    fun g hg => ?_
  · rw [Typed.Selection.reached]
    exact ⟨[(f, selections)], .field hs .nil, .cons hx .nil⟩
  · rw [Typed.Selection.fields, List.mem_singleton] at hg
    rw [hg]
    exact ⟨(f, selections), .field, hx⟩

/-- Selections in an inline fragment, which narrows the types. -/
theorem inline_agrees {f : Document.InlineFragment} {selections : List Document.Selection}
    {type : NamedType} {typed : List Typed.Selection} {name : Text}
    (hparent : ∀ t ∈ types, t ∈ ctx.schema.possibleTypesOf parent) (hc : type.isComposite = true)
    (hnone : f.typeCondition = none → type = parent)
    (hsome : ∀ name, f.typeCondition = some name → ctx.schema.type? name = some type)
    (hi : Agree ctx.schema definitions (intersect (ctx.schema.possibleTypesOf type) types)
      selections typed)
    (hu : underConditions types (.typeCondition name
      (some (.mk (intersect (ctx.schema.possibleTypesOf type) types) typed))) f.directives = .ok r) :
    Agree ctx.schema definitions types [.inline f selections] r.toList := by
  refine underConditions_agrees (s := .inline f selections) hu (fun t ht assignment hs => ?_)
    fun g hg => ?_
  · rw [Typed.Selection.reached]
    by_cases hpossible : t ∈ ctx.schema.possibleTypesOf type
    · have hmem := Typed.mem_intersect.mpr ⟨hpossible, ht⟩
      rw [if_pos hmem]
      obtain ⟨fields, hsel, hfields⟩ := hi.selects t hmem assignment
      refine ⟨fields ++ [], ?_, by rwa [List.append_nil]⟩
      cases hcond : f.typeCondition with
      | none => exact .inlineAny hs hcond hsel .nil
      | some name =>
        have hname := possibleTypes_eq (hsome name hcond) hc
        exact .inlineOn hs hcond ((isPossible_iff hname).mpr hpossible) hsel .nil
    · rw [if_neg fun h => hpossible (Typed.mem_intersect.mp h).1]
      -- Without a type condition every possible type of the parent is in.
      cases hcond : f.typeCondition with
      | none => exact absurd (hnone hcond ▸ hparent t ht) hpossible
      | some name =>
        have hname := possibleTypes_eq (hsome name hcond) hc
        exact ⟨[], .inlineOff hs hcond (mt (isPossible_iff hname).mp hpossible) .nil, .nil⟩
  · rw [Typed.Selection.fields] at hg
    obtain ⟨node, hm, hfield⟩ := hi.mentions g hg
    exact ⟨node, .inline hm, hfield⟩

/-- A spread, which narrows the types to those of its fragment. -/
theorem spread_agrees {f : Document.Spread} {d : Document.Fragment} {fragment : Typed.Fragment}
    (hd : definitions.find? (fun d => d.name == f.name) = some d)
    (hm : FragmentAgrees ctx.schema definitions d fragment)
    (hu : underConditions types (spreadOf types fragment) f.directives = .ok r) :
    Agree ctx.schema definitions types [.spread f] r.toList := by
  obtain ⟨typed, hset, hagree⟩ := hm.selections
  rw [spreadOf, hset] at hu
  refine underConditions_agrees (s := .spread f) hu (fun t ht assignment hs => ?_) fun g hg => ?_
  · rw [Typed.Selection.reached]
    by_cases hpossible : t ∈ fragment.possibleTypes
    · rw [if_pos (Typed.mem_intersect.mpr ⟨ht, hpossible⟩)]
      obtain ⟨fields, hsel, hfields⟩ := hagree.selects t hpossible assignment
      exact ⟨fields ++ [], .spreadOn hs hd ((isPossible_iff hm.types).mpr hpossible) hsel .nil,
        by rwa [List.append_nil]⟩
    · rw [if_neg fun h => hpossible (Typed.mem_intersect.mp h).2]
      exact ⟨[], .spreadOff hs hd (mt (isPossible_iff hm.types).mp hpossible) .nil, .nil⟩
  · rw [Typed.Selection.fields] at hg
    obtain ⟨node, hmention, hfield⟩ := hagree.mentions g hg
    exact ⟨node, .spread hd hmention, hfield⟩

end Selections

section Recursion
variable {ctx : Context} {definitions : List Document.Fragment}
  {spread : Text → Location → Step Typed.Fragment}

mutual

/-- **A selection that resolves keeps its meaning**, if spreads do. -/
theorem one_agrees (hspread : SpreadsAgree ctx.schema definitions spread) :
    ∀ (s : Document.Selection) {parent : NamedType} {types : List Text} {depth : Nat}
      {p p' : Progress} {r : Option Typed.Selection},
      (∀ t ∈ types, t ∈ ctx.schema.possibleTypesOf parent) → Sound ctx.schema definitions p →
      one ctx spread parent types depth s p = .ok (r, p') →
      Agree ctx.schema definitions types [s] r.toList ∧ Grows ctx.schema definitions p p'
  | .field f selections, parent, types, depth, p, p', r, _, hp, h => by
    obtain ⟨head, type, p₁, hh, h⟩ := one_field_ok h
    obtain ⟨-, -, -, -, -, -, -, -, -, hp₁⟩ := fieldHead_ok hh
    have hgrows : Grows ctx.schema definitions p p₁ := .of_fragments_eq hp (by rw [hp₁])
    rcases h with ⟨-, hs, rfl, hu⟩ | ⟨hc, -, -, inner, hi, hu⟩
    · refine ⟨field_agrees (x := ⟨head, none⟩) (fieldOf hh (fun _ => hs) fun s hs => ?_) hu, hgrows⟩
      cases hs
    · obtain ⟨hagree, hgrows'⟩ := all_agree hspread selections (fun _ ht => ht) hgrows.sound hi
      refine ⟨field_agrees (x := ⟨head, some _⟩) (fieldOf hh (fun hn => ?_) fun s hs => ?_) hu,
        hgrows.trans hgrows'⟩
      · cases hn
      · obtain rfl := Option.some.inj hs
        exact ⟨hc, rfl, hagree.means⟩
  | .inline f selections, parent, types, depth, p, p', r, hparent, hp, h => by
    obtain ⟨type, inner, hc, hnone, hsome, hi, hu⟩ := one_inline_ok h
    obtain ⟨hagree, hgrows⟩ := all_agree hspread selections
      (fun t ht => (Typed.mem_intersect.mp ht).1) hp hi
    exact ⟨inline_agrees hparent hc hnone hsome hagree hu, hgrows⟩
  | .spread f, parent, types, depth, p, p', r, _, hp, h => by
    obtain ⟨fragment, hf, hu⟩ := one_spread_ok h
    obtain ⟨hgrows, d, hd, hm⟩ := hspread _ _ _ _ _ hp hf
    exact ⟨spread_agrees hd hm hu, hgrows⟩

/-- **Selections that resolve keep their meaning**, if spreads do. -/
theorem all_agree (hspread : SpreadsAgree ctx.schema definitions spread) :
    ∀ (selections : List Document.Selection) {parent : NamedType} {types : List Text} {depth : Nat}
      {p p' : Progress} {typed : List Typed.Selection},
      (∀ t ∈ types, t ∈ ctx.schema.possibleTypesOf parent) → Sound ctx.schema definitions p →
      all ctx spread parent types depth selections p = .ok (typed, p') →
      Agree ctx.schema definitions types selections typed ∧ Grows ctx.schema definitions p p'
  | [], parent, types, depth, p, p', typed, _, hp, h => by
    obtain ⟨rfl, rfl⟩ := all_nil_ok h
    exact ⟨.nil, .refl hp⟩
  | s :: rest, parent, types, depth, p, p', typed, hparent, hp, h => by
    obtain ⟨r, others, p₁, hr, ho, rfl⟩ := all_cons_ok h
    obtain ⟨hs, hgrows⟩ := one_agrees hspread s hparent hp hr
    obtain ⟨hrest, hgrows'⟩ := all_agree hspread rest hparent hgrows.sound ho
    exact ⟨hs.append hrest, hgrows.trans hgrows'⟩

end

/-! ### Fragments -/

/-- A definition that resolves becomes a fragment that agrees with it. -/
theorem ofDefinition_agrees (hspread : SpreadsAgree ctx.schema definitions spread)
    {d : Document.Fragment} (hd : definitions.find? (fun e => e.name == d.name) = some d)
    {p p' : Progress} {f : Typed.Fragment} (hp : Sound ctx.schema definitions p)
    (h : ofDefinition ctx spread d p = .ok (f, p')) :
    Grows ctx.schema definitions p p' ∧ FragmentAgrees ctx.schema definitions d f ∧
      d.name ∈ p'.fragments.keys := by
  obtain ⟨type, typed, p₁, ht, hc, ha, hf, rfl⟩ := ofDefinition_ok h
  obtain ⟨hagree, hgrows⟩ := all_agree hspread d.selections (fun _ ht => ht) hp ha
  have hm : FragmentAgrees ctx.schema definitions d f := by
    rw [hf]
    exact ⟨possibleTypes_eq ht hc, typed, rfl, hagree⟩
  refine ⟨hgrows.trans (.insert hgrows.sound hd hm), hm, ?_⟩
  show d.name ∈ (p₁.fragments.insert d.name _).keys
  rw [OrderedMap.keys_insert]
  split
  · assumption
  · exact List.mem_append_right _ (List.mem_singleton_self _)

end Recursion

end Resolve

end QueryCompiler
