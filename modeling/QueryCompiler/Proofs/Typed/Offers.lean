import QueryCompiler.Proofs.TypeCase.Fields
import QueryCompiler.Proofs.Typed.Rules

/-!
# Fields that are offered

Where the fields of a typed selection set come from. An object of a type meets a field because the
selections of the document offer it: some directive may keep it out, depending on the variables, but
no literal does. A field that is not conditional is selected whatever the variables are.

* `Document.Offers`: the fields that an object of a type is offered. Whatever is selected is offered
  (`Selects.offers`).
* `Stands`: a typed field comes from a field that is offered.
* `Explains`: so do all fields that are met in typed selections.
* `Resolves.explains`: selections explain what they resolve to.
* `Explains.inside`: the fields of one response key have merged selections, which are explained by
  those of the selected fields, provided that all fields of the key that are offered are selected.
-/

namespace QueryCompiler

namespace Document

open Resolve (isSelected_of_areForbidding)

section Offers
variable (schema : Schema) (definitions : List Fragment) (t : Text)

/-- **A field that selections offer** to an object of type `t`: only a variable may keep it out. -/
inductive Offers : List Selection → FieldNode → Prop
  | field {f nested rest} : areForbidding f.directives = false →
      Offers (.field f nested :: rest) (f, nested)
  | inlineAny {f nested rest node} : areForbidding f.directives = false → f.typeCondition = none →
      Offers nested node → Offers (.inline f nested :: rest) node
  | inlineOn {f nested rest type node} : areForbidding f.directives = false →
      f.typeCondition = some type → schema.IsPossible type t → Offers nested node →
      Offers (.inline f nested :: rest) node
  | spread {f d rest node} : areForbidding f.directives = false →
      definitions.find? (fun d => d.name == f.name) = some d →
      schema.IsPossible d.typeCondition t → Offers d.selections node →
      Offers (.spread f :: rest) node
  | later {s rest node} : Offers rest node → Offers (s :: rest) node

variable {schema definitions t} {first second : List Selection} {node : FieldNode}

theorem Offers.left (h : Offers schema definitions t first node) :
    Offers schema definitions t (first ++ second) node := by
  induction h with
  | field hf => exact .field hf
  | inlineAny hf hc hi => exact .inlineAny hf hc hi
  | inlineOn hf hc hp hi => exact .inlineOn hf hc hp hi
  | spread hf hd hp hi => exact .spread hf hd hp hi
  | later _ ih => exact .later ih

theorem Offers.right (h : Offers schema definitions t second node) :
    Offers schema definitions t (first ++ second) node := by
  induction first with
  | nil => exact h
  | cons s first ih => exact .later ih

theorem not_areForbidding_of_isSelected {s : Selection} {assignment : Text → Bool}
    (h : s.isSelected assignment = true) : areForbidding s.directives = false := by
  by_contra hf
  rw [isSelected_of_areForbidding (by simpa using hf)] at h
  cases h

/-- **What is selected is offered.** -/
theorem Selects.offers {assignment : Text → Bool} {selections : List Selection}
    {nodes : List FieldNode} (h : Selects schema definitions assignment t selections nodes) :
    ∀ node ∈ nodes, Offers schema definitions t selections node := by
  induction h with
  | nil => exact fun _ hn => absurd hn List.not_mem_nil
  | excluded _ _ ih => exact fun node hn => .later (ih node hn)
  | field hs _ ih =>
    refine List.forall_mem_cons.mpr ⟨.field (not_areForbidding_of_isSelected hs), fun node hn => ?_⟩
    exact .later (ih node hn)
  | inlineAny hs hc _ _ ihi ih =>
    refine List.forall_mem_append.mpr ⟨fun node hn => ?_, fun node hn => .later (ih node hn)⟩
    exact .inlineAny (not_areForbidding_of_isSelected hs) hc (ihi node hn)
  | inlineOn hs hc hp _ _ ihi ih =>
    refine List.forall_mem_append.mpr ⟨fun node hn => ?_, fun node hn => .later (ih node hn)⟩
    exact .inlineOn (not_areForbidding_of_isSelected hs) hc hp (ihi node hn)
  | inlineOff _ _ _ _ ih => exact fun node hn => .later (ih node hn)
  | spreadOn hs hd hp _ _ ihi ih =>
    refine List.forall_mem_append.mpr ⟨fun node hn => ?_, fun node hn => .later (ih node hn)⟩
    exact .spread (not_areForbidding_of_isSelected hs) hd hp (ihi node hn)
  | spreadOff _ _ _ _ ih => exact fun node hn => .later (ih node hn)

end Offers

/-! ### Fields alone -/

/-- The selections, if they are all fields. -/
def onlyFields? : List Selection → Option (List FieldNode)
  | [] => some []
  | .field f nested :: rest => (onlyFields? rest).map ((f, nested) :: ·)
  | _ => none

theorem of_onlyFields? : ∀ {selections : List Selection} {nodes : List FieldNode},
    onlyFields? selections = some nodes →
      selections = nodes.map fun node => .field node.1 node.2
  | [], nodes, h => by
    obtain rfl := Option.some.inj h
    rfl
  | .field f nested :: rest, nodes, h => by
    obtain ⟨others, ho, rfl⟩ := Option.map_eq_some_iff.mp h
    rw [List.map_cons, of_onlyFields? ho]

section Rules
variable {schema : Schema} {definitions : List Fragment} {assignment : Text → Bool} {t : Text}

/-- Fields are selected by their directives. -/
theorem selects_fields (nodes : List FieldNode) :
    Selects schema definitions assignment t (nodes.map fun node => .field node.1 node.2)
      (nodes.filter fun node => (Selection.field node.1 node.2).isSelected assignment) := by
  induction nodes with
  | nil => exact .nil
  | cons node nodes ih =>
    cases hs : (Selection.field node.1 node.2).isSelected assignment with
    | true =>
      rw [List.filter_cons, if_pos hs]
      exact .field hs ih
    | false =>
      rw [List.filter_cons, if_neg (by rw [hs]; exact Bool.false_ne_true)]
      exact .excluded hs ih

theorem mem_of_offers_fields {node : FieldNode} : ∀ {nodes : List FieldNode},
    Offers schema definitions t (nodes.map fun node => .field node.1 node.2) node → node ∈ nodes
  | [], h => by cases h
  | n :: nodes, h => by
    cases h with
    | field _ => exact List.mem_cons_self
    | later h => exact List.mem_cons_of_mem _ (mem_of_offers_fields h)

end Rules

/-! ### Selections that are merged -/

/-- The selections inside the fields of a response key, one after the other. -/
def selectionsWithin (key : Text) (nodes : List FieldNode) : List Selection :=
  (nodes.filter fun node => node.1.responseKey = key).flatMap Prod.snd

end Document

namespace Typed

open Document (FieldNode Selects Offers areForbidding selectionsWithin)

/-! ### Fields under conditions -/

section Occurrences
variable {spreads : Bool} {t : Text} {conditional : Bool}

theorem occurrencesOfAll_append (first second : List Selection) :
    occurrencesOfAll spreads t conditional (first ++ second) =
      occurrencesOfAll spreads t conditional first ++ occurrencesOfAll spreads t conditional second := by
  induction first with
  | nil => rfl
  | cons s first ih => rw [List.cons_append, occurrencesOfAll, occurrencesOfAll, ih, List.append_assoc]

theorem mem_occurrencesOfAll_flatMap {α : Type} {f : α → List Selection} {l : List α} {x : Field} :
    x ∈ occurrencesOfAll spreads t conditional (l.flatMap f) ↔
      ∃ a ∈ l, x ∈ occurrencesOfAll spreads t conditional (f a) := by
  induction l with
  | nil => simp [occurrencesOfAll]
  | cons a l ih => rw [List.flatMap_cons, occurrencesOfAll_append, List.mem_append, ih]; simp

theorem occurrences_guarded (types : List Text) (guards : List (Text × Bool)) (s : Selection) :
    (guarded types s guards).occurrences spreads t conditional =
      s.occurrences spreads t (conditional || !guards.isEmpty) := by
  induction guards generalizing s with
  | nil => rw [List.isEmpty_nil, Bool.not_true, Bool.or_false]; rfl
  | cons g rest ih =>
    refine (ih _).trans ?_
    rw [Selection.occurrences, occurrencesOfAll, occurrencesOfAll, List.append_nil,
      List.isEmpty_cons, Bool.not_false, Bool.or_true]

/-- A selection is met under its directives: not at all if they drop it, and under a condition if they
name a variable. -/
theorem occurrencesOfAll_kept (types : List Text) (directives : List Document.Directive)
    (s : Selection) :
    occurrencesOfAll spreads t conditional (kept types directives s) =
      if areForbidding directives then []
      else s.occurrences spreads t
        (conditional || !(directives.filterMap Document.Directive.guard?).isEmpty) := by
  rw [kept]
  split_ifs with hf
  · rfl
  · rw [occurrencesOfAll, occurrencesOfAll, List.append_nil, occurrences_guarded]

end Occurrences

mutual

theorem Selection.isConditional_of_mem_occurrences {spreads : Bool} {t : Text} {x : Field} :
    ∀ {s : Selection}, x ∈ s.occurrences spreads t true → x.head.isConditional = true
  | .field head nested, h => by
    rw [Selection.occurrences, List.mem_singleton] at h
    subst h
    exact Bool.or_true _
  | .typeCondition _ none, h => by cases h
  | .typeCondition _ (some (.mk types selections)), h => by
    rw [Selection.occurrences] at h
    split_ifs at h
    · exact isConditional_of_mem_occurrencesOfAll h
    · cases h
  | .booleanCondition _ _ none, h => by cases h
  | .booleanCondition _ _ (some (.mk _ selections)), h => isConditional_of_mem_occurrencesOfAll h
  | .spread _ _ none, h => by cases h
  | .spread _ _ (some (.mk types selections)), h => by
    rw [Selection.occurrences] at h
    split_ifs at h
    · exact isConditional_of_mem_occurrencesOfAll h
    · cases h

/-- What is met under a condition is conditional. -/
theorem isConditional_of_mem_occurrencesOfAll {spreads : Bool} {t : Text} {x : Field} :
    ∀ {selections : List Selection}, x ∈ occurrencesOfAll spreads t true selections →
      x.head.isConditional = true
  | [], h => by cases h
  | s :: rest, h => by
    rw [occurrencesOfAll, List.mem_append] at h
    exact h.elim Selection.isConditional_of_mem_occurrences isConditional_of_mem_occurrencesOfAll

end

section Rules
variable (schema : Schema) (definitions : List Document.Fragment)

/-! ### Selections that select -/

/-- On every type and under every assignment, selections select fields, whose selections resolve. -/
def Selectable (selections : List Document.Selection) : Prop :=
  ∀ assignment t, ∃ nodes, Selects schema definitions assignment t selections nodes ∧
    ∀ node ∈ nodes, ∃ types inner, Resolves schema definitions types node.2 inner

variable {schema definitions}

namespace Selectable

theorem nil : Selectable schema definitions [] := fun _ _ => ⟨[], .nil, List.forall_mem_nil _⟩

theorem append {first second : List Document.Selection} (h : Selectable schema definitions first)
    (h' : Selectable schema definitions second) : Selectable schema definitions (first ++ second) := by
  intro assignment t
  obtain ⟨nodes, hn, hr⟩ := h assignment t
  obtain ⟨nodes', hn', hr'⟩ := h' assignment t
  exact ⟨nodes ++ nodes', hn.append hn', List.forall_mem_append.mpr ⟨hr, hr'⟩⟩

/-- A selection selects if it does whenever its directives let it. -/
theorem single {s : Document.Selection}
    (h : ∀ assignment t, s.isSelected assignment = true →
      ∃ nodes, Selects schema definitions assignment t [s] nodes ∧
        ∀ node ∈ nodes, ∃ types inner, Resolves schema definitions types node.2 inner) :
    Selectable schema definitions [s] := by
  intro assignment t
  cases hs : s.isSelected assignment with
  | false => exact ⟨[], .excluded hs .nil, List.forall_mem_nil _⟩
  | true => exact h assignment t hs

theorem field {f : Document.Field} {nested : List Document.Selection}
    (h : ∃ types inner, Resolves schema definitions types nested inner) :
    Selectable schema definitions [.field f nested] :=
  single fun _ _ hs => ⟨[(f, nested)], .field hs .nil, List.forall_mem_singleton.mpr h⟩

theorem inlineAny {f : Document.InlineFragment} {nested : List Document.Selection}
    (hc : f.typeCondition = none) (h : Selectable schema definitions nested) :
    Selectable schema definitions [.inline f nested] := by
  refine single fun assignment t hs => ?_
  obtain ⟨nodes, hn, hr⟩ := h assignment t
  exact ⟨nodes ++ [], .inlineAny hs hc hn .nil, by rwa [List.append_nil]⟩

theorem inlineOn {f : Document.InlineFragment} {name : Text} {nested : List Document.Selection}
    (hc : f.typeCondition = some name) (h : Selectable schema definitions nested) :
    Selectable schema definitions [.inline f nested] := by
  refine single fun assignment t hs => ?_
  obtain ⟨nodes, hn, hr⟩ := h assignment t
  by_cases hp : schema.IsPossible name t
  · exact ⟨nodes ++ [], .inlineOn hs hc hp hn .nil, by rwa [List.append_nil]⟩
  · exact ⟨[], .inlineOff hs hc hp .nil, List.forall_mem_nil _⟩

theorem spread {f : Document.Spread} {d : Document.Fragment}
    (hd : definitions.find? (fun d => d.name == f.name) = some d)
    (h : Selectable schema definitions d.selections) :
    Selectable schema definitions [.spread f] := by
  refine single fun assignment t hs => ?_
  obtain ⟨nodes, hn, hr⟩ := h assignment t
  by_cases hp : schema.IsPossible d.typeCondition t
  · exact ⟨nodes ++ [], .spreadOn hs hd hp hn .nil, by rwa [List.append_nil]⟩
  · exact ⟨[], .spreadOff hs hd hp .nil, List.forall_mem_nil _⟩

theorem flatMap {nodes : List FieldNode} (h : ∀ node ∈ nodes, Selectable schema definitions node.2) :
    Selectable schema definitions (nodes.flatMap Prod.snd) := by
  induction nodes with
  | nil => exact nil
  | cons node nodes ih =>
    rw [List.flatMap_cons]
    exact (h node List.mem_cons_self).append (ih fun n hn => h n (List.mem_cons_of_mem _ hn))

end Selectable

/-! ### Fields that come from selections -/

variable (schema definitions)

/-- A typed field comes from a field of a document: the selections of that resolve to its set, on the
possible types of its type. -/
structure Tracks (x : Field) (node : FieldNode) : Prop where
  responseKey : x.head.responseKey = node.1.responseKey
  leaf : x.nested = none → ∀ inside, schema.possibleTypes x.head.type.namedType ≠ .ok inside
  nested : ∀ set, x.nested = some set →
    schema.possibleTypes x.head.type.namedType = .ok set.possibleTypes ∧
      Resolves schema definitions set.possibleTypes node.2 set.selections

/-- A typed field comes from a field that selections offer to an object of type `t`; if it is not
conditional, they select that field under every assignment. -/
structure Stands (t : Text) (selections : List Document.Selection) (x : Field) (node : FieldNode) :
    Prop where
  offered : Offers schema definitions t selections node
  tracks : Tracks schema definitions x node
  always : x.head.isConditional = false → ∀ assignment, ∃ nodes,
    Selects schema definitions assignment t selections nodes ∧ node ∈ nodes

/-- **Selections explain typed selections**: every field that is met there comes from them. -/
structure Explains (selections : List Document.Selection) (typed : List Selection) : Prop where
  selectable : Selectable schema definitions selections
  occurs : ∀ t conditional, ∀ x ∈ occurrencesOfAll true t conditional typed,
    ∃ node, Stands schema definitions t selections x node

variable {schema definitions}

section Stands
variable {t : Text} {first second : List Document.Selection} {x : Field} {node : FieldNode}

theorem Stands.left (h : Stands schema definitions t first x node)
    (hs : Selectable schema definitions second) :
    Stands schema definitions t (first ++ second) x node := by
  refine ⟨h.offered.left, h.tracks, fun hx assignment => ?_⟩
  obtain ⟨nodes, hn, hmem⟩ := h.always hx assignment
  obtain ⟨nodes', hn', -⟩ := hs assignment t
  exact ⟨nodes ++ nodes', hn.append hn', List.mem_append_left _ hmem⟩

theorem Stands.right (h : Stands schema definitions t second x node)
    (hs : Selectable schema definitions first) :
    Stands schema definitions t (first ++ second) x node := by
  refine ⟨h.offered.right, h.tracks, fun hx assignment => ?_⟩
  obtain ⟨nodes, hn, hmem⟩ := h.always hx assignment
  obtain ⟨nodes', hn', -⟩ := hs assignment t
  exact ⟨nodes' ++ nodes, hn'.append hn, List.mem_append_right _ hmem⟩

end Stands

namespace Explains

theorem nil : Explains schema definitions [] [] := ⟨.nil, fun _ _ _ hx => by cases hx⟩

theorem append {first second : List Document.Selection} {typed typed' : List Selection}
    (h : Explains schema definitions first typed) (h' : Explains schema definitions second typed') :
    Explains schema definitions (first ++ second) (typed ++ typed') := by
  refine ⟨h.selectable.append h'.selectable, fun t conditional x hx => ?_⟩
  rw [occurrencesOfAll_append, List.mem_append] at hx
  rcases hx with hx | hx
  · obtain ⟨node, hstands⟩ := h.occurs t conditional x hx
    exact ⟨node, hstands.left h'.selectable⟩
  · obtain ⟨node, hstands⟩ := h'.occurs t conditional x hx
    exact ⟨node, hstands.right h.selectable⟩

/-- A selection explains what is kept of it, if it does so whenever its directives let it. -/
theorem kept {s : Document.Selection} {typed : Selection} {types : List Text}
    (hs : Selectable schema definitions [s])
    (h : areForbidding s.directives = false → ∀ t conditional,
      ∀ x ∈ typed.occurrences true t conditional, ∃ node,
        Offers schema definitions t [s] node ∧ Tracks schema definitions x node ∧
          (x.head.isConditional = false → ∀ assignment, s.isSelected assignment = true → ∃ nodes,
            Selects schema definitions assignment t [s] nodes ∧ node ∈ nodes)) :
    Explains schema definitions [s] (kept types s.directives typed) := by
  refine ⟨hs, fun t conditional x hx => ?_⟩
  rw [occurrencesOfAll_kept] at hx
  split_ifs at hx with hf
  · cases hx
  replace hf : areForbidding s.directives = false := by simpa using hf
  obtain ⟨node, hoffers, htracks, halways⟩ := h hf t _ x hx
  refine ⟨node, hoffers, htracks, fun hcond assignment => ?_⟩
  refine halways hcond assignment (Resolve.isSelected_of_unguarded hf ?_ assignment)
  -- A variable would make every field that is met conditional.
  by_contra hg
  rw [List.isEmpty_eq_false_iff.mpr hg, Bool.not_false, Bool.or_true] at hx
  rw [Selection.isConditional_of_mem_occurrences hx] at hcond
  cases hcond

theorem field {f : Document.Field} {nested : List Document.Selection} {head : FieldHead}
    {set : Option SelectionSet} {types : List Text}
    (hr : ∃ types inner, Resolves schema definitions types nested inner)
    (ht : ∀ conditional, Tracks schema definitions ⟨head.under conditional, set⟩ (f, nested)) :
    Explains schema definitions [.field f nested]
      (Typed.kept types f.directives (.field head set)) := by
  refine kept (.field hr) fun hf t conditional x hx => ?_
  rw [Selection.occurrences, List.mem_singleton] at hx
  subst hx
  exact ⟨(f, nested), .field hf, ht conditional,
    fun _ _ hs => ⟨[(f, nested)], .field hs .nil, List.mem_singleton_self _⟩⟩

variable {nested : List Document.Selection} {inner : List Selection} {types inside : List Text}
  {type name : Text}

/-- A selection explains what is kept of it, if the selections inside it explain all that is met and
it offers and selects what they do. -/
theorem entered {s : Document.Selection} {typed : Selection}
    (hs : Selectable schema definitions [s]) (h : Explains schema definitions nested inner)
    (henter : ∀ t conditional, ∀ x ∈ typed.occurrences true t conditional,
      x ∈ occurrencesOfAll true t conditional inner ∧
        (areForbidding s.directives = false → ∀ node, Offers schema definitions t nested node →
          Offers schema definitions t [s] node) ∧
        ∀ assignment nodes, s.isSelected assignment = true →
          Selects schema definitions assignment t nested nodes →
          Selects schema definitions assignment t [s] (nodes ++ [])) :
    Explains schema definitions [s] (Typed.kept types s.directives typed) := by
  refine kept hs fun hf t conditional x hx => ?_
  obtain ⟨hx, hoffers, hselects⟩ := henter t conditional x hx
  obtain ⟨node, hstands⟩ := h.occurs t conditional x hx
  refine ⟨node, hoffers hf node hstands.offered, hstands.tracks, fun hcond assignment hs => ?_⟩
  obtain ⟨nodes, hn, hmem⟩ := hstands.always hcond assignment
  exact ⟨nodes ++ [], hselects assignment nodes hs hn, List.mem_append_left _ hmem⟩

theorem inlineAny {f : Document.InlineFragment} (hc : f.typeCondition = none)
    (h : Explains schema definitions nested inner) :
    Explains schema definitions [.inline f nested]
      (Typed.kept types f.directives (.typeCondition type (some (.mk inside inner)))) := by
  refine entered (.inlineAny hc h.selectable) h fun t conditional x hx => ?_
  rw [Selection.occurrences] at hx
  split_ifs at hx
  · exact ⟨hx, fun hf _ => .inlineAny hf hc, fun _ _ hs hn => .inlineAny hs hc hn .nil⟩
  · cases hx

theorem inlineOn {f : Document.InlineFragment} (hc : f.typeCondition = some name)
    (hp : ∀ t ∈ inside, schema.IsPossible name t) (h : Explains schema definitions nested inner) :
    Explains schema definitions [.inline f nested]
      (Typed.kept types f.directives (.typeCondition type (some (.mk inside inner)))) := by
  refine entered (.inlineOn hc h.selectable) h fun t conditional x hx => ?_
  rw [Selection.occurrences] at hx
  split_ifs at hx with ht
  · exact ⟨hx, fun hf _ => .inlineOn hf hc (hp t ht),
      fun _ _ hs hn => .inlineOn hs hc (hp t ht) hn .nil⟩
  · cases hx

theorem spread {f : Document.Spread} {d : Document.Fragment}
    (hd : definitions.find? (fun d => d.name == f.name) = some d)
    (hp : ∀ t ∈ inside, schema.IsPossible d.typeCondition t)
    (h : Explains schema definitions d.selections inner) :
    Explains schema definitions [.spread f]
      (Typed.kept types f.directives (.spread f.name type (some (.mk inside inner)))) := by
  refine entered (.spread hd h.selectable) h fun t conditional x hx => ?_
  rw [Selection.occurrences] at hx
  split_ifs at hx with ht
  · exact ⟨hx, fun hf _ => .spread hf hd (hp t ht.2),
      fun _ _ hs hn => .spreadOn hs hd (hp t ht.2) hn .nil⟩
  · cases hx

end Explains

/-- **Selections explain what they resolve to.** -/
theorem Resolves.explains {types : List Text} {selections : List Document.Selection}
    {typed : List Selection} (h : Resolves schema definitions types selections typed) :
    Explains schema definitions selections typed := by
  induction h with
  | nil => exact .nil
  | leaf hh ht _ ih =>
    refine (Explains.field ⟨[], [], .nil⟩ fun _ => ?_).append ih
    exact ⟨hh.responseKey, fun _ => ht, fun _ hs => by cases hs⟩
  | field hh ht hr _ _ ih =>
    refine (Explains.field ⟨_, _, hr⟩ fun _ => ?_).append ih
    refine ⟨hh.responseKey, fun hs => (by cases hs), fun set hs => ?_⟩
    obtain rfl := Option.some.inj hs
    exact ⟨ht, hr⟩
  | inlineAny hc _ _ _ ihi ih => exact (ihi.inlineAny hc).append ih
  | inlineOn hc ht _ _ ihi ih =>
    exact (ihi.inlineOn hc fun t hin => ⟨_, ht, (mem_intersect.mp hin).1⟩).append ih
  | spread hd ht _ _ ihi ih =>
    exact (ihi.spread hd fun t hin => ⟨_, ht, (mem_intersect.mp hin).2⟩).append ih

/-! ### Fields of one response key -/

/-- A group is made of the fields with its response key. -/
theorem exists_of_group? {fields : List Field} {key : Text} {f : Field}
    (h : group? fields key = some f) :
    ∃ first rest, withKey key fields = first :: rest ∧ f = joined first rest := by
  unfold group? at h
  cases hw : withKey key fields with
  | nil => rw [hw] at h; cases h
  | cons first rest =>
    rw [hw] at h
    exact ⟨first, rest, rfl, (Option.some.inj h).symm⟩

theorem mem_withKey {fields : List Field} {key : Text} {x : Field} :
    x ∈ withKey key fields ↔ x ∈ fields ∧ x.head.responseKey = key := by
  simp [withKey]

theorem selections_of_concatSets {sets : List SelectionSet} {set : SelectionSet}
    (h : concatSets sets = some set) : set.selections = sets.flatMap SelectionSet.selections := by
  cases sets with
  | nil => cases h
  | cons first rest =>
    obtain rfl := Option.some.inj h
    rfl

namespace Explains

variable {selections : List Document.Selection} {typed : List Selection} {t key : Text}
  {conditional : Bool} {f : Field} {assignment : Text → Bool} {nodes : List FieldNode}

/-- **A field that is not conditional is selected** under its response key, since one of the fields
that it is made of is not conditional either. -/
theorem isSelected (h : Explains schema definitions selections typed)
    (hf : group? (occurrencesOfAll true t conditional typed) key = some f)
    (hcond : f.head.isConditional = false)
    (hn : Selects schema definitions assignment t selections nodes) :
    ∃ node ∈ nodes, node.1.responseKey = key := by
  obtain ⟨first, rest, hw, rfl⟩ := exists_of_group? hf
  obtain ⟨x, hx, hxcond⟩ := List.all_eq_false.mp hcond
  rw [← hw, mem_withKey] at hx
  obtain ⟨node, hstands⟩ := h.occurs t conditional x hx.1
  obtain ⟨nodes', hn', hmem⟩ := hstands.always (by simpa using hxcond) assignment
  exact ⟨node, hn'.unique hn ▸ hmem, hstands.tracks.responseKey ▸ hx.2⟩

/-- The set of a field is on the possible types of its type. -/
theorem possibleTypes_inside (h : Explains schema definitions selections typed)
    (hf : group? (occurrencesOfAll true t conditional typed) key = some f) {inside : List Text}
    (ht : schema.possibleTypes f.head.type.namedType = .ok inside) {set : SelectionSet}
    (hset : f.nested = some set) : set.possibleTypes = inside := by
  obtain ⟨first, rest, hw, rfl⟩ := exists_of_group? hf
  have hfirst : first ∈ withKey key (occurrencesOfAll true t conditional typed) := by
    rw [hw]
    exact List.mem_cons_self
  obtain ⟨node, hstands⟩ := h.occurs t conditional first (mem_withKey.mp hfirst).1
  cases hnested : first.nested with
  | none => exact absurd ht (hstands.tracks.leaf hnested inside)
  | some set' =>
    have hsame : set.possibleTypes = set'.possibleTypes := by
      rw [joined, List.filterMap_cons_some hnested] at hset
      obtain rfl := Option.some.inj hset
      rfl
    rw [hsame]
    exact Except.ok.inj ((hstands.tracks.nested set' hnested).1.symm.trans ht)

/-- **The selections inside the selected fields of a response key explain the set of the key**, if no
field of the key is offered that is not selected. -/
theorem inside (h : Explains schema definitions selections typed)
    (hf : group? (occurrencesOfAll true t conditional typed) key = some f) {set : SelectionSet}
    (hset : f.nested = some set) (hn : Selects schema definitions assignment t selections nodes)
    (hall : ∀ node, Offers schema definitions t selections node → node.1.responseKey = key →
      node ∈ nodes) :
    Explains schema definitions (selectionsWithin key nodes) set.selections := by
  obtain ⟨first, rest, hw, rfl⟩ := exists_of_group? hf
  rw [joined, ← hw] at hset
  rw [selections_of_concatSets hset]
  have hselectable : ∀ node ∈ nodes, Selectable schema definitions node.2 := by
    intro node hnode
    obtain ⟨nodes', hn', hresolves⟩ := h.selectable assignment t
    obtain ⟨types, inner, hr⟩ := hresolves node (hn.unique hn' ▸ hnode)
    exact hr.explains.selectable
  have hfilter : ∀ node ∈ nodes.filter fun node => node.1.responseKey = key,
      Selectable schema definitions node.2 := fun node hnode =>
    hselectable node (List.mem_filter.mp hnode).1
  refine ⟨.flatMap hfilter, fun t' conditional' x hx => ?_⟩
  -- The field is met in the set of one field of the key, whose selections are among those merged.
  obtain ⟨set', hset', hx⟩ := mem_occurrencesOfAll_flatMap.mp hx
  obtain ⟨y, hy, hnested⟩ := List.mem_filterMap.mp hset'
  obtain ⟨hy, hkey⟩ := mem_withKey.mp hy
  obtain ⟨node, hstands⟩ := h.occurs t conditional y hy
  have hnode : node.1.responseKey = key := hstands.tracks.responseKey ▸ hkey
  have hmem : node ∈ nodes.filter fun node => node.1.responseKey = key :=
    List.mem_filter.mpr ⟨hall node hstands.offered hnode, decide_eq_true hnode⟩
  obtain ⟨node', hstands'⟩ :=
    (hstands.tracks.nested set' hnested).2.explains.occurs t' conditional' x hx
  obtain ⟨before, after, hsplit⟩ := List.append_of_mem hmem
  rw [hsplit] at hfilter
  rw [selectionsWithin, hsplit, List.flatMap_append, List.flatMap_cons]
  obtain ⟨hbefore, hafter⟩ := List.forall_mem_append.mp hfilter
  exact ⟨node', (hstands'.left (.flatMap (List.forall_mem_cons.mp hafter).2)).right
    (.flatMap hbefore)⟩

end Explains

end Rules

end Typed

end QueryCompiler
