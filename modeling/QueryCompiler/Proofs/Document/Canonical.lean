import QueryCompiler.Proofs.Document.Typenames

/-!
# Type names in their places

Putting type names into a document brings its selection sets into one form: those of fields and of
fragment definitions start with a plain type name, and there is no type name elsewhere
(`IsCanonical`). The documents in that form are those that are left as they are (`isCanonical_iff`),
and nothing but type names is changed on the way (`eraseTypenames_addTypename`). Hence
`addTypename_canonical`.

A set that is emptied is no obstacle: a field that had selections gets its type name back, and an
inline fragment without selections is in its form.
-/

namespace QueryCompiler.Document

/-! ### Erasing type names -/

mutual

/-- The selection without the type names below it. -/
def Selection.eraseTypenames : Selection → Selection
  | .field head selections => .field head (eraseTypenamesOfAll selections)
  | .spread head => .spread head
  | .inline head selections => .inline head (eraseTypenamesOfAll selections)

/-- The selections that are no type names, without the type names below them. -/
def eraseTypenamesOfAll : List Selection → List Selection
  | [] => []
  | selection :: rest =>
    if selection.isTypename then eraseTypenamesOfAll rest
    else selection.eraseTypenames :: eraseTypenamesOfAll rest

end

/-- The document without type names, and without what is selected below them. -/
def eraseTypenames (d : Document) : Document where
  operations := d.operations.map fun o => { o with selections := eraseTypenamesOfAll o.selections }
  fragments := d.fragments.map fun f => { f with selections := eraseTypenamesOfAll f.selections }
  order := d.order

@[simp]
theorem eraseTypenamesOfAll_typenameField (rest : List Selection) :
    eraseTypenamesOfAll (typenameField :: rest) = eraseTypenamesOfAll rest := by
  rw [eraseTypenamesOfAll]
  exact if_pos (beq_self_eq_true typenameName)

@[simp]
theorem Selection.isTypename_addTypename (s : Selection) :
    s.addTypename.isTypename = s.isTypename := by
  cases s with
  | field head selections => cases selections <;> rfl
  | spread head => rfl
  | inline head selections => rfl

mutual

theorem Selection.eraseTypenames_addTypename : ∀ s : Selection,
    s.addTypename.eraseTypenames = s.eraseTypenames
  | .field _ [] => rfl
  | .field head (s :: rest) => by
    rw [Selection.addTypename, Selection.eraseTypenames, eraseTypenamesOfAll_typenameField,
      eraseTypenamesOfAll_addTypenameToAll (s :: rest), Selection.eraseTypenames]
  | .spread _ => rfl
  | .inline head selections => by
    rw [Selection.addTypename, Selection.eraseTypenames,
      eraseTypenamesOfAll_addTypenameToAll selections, Selection.eraseTypenames]

theorem eraseTypenamesOfAll_addTypenameToAll : ∀ selections : List Selection,
    eraseTypenamesOfAll (addTypenameToAll selections) = eraseTypenamesOfAll selections
  | [] => rfl
  | s :: rest => by
    have hrest := eraseTypenamesOfAll_addTypenameToAll rest
    rw [addTypenameToAll, eraseTypenamesOfAll]
    cases hname : s.isTypename with
    | true => exact hrest
    | false =>
      show eraseTypenamesOfAll (s.addTypename :: addTypenameToAll rest) = _
      rw [eraseTypenamesOfAll, s.isTypename_addTypename, hname, s.eraseTypenames_addTypename, hrest]

end

/-- **Putting type names into a document changes nothing but type names.** -/
theorem eraseTypenames_addTypename (d : Document) :
    d.addTypename.eraseTypenames = d.eraseTypenames := by
  unfold eraseTypenames addTypename
  rw [List.map_map, List.map_map]
  congr 1
  · refine List.map_congr_left fun o _ => ?_
    exact congrArg (fun ss => { o with selections := ss })
      (eraseTypenamesOfAll_addTypenameToAll o.selections)
  · refine List.map_congr_left fun f _ => ?_
    exact congrArg (fun ss => { f with selections := ss })
      ((eraseTypenamesOfAll_typenameField _).trans
        (eraseTypenamesOfAll_addTypenameToAll f.selections))

/-! ### The form of selection sets -/

/-- No type name is among the selections. -/
def NoTypename (selections : List Selection) : Prop := ∀ s ∈ selections, s.isTypename = false

/-- A plain type name comes first, and no other is among the selections. -/
def TypenameFirst (selections : List Selection) : Prop :=
  ∃ rest, selections = typenameField :: rest ∧ NoTypename rest

/-- The selection set of the selection has its type name in its place, if it is one that gets one. -/
def Selection.IsCanonical : Selection → Prop
  | .field _ selections => selections ≠ [] → TypenameFirst selections
  | .spread _ => True
  | .inline _ selections => NoTypename selections

/-- The selection is one of the selections, or it is below one of them. -/
inductive Contains (s : Selection) : List Selection → Prop
  | here {selections : List Selection} (h : s ∈ selections) : Contains s selections
  | inside {t : Selection} {selections : List Selection} (ht : t ∈ selections)
      (h : Contains s t.selections) : Contains s selections

/-- The selection is in an operation or in a fragment definition, at any depth. -/
def HasSelection (d : Document) (s : Selection) : Prop :=
  (∃ o ∈ d.operations, Contains s o.selections) ∨ ∃ f ∈ d.fragments, Contains s f.selections

/-- **All selection sets of the document have their type name in its place**, or have none. -/
structure IsCanonical (d : Document) : Prop where
  /-- There is none at the root of an operation. -/
  operations : ∀ o ∈ d.operations, NoTypename o.selections
  /-- The selection sets of fragment definitions start with one. -/
  fragments : ∀ f ∈ d.fragments, TypenameFirst f.selections
  /-- So do those of fields, and inline fragments have none. -/
  selections : ∀ s, d.HasSelection s → s.IsCanonical

/-- All selection sets of the selections and below them have their type name in its place. -/
def AllCanonical (selections : List Selection) : Prop := ∀ s, Contains s selections → s.IsCanonical

theorem contains_cons {s t : Selection} {rest : List Selection} :
    Contains t (s :: rest) ↔ t = s ∨ Contains t s.selections ∨ Contains t rest := by
  constructor
  · rintro (h | ⟨h, hbelow⟩)
    · rcases List.mem_cons.mp h with rfl | h
      · exact .inl rfl
      · exact .inr (.inr (.here h))
    · rcases List.mem_cons.mp h with rfl | h
      · exact .inr (.inl hbelow)
      · exact .inr (.inr (.inside h hbelow))
  · rintro (rfl | h | h)
    · exact .here List.mem_cons_self
    · exact .inside List.mem_cons_self h
    · rcases h with h | ⟨h, hbelow⟩
      · exact .here (List.mem_cons_of_mem _ h)
      · exact .inside (List.mem_cons_of_mem _ h) hbelow

theorem allCanonical_nil : AllCanonical [] := by
  rintro s (h | ⟨h, -⟩) <;> cases h

theorem allCanonical_cons {s : Selection} {rest : List Selection} :
    AllCanonical (s :: rest) ↔ s.IsCanonical ∧ AllCanonical s.selections ∧ AllCanonical rest := by
  simp only [AllCanonical, contains_cons, or_imp, forall_and, forall_eq]

theorem allCanonical_typenameField {rest : List Selection} :
    AllCanonical (typenameField :: rest) ↔ AllCanonical rest := by
  rw [allCanonical_cons]
  exact ⟨fun h => h.2.2, fun h => ⟨fun hne => absurd rfl hne, allCanonical_nil, h⟩⟩

/-! ### Type names are put in their places -/

theorem noTypename_addTypenameToAll (selections : List Selection) :
    NoTypename (addTypenameToAll selections) := by
  intro t ht
  obtain ⟨s, -, hname, rfl⟩ := mem_addTypenameToAll.mp ht
  rw [s.isTypename_addTypename, hname]

theorem typenameFirst_addTypenameToAll (selections : List Selection) :
    TypenameFirst (typenameField :: addTypenameToAll selections) :=
  ⟨_, rfl, noTypename_addTypenameToAll selections⟩

theorem Selection.isCanonical_addTypename : ∀ s : Selection, s.addTypename.IsCanonical
  | .field _ [] => fun hne => absurd rfl hne
  | .field _ (s :: rest) => fun _ => typenameFirst_addTypenameToAll (s :: rest)
  | .spread _ => trivial
  | .inline _ selections => noTypename_addTypenameToAll selections

mutual

theorem Selection.allCanonical_addTypename : ∀ s : Selection, AllCanonical s.addTypename.selections
  | .field _ [] => allCanonical_nil
  | .field _ (s :: rest) => allCanonical_typenameField.mpr (allCanonical_addTypenameToAll (s :: rest))
  | .spread _ => allCanonical_nil
  | .inline _ selections => allCanonical_addTypenameToAll selections

theorem allCanonical_addTypenameToAll : ∀ selections : List Selection,
    AllCanonical (addTypenameToAll selections)
  | [] => allCanonical_nil
  | s :: rest => by
    rw [addTypenameToAll]
    split_ifs
    · exact allCanonical_addTypenameToAll rest
    · exact allCanonical_cons.mpr ⟨s.isCanonical_addTypename, s.allCanonical_addTypename,
        allCanonical_addTypenameToAll rest⟩

end

/-- **In a document with type names, they are in their places.** -/
theorem isCanonical_addTypename (d : Document) : d.addTypename.IsCanonical where
  operations := List.forall_mem_map.mpr fun o _ => noTypename_addTypenameToAll o.selections
  fragments := List.forall_mem_map.mpr fun f _ => typenameFirst_addTypenameToAll f.selections
  selections := by
    rintro s (⟨_, ho, hs⟩ | ⟨_, hf, hs⟩)
    · obtain ⟨o, -, rfl⟩ := List.mem_map.mp ho
      exact allCanonical_addTypenameToAll o.selections s hs
    · obtain ⟨f, -, rfl⟩ := List.mem_map.mp hf
      exact allCanonical_typenameField.mpr (allCanonical_addTypenameToAll f.selections) s hs

/-! ### Documents that are left as they are -/

theorem NoTypename.filter {selections : List Selection} (h : NoTypename selections) :
    selections.filter (fun s => !s.isTypename) = selections :=
  List.filter_eq_self.mpr fun s hs => by rw [h s hs]; rfl

theorem TypenameFirst.filter {selections : List Selection} (h : TypenameFirst selections) :
    typenameField :: selections.filter (fun s => !s.isTypename) = selections := by
  obtain ⟨rest, rfl, hrest⟩ := h
  have hfirst : typenameField.isTypename = true := beq_self_eq_true typenameName
  rw [List.filter_cons_of_neg (by rw [hfirst]; exact Bool.false_ne_true), hrest.filter]

mutual

theorem Selection.addTypename_eq_self : ∀ {s : Selection}, s.IsCanonical → AllCanonical s.selections →
    s.addTypename = s
  | .field _ [], _, _ => rfl
  | .field head (s :: rest), h, hall => by
    have hset : AllCanonical (s :: rest) := hall
    rw [Selection.addTypename, addTypenameToAll_of_allCanonical hset,
      TypenameFirst.filter (h (List.cons_ne_nil s rest))]
  | .spread _, _, _ => rfl
  | .inline head selections, h, hall => by
    have hset : AllCanonical selections := hall
    rw [Selection.addTypename, addTypenameToAll_of_allCanonical hset, NoTypename.filter h]

/-- Of selections in their form, the type names are removed and nothing else is done. -/
theorem addTypenameToAll_of_allCanonical : ∀ {selections : List Selection}, AllCanonical selections →
    addTypenameToAll selections = selections.filter fun s => !s.isTypename
  | [], _ => rfl
  | s :: rest, h => by
    obtain ⟨hs, hbelow, hrest⟩ := allCanonical_cons.mp h
    rw [addTypenameToAll, List.filter_cons, addTypenameToAll_of_allCanonical hrest,
      Selection.addTypename_eq_self hs hbelow]
    cases s.isTypename <;> rfl

end

/-- **A document with its type names in their places is left as it is.** -/
theorem IsCanonical.addTypename_eq_self {d : Document} (h : d.IsCanonical) : d.addTypename = d := by
  have hoperations : d.operations.map
      (fun o => { o with selections := addTypenameToAll o.selections }) = d.operations := by
    refine (List.map_congr_left fun o ho => ?_).trans (List.map_id _)
    have hall : AllCanonical o.selections := fun s hs => h.selections s (.inl ⟨o, ho, hs⟩)
    rw [addTypenameToAll_of_allCanonical hall, (h.operations o ho).filter]
    rfl
  have hfragments : d.fragments.map
      (fun f => { f with selections := typenameField :: addTypenameToAll f.selections }) =
        d.fragments := by
    refine (List.map_congr_left fun f hf => ?_).trans (List.map_id _)
    have hall : AllCanonical f.selections := fun s hs => h.selections s (.inr ⟨f, hf, hs⟩)
    rw [addTypenameToAll_of_allCanonical hall, (h.fragments f hf).filter]
    rfl
  unfold addTypename
  rw [hoperations, hfragments]

/-- The documents with their type names in their places are those that are left as they are. -/
theorem isCanonical_iff {d : Document} : d.IsCanonical ↔ d.addTypename = d :=
  ⟨IsCanonical.addTypename_eq_self, fun h => h ▸ isCanonical_addTypename d⟩

/-- **Putting type names into a document makes it canonical**: doing so again changes nothing, the
type names are in their places, and all the rest is as it was. -/
theorem addTypename_canonical (d : Document) :
    d.addTypename.addTypename = d.addTypename ∧ d.addTypename.IsCanonical ∧
      d.addTypename.eraseTypenames = d.eraseTypenames :=
  ⟨isCanonical_iff.mp (isCanonical_addTypename d), isCanonical_addTypename d,
    eraseTypenames_addTypename d⟩

/-- Below `a` the type name is put back; in the inline fragment it is not. -/
example : (parse "{ a { __typename } ... { n: __typename } b }" none 3).toOption.map
    (fun d => d.addTypename.text) = some "{
  a {
    __typename
  }
  ...
  b
}
" := by decide +kernel

end QueryCompiler.Document
