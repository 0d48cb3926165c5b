import QueryCompiler.Document.Typename
import QueryCompiler.Proofs.Document.Reprint

/-!
# Documents with type names

Putting type names into a document removes those that it has, and may leave an operation or an inline
fragment without any selection: such a set is printed as nothing. Where none is emptied
(`keepsSets`), the result is printed as a text that is parsed as the result, and nowhere else
(`parse_addTypename_text`).

* `addTypenameToAll_eq`: what becomes of the selections of a set.
* `allInhabited_addTypename`: no inline fragment is empty afterwards exactly if `keepSets` says so.
* `SetFits.addTypename`: then the selections can still be written.
-/

namespace QueryCompiler.Document

theorem addTypenameToAll_eq (selections : List Selection) : addTypenameToAll selections =
    (selections.filter fun s => !s.isTypename).map Selection.addTypename := by
  induction selections with
  | nil => rfl
  | cons s rest ih =>
    rw [addTypenameToAll, List.filter_cons, ih]
    cases s.isTypename <;> rfl

theorem mem_addTypenameToAll {selections : List Selection} {t : Selection} :
    t ∈ addTypenameToAll selections ↔
      ∃ s ∈ selections, s.isTypename = false ∧ s.addTypename = t := by
  rw [addTypenameToAll_eq, List.mem_map]
  exact exists_congr fun s => by rw [List.mem_filter, Bool.not_eq_true', and_assoc]

/-! ### Sets that are emptied -/

/-- One of the selections is no type name. -/
def keepOne (selections : List Selection) : Bool := selections.any fun s => !s.isTypename

mutual

/-- Putting type names below the selection empties no set. -/
def Selection.keepsSets : Selection → Bool
  | .field _ selections => keepSets selections
  | .spread _ => true
  | .inline _ selections => keepOne selections && keepSets selections

/-- Putting type names below the selections empties no set, but for those that are removed. -/
def keepSets : List Selection → Bool
  | [] => true
  | selection :: rest => (selection.isTypename || selection.keepsSets) && keepSets rest

end

/-- **Putting type names into the document empties no set**: every operation and every inline fragment
has a selection that is no type name, except for those below a type name, which are removed. -/
def keepsSets (d : Document) : Bool :=
  (d.operations.all fun o => keepOne o.selections && keepSets o.selections) &&
    d.fragments.all fun f => keepSets f.selections

mutual

/-- The inline fragments of a selection have selections, at any depth. -/
def Selection.isInhabited : Selection → Bool
  | .field _ selections => allInhabited selections
  | .spread _ => true
  | .inline _ selections => !selections.isEmpty && allInhabited selections

/-- The inline fragments of selections have selections, at any depth. -/
def allInhabited : List Selection → Bool
  | [] => true
  | selection :: rest => selection.isInhabited && allInhabited rest

end

/-- All operations, fragments and inline fragments of the document have selections. -/
def isInhabited (d : Document) : Bool :=
  (d.operations.all fun o => !o.selections.isEmpty && allInhabited o.selections) &&
    d.fragments.all fun f => !f.selections.isEmpty && allInhabited f.selections

theorem allInhabited_eq (selections : List Selection) :
    allInhabited selections = selections.all Selection.isInhabited := by
  induction selections with
  | nil => rfl
  | cons s rest ih => rw [allInhabited, List.all_cons, ih]

theorem keepSets_eq (selections : List Selection) :
    keepSets selections = selections.all fun s => s.isTypename || s.keepsSets := by
  induction selections with
  | nil => rfl
  | cons s rest ih => rw [keepSets, List.all_cons, ih]

theorem isEmpty_addTypenameToAll (selections : List Selection) :
    (addTypenameToAll selections).isEmpty = !keepOne selections := by
  rw [addTypenameToAll_eq, List.isEmpty_map, keepOne]
  induction selections with
  | nil => rfl
  | cons s rest ih =>
    rw [List.filter_cons, List.any_cons, Bool.not_or, ← ih]
    cases s.isTypename <;> rfl

mutual

theorem Selection.isInhabited_addTypename : ∀ s : Selection, s.addTypename.isInhabited = s.keepsSets
  | .field _ [] => rfl
  | .field head (s :: rest) => by
    rw [Selection.addTypename, Selection.isInhabited, allInhabited,
      allInhabited_addTypename (s :: rest)]
    rfl
  | .spread _ => rfl
  | .inline head selections => by
    rw [Selection.addTypename, Selection.isInhabited, isEmpty_addTypenameToAll, Bool.not_not,
      allInhabited_addTypename selections]
    rfl

theorem allInhabited_addTypename : ∀ selections : List Selection,
    allInhabited (addTypenameToAll selections) = keepSets selections
  | [] => rfl
  | s :: rest => by
    rw [addTypenameToAll, keepSets, ← allInhabited_addTypename rest]
    cases h : s.isTypename with
    | true => rfl
    | false => exact congrArg (· && _) s.isInhabited_addTypename

end

mutual

theorem Selection.isInhabited_plain (string : Text → Text) : ∀ s : Selection,
    (s.plain string).isInhabited = s.isInhabited
  | .field _ selections => allInhabited_plain string selections
  | .spread _ => rfl
  | .inline _ selections => by
    rw [Selection.plain, Selection.isInhabited, Selection.isInhabited,
      allInhabited_plain string selections]
    cases selections <;> rfl

theorem allInhabited_plain (string : Text → Text) : ∀ selections : List Selection,
    allInhabited (Selection.plainOfAll string selections) = allInhabited selections
  | [] => rfl
  | s :: rest => by
    rw [Selection.plainOfAll, allInhabited, allInhabited, s.isInhabited_plain string,
      allInhabited_plain string rest]

end

/-- **The sets that are left without selections are those that are emptied.** -/
theorem isInhabited_addTypename (d : Document) : d.addTypename.isInhabited = d.keepsSets := by
  rw [isInhabited, addTypename, List.all_map, List.all_map, keepsSets]
  congr 2
  · funext o
    show (!(addTypenameToAll o.selections).isEmpty && allInhabited (addTypenameToAll o.selections)) = _
    rw [isEmpty_addTypenameToAll, Bool.not_not, allInhabited_addTypename]
  · funext f
    exact allInhabited_addTypename f.selections

theorem isInhabited_plain (string : Text → Text) (d : Document) :
    (d.plain string).isInhabited = d.isInhabited := by
  have hset : ∀ ss : List Selection, (ss.map (Selection.plain string)).isEmpty = ss.isEmpty ∧
      allInhabited (ss.map (Selection.plain string)) = allInhabited ss := fun ss =>
    ⟨List.isEmpty_map, by rw [← Selection.plainOfAll_eq, allInhabited_plain]⟩
  rw [isInhabited, plain, List.all_map, List.all_map, isInhabited]
  congr 2
  · funext o
    show (!(o.selections.map _).isEmpty && allInhabited (o.selections.map _)) = _
    rw [(hset o.selections).1, (hset o.selections).2]
  · funext f
    show (!(f.selections.map _).isEmpty && allInhabited (f.selections.map _)) = _
    rw [(hset f.selections).1, (hset f.selections).2]

/-- Selections that can be written have selections in their inline fragments. -/
theorem SetFits.allInhabited {levels : Nat} {selections : List Selection}
    (h : SetFits levels selections) : allInhabited selections = true := by
  induction levels generalizing selections with
  | zero => exact absurd h id
  | succ levels ih =>
    rw [allInhabited_eq, List.all_eq_true]
    intro s hs
    cases s with
    | field head inner =>
      rw [Selection.isInhabited]
      by_cases hne : inner = []
      · rw [hne]; rfl
      · exact ih ((h.2 _ hs).2.2 hne)
    | spread head => rfl
    | inline head inner =>
      have hinner := (h.2 _ hs).2
      rw [Selection.isInhabited, ih hinner, Bool.and_true, Bool.not_eq_true', List.isEmpty_eq_false_iff]
      exact hinner.ne_nil

/-- A document that is parsed has selections everywhere. -/
theorem isInhabited_of_parse {source : Text} {filePath : Option Text} {limit : Nat} {d : Document}
    (h : parse source filePath limit = .ok d) : d.isInhabited = true := by
  have hset : ∀ {ss : List Selection}, SetFits limit ss → (!ss.isEmpty && allInhabited ss) = true :=
    fun hs => by
      rw [hs.allInhabited, Bool.and_true, Bool.not_eq_true', List.isEmpty_eq_false_iff]
      exact hs.ne_nil
  rw [isInhabited, Bool.and_eq_true, List.all_eq_true, List.all_eq_true]
  refine ⟨fun o ho => ?_, fun f hf => ?_⟩
  · have hdefines : d.Defines (.operation o) := ho
    exact hset (spelled_of_parse h hdefines).1.selections
  · have hdefines : d.Defines (.fragment f) := hf
    exact hset (spelled_of_parse h hdefines).1.selections

/-! ### What can still be written -/

theorem fitsWith_typenameField (levels : Nat) (nested : List Selection → Prop) :
    typenameField.FitsWith levels nested :=
  ⟨fun _ h => absurd h List.not_mem_nil, fun _ h => absurd h List.not_mem_nil,
    fun h => absurd rfl h⟩

/-- **Selections that can be written still can**, if no set is emptied: with a type name in front, and
without one if some selection is left. -/
theorem SetFits.addTypename {levels : Nat} {selections : List Selection}
    (h : SetFits levels selections) (hk : keepSets selections = true) :
    SetFits levels (typenameField :: addTypenameToAll selections) ∧
      (keepOne selections = true → SetFits levels (addTypenameToAll selections)) := by
  induction levels generalizing selections with
  | zero => exact absurd h id
  | succ levels ih =>
    have hall : ∀ t ∈ addTypenameToAll selections, t.FitsWith levels (SetFits levels) := by
      intro t ht
      obtain ⟨s, hs, hname, rfl⟩ := mem_addTypenameToAll.mp ht
      rw [keepSets_eq, List.all_eq_true] at hk
      have hks : s.keepsSets = true := by simpa [hname] using hk s hs
      have hfits := h.2 s hs
      cases s with
      | field head inner =>
        cases inner with
        | nil => exact hfits
        | cons first rest =>
          exact ⟨hfits.1, hfits.2.1, fun _ => (ih (hfits.2.2 (List.cons_ne_nil _ _)) hks).1⟩
      | spread head => exact hfits
      | inline head inner =>
        rw [Selection.keepsSets, Bool.and_eq_true] at hks
        exact ⟨hfits.1, (ih hfits.2 hks.2).2 hks.1⟩
    refine ⟨⟨List.cons_ne_nil _ _, List.forall_mem_cons.mpr ⟨fitsWith_typenameField _ _, hall⟩⟩,
      fun hone => ⟨fun hnil => ?_, hall⟩⟩
    have hempty := isEmpty_addTypenameToAll selections
    rw [hnil, hone] at hempty
    cases hempty

/-! ### Tokens -/

section Tokens
variable {string : Text → Text}

theorem areSpelled_setTokens {selections : List Selection} :
    AreSpelled (Selection.setTokens string selections) ↔
      AreSpelled (Selection.tokensOfAll string selections) := by
  cases selections with
  | nil => exact Iff.rfl
  | cons s rest =>
    rw [Selection.setTokens, areSpelled_cons, areSpelled_append, areSpelled_cons]
    exact ⟨fun h => h.2.1, fun h => ⟨trivial, h, trivial, List.forall_mem_nil _⟩⟩

theorem areSpelled_typenameField : AreSpelled (typenameField.tokens string) :=
  List.forall_mem_singleton.mpr ⟨_, _, rfl, rfl, by decide +kernel⟩

mutual

theorem Selection.areSpelled_addTypename : ∀ {s : Selection}, AreSpelled (s.tokens string) →
    AreSpelled (s.addTypename.tokens string)
  | .field _ [], h => h
  | .field head (s :: rest), h => by
    rw [Selection.tokens, areSpelled_append, areSpelled_setTokens] at h
    rw [Selection.addTypename, Selection.tokens, areSpelled_append, areSpelled_setTokens,
      Selection.tokensOfAll, areSpelled_append]
    exact ⟨h.1, areSpelled_typenameField, areSpelled_addTypenameToAll h.2⟩
  | .spread _, h => h
  | .inline head selections, h => by
    rw [Selection.tokens, areSpelled_append, areSpelled_setTokens] at h
    rw [Selection.addTypename, Selection.tokens, areSpelled_append, areSpelled_setTokens]
    exact ⟨h.1, areSpelled_addTypenameToAll h.2⟩

/-- Names and numbers are still spelled as such. -/
theorem areSpelled_addTypenameToAll : ∀ {selections : List Selection},
    AreSpelled (Selection.tokensOfAll string selections) →
      AreSpelled (Selection.tokensOfAll string (addTypenameToAll selections))
  | [], h => h
  | s :: rest, h => by
    rw [Selection.tokensOfAll, areSpelled_append] at h
    rw [addTypenameToAll]
    split_ifs
    · exact areSpelled_addTypenameToAll h.2
    · rw [Selection.tokensOfAll, areSpelled_append]
      exact ⟨Selection.areSpelled_addTypename h.1, areSpelled_addTypenameToAll h.2⟩

end

end Tokens

/-! ### Definitions -/

/-- The definition with type names. -/
def Definition.addTypename : Definition → Definition
  | .operation o => .operation { o with selections := addTypenameToAll o.selections }
  | .fragment f => .fragment { f with selections := typenameField :: addTypenameToAll f.selections }

/-- Putting type names into the definition empties no set. -/
def Definition.keepsSets : Definition → Bool
  | .operation o => keepOne o.selections && keepSets o.selections
  | .fragment f => keepSets f.selections

theorem addTypename_ofDefinitions (definitions : List Definition) :
    (ofDefinitions definitions).addTypename =
      ofDefinitions (definitions.map Definition.addTypename) := by
  unfold Document.addTypename ofDefinitions
  congr 1
  · rw [List.filterMap_map, List.map_filterMap]
    congr 1
    funext d
    cases d <;> rfl
  · rw [List.filterMap_map, List.map_filterMap]
    congr 1
    funext d
    cases d <;> rfl
  · rw [List.map_map]
    refine List.map_congr_left fun d _ => ?_
    cases d <;> rfl

theorem keepsSets_ofDefinitions (definitions : List Definition) :
    (ofDefinitions definitions).keepsSets = definitions.all Definition.keepsSets := by
  induction definitions with
  | nil => rfl
  | cons x rest ih =>
    rw [List.all_cons, ← ih]
    cases x with
    | operation o => exact Bool.and_assoc _ _ _
    | fragment f => exact Bool.and_left_comm _ _ _

theorem Definition.areSpelled_addTypename {x : Definition} (h : AreSpelled (x.tokens id)) :
    AreSpelled (x.addTypename.tokens id) := by
  cases x with
  | operation o =>
    rw [Definition.tokens, Operation.tokens] at h
    show AreSpelled (if o.IsShort then Selection.setTokens id (addTypenameToAll o.selections)
      else Operation.longTokens id { o with selections := addTypenameToAll o.selections } _)
    split_ifs at h ⊢ with hshort
    · exact areSpelled_setTokens.mpr (areSpelled_addTypenameToAll (areSpelled_setTokens.mp h))
    · rw [Operation.longTokens, areSpelled_cons, areSpelled_append, areSpelled_append,
        areSpelled_append, areSpelled_setTokens] at h ⊢
      exact ⟨h.1, h.2.1, h.2.2.1, h.2.2.2.1, areSpelled_addTypenameToAll h.2.2.2.2⟩
  | fragment f =>
    rw [Definition.tokens, Fragment.tokens, areSpelled_cons, areSpelled_cons, areSpelled_cons,
      areSpelled_cons, areSpelled_append, areSpelled_setTokens] at h
    rw [Definition.addTypename, Definition.tokens, Fragment.tokens, areSpelled_cons, areSpelled_cons,
      areSpelled_cons, areSpelled_cons, areSpelled_append, areSpelled_setTokens,
      Selection.tokensOfAll, areSpelled_append]
    exact ⟨h.1, h.2.1, h.2.2.1, h.2.2.2.1, h.2.2.2.2.1, areSpelled_typenameField,
      areSpelled_addTypenameToAll h.2.2.2.2.2⟩

theorem Definition.Fits.addTypename {x : Definition} {limit : Nat} (h : x.Fits limit)
    (hk : x.keepsSets = true) : x.addTypename.Fits limit := by
  cases x with
  | operation o =>
    obtain ⟨hone, hall⟩ := Bool.and_eq_true_iff.mp hk
    exact ⟨h.variableDefinitions, h.directives, (h.selections.addTypename hall).2 hone⟩
  | fragment f => exact ⟨h.name, h.directives, (h.selections.addTypename hk).1⟩

/-! ### The result is printed -/

/-- **A document with type names is printed as a text that is parsed as that document**, up to places,
files and strings that are sanitised, exactly if putting the type names in empties no set. -/
theorem parse_addTypename_text {source : Text} {filePath : Option Text} {limit : Nat} {d : Document}
    (h : parse source filePath limit = .ok d) (filePath' : Option Text) :
    (∃ d', parse d.addTypename.text filePath' limit = .ok d' ∧
      d'.plain id = d.addTypename.plain Utf8.sanitise) ↔ d.keepsSets = true := by
  constructor
  · rintro ⟨d', hd', hplain⟩
    calc d.keepsSets = (d.addTypename.plain Utf8.sanitise).isInhabited := by
          rw [isInhabited_plain, isInhabited_addTypename]
      _ = (d'.plain id).isInhabited := by rw [hplain]
      _ = true := by rw [isInhabited_plain, isInhabited_of_parse hd']
  · intro hkeeps
    obtain ⟨definitions, rfl, hne, hall⟩ := definitions_of_parse h
    rw [keepsSets_ofDefinitions, List.all_eq_true] at hkeeps
    rw [addTypename_ofDefinitions]
    refine parse_text_of_fits (by simpa using hne) (fun x hx => ?_) filePath'
    obtain ⟨y, hy, rfl⟩ := List.mem_map.mp hx
    exact ⟨(hall y hy).1.addTypename (hkeeps y hy), Definition.areSpelled_addTypename (hall y hy).2⟩

/-- Type names on their own below fields and in a fragment, and beside others elsewhere. -/
def typenamesBelow : Text :=
  Text.ofString "query Q { a { __typename } ...on T { __typename b } __typename }" ++
    Text.ofString "fragment F on T { __typename }"

theorem parse_addTypename_text_below : ∃ d, parse typenamesBelow none 3 = .ok d ∧
    d.keepsSets = true ∧ ∃ d', parse d.addTypename.text none 3 = .ok d' ∧
      d'.plain id = d.addTypename.plain Utf8.sanitise := by
  have hkeeps : ((parse typenamesBelow none 3).toOption.any keepsSets) = true := by decide +kernel
  obtain ⟨d, hd, hkeeps⟩ := (Option.any_eq_true _ _).mp hkeeps
  have hok := Success.toOption_eq_some.mp hd
  exact ⟨d, hok, hkeeps, (parse_addTypename_text hok none).mpr hkeeps⟩

/-- **An operation that asks for its type name only is left without selections**, and its text is not
parsed. -/
theorem parse_addTypename_text_fails : ∃ d e, parse "query Q { __typename }" none 512 = .ok d ∧
    d.addTypename.text = "query Q
" ∧ parse d.addTypename.text none 512 = .error e := by
  have hfails : ((parse "query Q { __typename }" none 512).toOption.any fun d =>
      d.addTypename.text == ("query Q
" : Text) && !(parse d.addTypename.text none 512).isOk) =
        true := by decide +kernel
  obtain ⟨d, hd, hfails⟩ := (Option.any_eq_true _ _).mp hfails
  rw [Bool.and_eq_true, beq_iff_eq, Bool.not_eq_true'] at hfails
  cases h : parse d.addTypename.text none 512 with
  | ok d' =>
    rw [h] at hfails
    cases hfails.2
  | error e => exact ⟨d, e, Success.toOption_eq_some.mp hd, hfails.1, h⟩

end QueryCompiler.Document
