import QueryCompiler.Lowered.Program
import QueryCompiler.Proofs.Document.Reprint
import QueryCompiler.Proofs.Typed.Steps

/-!
# Places do not matter

A program says nothing of the places in the source of its document: two documents that differ in
places only become the same program, or fail with errors that differ in their places only
(`ofDocument_unplaced`).

`Same` says this of two steps of a resolution. It is kept by sequences (`Same.bind`), and each step
is the same step on the document without places.
-/

namespace QueryCompiler

/-! ### Without places -/

namespace Document

/-- The operation without places. -/
def Operation.unplaced (o : Operation) : Operation := { o.plain id with filePath := o.filePath }

/-- The fragment definition without places. -/
def Fragment.unplaced (f : Fragment) : Fragment := { f.plain id with filePath := f.filePath }

/-- The document without places. The files of its definitions are kept. -/
def unplaced (d : Document) : Document where
  operations := d.operations.map Operation.unplaced
  fragments := d.fragments.map Fragment.unplaced
  order := d.order

theorem map_variable_id (vs : List Variable) : vs.map (Variable.plain id) = vs := by
  conv_rhs => rw [← List.map_id vs]
  refine List.map_congr_left fun v _ => ?_
  rw [Variable.plain]
  cases v with
  | mk name type value =>
    cases value with
    | none => rfl
    | some value => rw [Option.map_some, Value.mapStrings_id]; rfl

theorem Operation.text_unplaced (o : Operation) : o.unplaced.text = o.text :=
  Operation.text_plain (fun _ => rfl) o

theorem Fragment.text_unplaced (f : Fragment) : f.unplaced.text = f.text :=
  Fragment.text_plain (fun _ => rfl) f

/-- Documents from one file that are equal without places and files are equal without places. -/
theorem unplaced_congr {d d' : Document} {filePath : Option Text}
    (ho : ∀ o ∈ d.operations, o.filePath = filePath)
    (ho' : ∀ o ∈ d'.operations, o.filePath = filePath)
    (hf : ∀ f ∈ d.fragments, f.filePath = filePath)
    (hf' : ∀ f ∈ d'.fragments, f.filePath = filePath) (h : d'.plain id = d.plain id) :
    d'.unplaced = d.unplaced := by
  have hop : ∀ os : List Operation, (∀ o ∈ os, o.filePath = filePath) →
      os.map Operation.unplaced =
        (os.map (Operation.plain id)).map fun o => { o with filePath := filePath } := by
    intro os hos
    rw [List.map_map]
    refine List.map_congr_left fun o hm => ?_
    rw [Operation.unplaced, hos o hm]
    rfl
  have hfr : ∀ fs : List Fragment, (∀ f ∈ fs, f.filePath = filePath) →
      fs.map Fragment.unplaced =
        (fs.map (Fragment.plain id)).map fun f => { f with filePath := filePath } := by
    intro fs hfs
    rw [List.map_map]
    refine List.map_congr_left fun f hm => ?_
    rw [Fragment.unplaced, hfs f hm]
    rfl
  have hoperations : d'.operations.map (Operation.plain id) = d.operations.map (Operation.plain id) :=
    congrArg (fun d : Document => d.operations) h
  have hfragments : d'.fragments.map (Fragment.plain id) = d.fragments.map (Fragment.plain id) :=
    congrArg (fun d : Document => d.fragments) h
  have horder : d'.order = d.order := by
    show (d'.plain id).order = (d.plain id).order
    rw [h]
  unfold unplaced
  rw [hop _ ho, hop _ ho', hfr _ hf, hfr _ hf', hoperations, hfragments, horder]

/-! ### Type names -/

theorem Selection.isTypename_plain (s : Selection) : (s.plain id).isTypename = s.isTypename := by
  cases s <;> rfl

mutual

theorem Selection.addTypename_plain : ∀ s : Selection,
    (s.plain id).addTypename = s.addTypename.plain id
  | .field head [] => rfl
  | .field head (s :: rest) => by
    have ih := addTypenameToAll_plain (s :: rest)
    rw [Selection.plainOfAll] at ih
    rw [Selection.plain, Selection.plainOfAll, Selection.addTypename, Selection.addTypename, ih]
    rfl
  | .spread head => rfl
  | .inline head selections => by
    rw [Selection.plain, Selection.addTypename, Selection.addTypename, Selection.plain,
      addTypenameToAll_plain selections]

theorem addTypenameToAll_plain : ∀ selections : List Selection,
    addTypenameToAll (Selection.plainOfAll id selections) =
      Selection.plainOfAll id (addTypenameToAll selections)
  | [] => rfl
  | s :: rest => by
    rw [Selection.plainOfAll, addTypenameToAll, addTypenameToAll, s.isTypename_plain,
      addTypenameToAll_plain rest]
    split_ifs
    · rfl
    · rw [Selection.plainOfAll, s.addTypename_plain]

end

theorem addTypename_unplaced (d : Document) : d.unplaced.addTypename = d.addTypename.unplaced := by
  have hall : ∀ selections : List Selection,
      addTypenameToAll (selections.map (Selection.plain id)) =
        (addTypenameToAll selections).map (Selection.plain id) := by
    intro selections
    rw [← Selection.plainOfAll_eq, ← Selection.plainOfAll_eq, addTypenameToAll_plain]
  unfold addTypename unplaced
  simp only [List.map_map]
  congr 1
  · refine List.map_congr_left fun o _ => ?_
    simp only [Function.comp_apply, Operation.unplaced, Operation.plain, hall]
  · refine List.map_congr_left fun f _ => ?_
    simp only [Function.comp_apply, Fragment.unplaced, Fragment.plain, hall, List.map_cons]
    rfl

end Document

/-- The error without its place. -/
def ResolveError.unplaced : ResolveError → ResolveError
  | .document fault _ => .document fault {}
  | .number error => .number error

/-- The error without its place. -/
def CompileError.unplaced : CompileError → CompileError
  | .resolve error => .resolve error.unplaced
  | .lower error => .lower error

namespace Resolve

open Typed (FieldHead intersect)

/-! ### Steps with the same outcome -/

/-- The results are the same, up to the places of errors. -/
def SameResult {α : Type} (x y : Except ResolveError α) : Prop :=
  x.mapError ResolveError.unplaced = y.mapError ResolveError.unplaced

/-- The steps have the same outcome, up to the places of errors. -/
def Same {α : Type} (x y : Step α) : Prop := ∀ p, SameResult (x p) (y p)

section Same
variable {α β : Type}

theorem Same.refl (x : Step α) : Same x x := fun _ => rfl

theorem same_fail (fault : DocumentFault) (l l' : Location) :
    Same (fail fault l : Step α) (fail fault l') := fun _ => rfl

theorem sameResult_cases {x y : Except ResolveError α} (h : SameResult x y) :
    (∃ a, x = .ok a ∧ y = .ok a) ∨
      ∃ e e', x = .error e ∧ y = .error e' ∧ e.unplaced = e'.unplaced := by
  unfold SameResult at h
  cases x <;> cases y
  · exact Or.inr ⟨_, _, rfl, rfl, by simpa [Except.mapError] using h⟩
  · cases h
  · cases h
  · exact Or.inl ⟨_, congrArg Except.ok (by simpa [Except.mapError] using h), rfl⟩

theorem sameResult_error {e e' : ResolveError} (h : e.unplaced = e'.unplaced) :
    SameResult (.error e : Except ResolveError α) (.error e') := congrArg Except.error h

/-- **Sequences of steps with the same outcome** have the same outcome. -/
theorem Same.bind {x y : Step α} {f g : α → Step β} (h : Same x y) (hf : ∀ a, Same (f a) (g a)) :
    Same (x >>= f) (y >>= g) := by
  intro p
  show SameResult (x p >>= fun r => f r.1 r.2) (y p >>= fun r => g r.1 r.2)
  rcases sameResult_cases (h p) with ⟨r, hx, hy⟩ | ⟨e, e', hx, hy, he⟩
  · rw [hx, hy]
    exact hf r.1 r.2
  · rw [hx, hy]
    exact sameResult_error he

theorem Same.discard {x y : Step α} (h : Same x y) : Same (discard x) (discard y) := by
  show Same (x >>= fun _ => pure PUnit.unit) (y >>= fun _ => pure PUnit.unit)
  exact h.bind fun _ => .refl _

theorem Same.ite {c : Prop} [Decidable c] {x x' y y' : Step α} (hx : Same x x') (hy : Same y y') :
    Same (if c then x else y) (if c then x' else y') := by
  split_ifs
  · exact hx
  · exact hy

/-- A guard that fails at one of two places. -/
theorem Same.guard {c : Prop} [Decidable c] {fault : DocumentFault} {l l' : Location}
    {x y : Unit → Step α} (h : Same (x ()) (y ())) :
    Same (if c then (fail fault l : Step PUnit) >>= x else x ())
      (if c then (fail fault l' : Step PUnit) >>= y else y ()) := by
  split_ifs
  · exact fun p => rfl
  · exact h

theorem Same.lift {x y : Except ResolveError α} (h : SameResult x y) :
    Same (liftM x : Step α) (liftM y) := by
  intro p
  rcases sameResult_cases h with ⟨a, rfl, rfl⟩ | ⟨e, e', rfl, rfl, he⟩
  · rfl
  · exact sameResult_error he

end Same

/-! ### Selections -/

variable (ctx : Context)

theorem lookupType_same (name : Text) (l l' : Location) :
    Same (lookupType ctx name l) (lookupType ctx name l') := by
  unfold lookupType
  cases ctx.schema.type? name with
  | none => exact same_fail _ _ _
  | some t => exact Same.refl _

theorem underConditions_unplaced (types : List Text) : ∀ (directives : List Document.Directive)
    (selection : Typed.Selection),
    SameResult (underConditions types selection (directives.map (Document.Directive.plain id)))
      (underConditions types selection directives)
  | [], _ => rfl
  | d :: rest, selection => by
    have ih := underConditions_unplaced types rest
    have hargs : (d.plain id).arguments = d.arguments := Document.map_plain_id d.arguments
    have hname : (d.plain id).name = d.name := rfl
    have hcondition : isCondition (d.plain id) = isCondition d := rfl
    rw [List.map_cons, underConditions, underConditions, hargs, hname, hcondition]
    by_cases hc : isCondition d = true
    · rw [if_pos hc, if_pos hc]
      cases d.arguments.find? fun a => a.name == ("if" : Text) with
      | none => exact sameResult_error rfl
      | some argument =>
        obtain ⟨_, value⟩ := argument
        cases value with
        | boolean b =>
          by_cases hb : b = (d.name == ("skip" : Text))
          · simp only [if_pos hb]
            rfl
          · simp only [if_neg hb]
            exact ih selection
        | «variable» name => exact ih _
        | int | float | string | null | enum | list | object => exact sameResult_error rfl
    · rw [if_neg hc, if_neg hc]
      exact ih selection

theorem fieldHead_unplaced (parent : NamedType) (f : Document.Field) :
    Same (fieldHead ctx parent (f.plain id)) (fieldHead ctx parent f) := by
  have hargs : (f.plain id).arguments = f.arguments := Document.map_plain_id f.arguments
  have hname : (f.plain id).name = f.name := rfl
  unfold fieldHead
  rw [hargs, hname]
  cases Schema.fieldDefinition parent f.name with
  | none => exact same_fail _ _ _
  | some definition => exact (lookupType_same ctx _ _ _).bind fun type => Same.refl _

theorem nestedTypes_same (head : FieldHead) (type : NamedType) (hasSelections : Bool) (depth : Nat)
    (l l' : Location) :
    Same (nestedTypes ctx head type hasSelections depth l)
      (nestedTypes ctx head type hasSelections depth l') := by
  unfold nestedTypes
  exact .ite (.ite (same_fail _ _ _) (.ite (same_fail _ _ _) (.refl _)))
    (.ite (same_fail _ _ _) (.refl _))

theorem inlineType_unplaced (parent : NamedType) (f : Document.InlineFragment) :
    Same (inlineType ctx parent (f.plain id)) (inlineType ctx parent f) := by
  unfold inlineType
  have hcomposite : ∀ type : NamedType, Same
      (if type.isComposite = true then pure type
        else fail (.inlineOnLeaf type.name) (f.plain id).location : Step NamedType)
      (if type.isComposite = true then pure type
        else fail (.inlineOnLeaf type.name) f.location) :=
    fun type => .ite (.refl _) (same_fail _ _ _)
  have htype : (f.plain id).typeCondition = f.typeCondition := rfl
  rw [htype]
  cases f.typeCondition with
  | none => exact (Same.refl _).bind hcomposite
  | some name => exact (lookupType_same ctx _ _ _).bind hcomposite

section Selections
variable {spread spread' : Text → Location → Step Typed.Fragment}

mutual

theorem one_unplaced (hspread : ∀ name l l', Same (spread name l) (spread' name l'))
    (parent : NamedType) (types : List Text) (depth : Nat) :
    ∀ s : Document.Selection, Same (one ctx spread parent types depth (s.plain id))
      (one ctx spread' parent types depth s)
  | .field f selections => by
    rw [Document.Selection.plain, one, one]
    refine (fieldHead_unplaced ctx parent f).bind fun r => ?_
    obtain ⟨head, type⟩ := r
    have hempty : (Document.Selection.plainOfAll id selections).isEmpty = selections.isEmpty := by
      cases selections <;> rfl
    rw [hempty]
    have hconditions : ∀ nested, Same
        (liftM (underConditions types (.field head nested) (f.plain id).directives) : Step _)
        (liftM (underConditions types (.field head nested) f.directives)) :=
      fun nested => .lift (underConditions_unplaced types f.directives _)
    refine (nestedTypes_same ctx head type _ depth _ _).bind fun nested => ?_
    cases nested with
    | none => exact (Same.refl _).bind hconditions
    | some types =>
      exact (all_unplaced hspread type types (depth + 1) selections).bind fun inner =>
        (Same.refl _).bind hconditions
  | .inline f selections => by
    rw [Document.Selection.plain, one, one]
    refine (inlineType_unplaced ctx parent f).bind fun type => ?_
    exact (all_unplaced hspread type _ depth selections).bind fun inner =>
      .lift (underConditions_unplaced types f.directives _)
  | .spread f => by
    rw [Document.Selection.plain, one, one]
    exact (hspread f.name _ _).bind fun fragment =>
      .lift (underConditions_unplaced types f.directives _)

theorem all_unplaced (hspread : ∀ name l l', Same (spread name l) (spread' name l'))
    (parent : NamedType) (types : List Text) (depth : Nat) :
    ∀ selections : List Document.Selection,
      Same (all ctx spread parent types depth (Document.Selection.plainOfAll id selections))
        (all ctx spread' parent types depth selections)
  | [] => .refl _
  | s :: rest => by
    rw [Document.Selection.plainOfAll, all, all]
    exact (one_unplaced hspread parent types depth s).bind fun first =>
      (all_unplaced hspread parent types depth rest).bind fun others => .refl _

end

/-! ### Definitions -/

theorem ofDefinition_unplaced (hspread : ∀ name l l', Same (spread name l) (spread' name l'))
    (d : Document.Fragment) :
    Same (ofDefinition ctx spread d.unplaced) (ofDefinition ctx spread' d) := by
  unfold ofDefinition
  rw [Document.Fragment.text_unplaced]
  refine (lookupType_same ctx _ _ _).bind fun type => ?_
  have hall := all_unplaced ctx hspread type (ctx.schema.possibleTypesOf type) 1 d.selections
  rw [Document.Selection.plainOfAll_eq] at hall
  exact .guard (hall.bind fun _ => .refl _)

end Selections

theorem find?_unplaced (definitions : List Document.Fragment) (name : Text) :
    (definitions.map Document.Fragment.unplaced).find? (fun d => d.name == name) =
      (definitions.find? fun d => d.name == name).map Document.Fragment.unplaced := by
  rw [List.find?_map]
  rfl

/-- **A spread has the same outcome**, by recursion on the definitions that are not open. -/
theorem fragment_unplaced (definitions : List Document.Fragment) (opened : List Text) (name : Text)
    (l l' : Location) :
    Same (fragment ctx (definitions.map Document.Fragment.unplaced) opened name l)
      (fragment ctx definitions opened name l') := by
  rw [fragment_eq, fragment_eq, find?_unplaced]
  refine (Same.refl _).bind fun p => ?_
  cases p.fragments.find? name with
  | some f => exact .refl _
  | none =>
    simp only
    cases hd : definitions.find? fun d => d.name == name with
    | none => exact same_fail _ _ _
    | some d =>
      simp only [Option.map_some]
      by_cases hn : opened.contains name = true
      · rw [if_pos hn, if_pos hn]
        exact same_fail _ _ _
      · rw [if_neg hn, if_neg hn]
        exact .ite (same_fail _ _ _)
          (ofDefinition_unplaced ctx (fun n l l' =>
            fragment_unplaced definitions (opened ++ [name]) n l l') d)
termination_by (closedDefinitions definitions opened).length
decreasing_by exact length_closedDefinitions_lt hd hn

theorem resolveVariables_same (l l' : Location) : ∀ vs : List Document.Variable,
    Same (vs.mapM (resolveVariable ctx l)) (vs.mapM (resolveVariable ctx l'))
  | [] => by rw [List.mapM_nil, List.mapM_nil]; exact .refl _
  | v :: vs => by
    have hone : Same (resolveVariable ctx l v) (resolveVariable ctx l' v) := by
      unfold resolveVariable
      exact (lookupType_same ctx _ _ _).bind fun type =>
        .guard (.refl _)
    rw [List.mapM_cons, List.mapM_cons]
    exact hone.bind fun r => (resolveVariables_same l l' vs).bind fun rs => .refl _

theorem operation_unplaced (definitions : List Document.Fragment)
    (done : OrderedMap Text Typed.Operation) (o : Document.Operation) :
    Same (operation ctx (definitions.map Document.Fragment.unplaced) done o.unplaced)
      (operation ctx definitions done o) := by
  have hvars : o.unplaced.variableDefinitions = o.variableDefinitions :=
    Document.map_variable_id o.variableDefinitions
  have hname : o.unplaced.name = o.name := rfl
  have hkind : o.unplaced.operation = o.operation := rfl
  unfold operation
  rw [Document.Operation.text_unplaced, hvars, hname, hkind]
  cases o.name with
  | none => exact same_fail _ _ _
  | some name =>
    refine .guard ?_
    cases ctx.schema.rootType? o.operation with
    | none => exact same_fail _ _ _
    | some root =>
      have hall := all_unplaced ctx (fragment_unplaced ctx definitions []) root
        (ctx.schema.possibleTypesOf root) 1 o.selections
      rw [Document.Selection.plainOfAll_eq] at hall
      exact (resolveVariables_same ctx _ _ _).bind fun vars => hall.bind fun _ => .refl _

/-! ### Documents -/

theorem duplicate?_unplaced : ∀ (names : List Text) (definitions : List Document.Fragment),
    duplicate? names (definitions.map Document.Fragment.unplaced) =
      (duplicate? names definitions).map Document.Fragment.unplaced
  | _, [] => rfl
  | names, d :: rest => by
    have hname : d.unplaced.name = d.name := rfl
    rw [List.map_cons, duplicate?, duplicate?, hname, duplicate?_unplaced]
    split_ifs <;> rfl

theorem document_unplaced (d : Document) : Same (document ctx d.unplaced) (document ctx d) := by
  have hfragments : ∀ fs : List Document.Fragment,
      Same ((fs.map Document.Fragment.unplaced).forM fun f =>
          discard (fragment ctx (d.fragments.map Document.Fragment.unplaced) [] f.name f.location))
        (fs.forM fun f => discard (fragment ctx d.fragments [] f.name f.location)) := by
    intro fs
    induction fs with
    | nil => exact .refl _
    | cons f fs ih =>
      exact (fragment_unplaced ctx d.fragments [] f.name _ _).discard.bind fun _ => ih
  have hoperations : ∀ (os : List Document.Operation) (done : OrderedMap Text Typed.Operation),
      Same ((os.map Document.Operation.unplaced).foldlM
          (operation ctx (d.fragments.map Document.Fragment.unplaced)) done)
        (os.foldlM (operation ctx d.fragments) done) := by
    intro os
    induction os with
    | nil => exact fun done => .refl _
    | cons o os ih =>
      intro done
      rw [List.map_cons, List.foldlM_cons, List.foldlM_cons]
      exact (operation_unplaced ctx d.fragments done o).bind ih
  unfold document Document.unplaced
  simp only [duplicate?_unplaced]
  cases duplicate? [] d.fragments with
  | some f => exact same_fail _ _ _
  | none => exact (hfragments d.fragments).bind fun _ => hoperations d.operations ∅

theorem inDefinitionOrder_unplaced (d : Document) (resolved : OrderedMap Text Typed.Fragment) :
    inDefinitionOrder d.unplaced resolved = inDefinitionOrder d resolved := by
  unfold inDefinitionOrder Document.unplaced
  rw [List.filterMap_map]
  rfl

end Resolve

/-! ### Programs -/

theorem Typed.prepared_unplaced (d : Document) (options : CompilerOptions) :
    prepared d.unplaced options = (prepared d options).unplaced := by
  unfold prepared
  split_ifs
  · exact d.addTypename_unplaced
  · rfl

theorem Typed.Program.ofDocument_unplaced (schema : Schema) (d : Document)
    (options : CompilerOptions) :
    Resolve.SameResult (Program.ofDocument schema d.unplaced options)
      (Program.ofDocument schema d options) := by
  unfold Program.ofDocument
  rw [prepared_unplaced]
  simp only [Resolve.inDefinitionOrder_unplaced]
  rcases Resolve.sameResult_cases (Resolve.document_unplaced
      ⟨schema, options.maxSelectionDepth.toNat⟩ (prepared d options) ⟨∅, []⟩) with
    ⟨r, hx, hy⟩ | ⟨e, e', hx, hy, he⟩
  · rw [StateT.run, hx, StateT.run, hy]
    rfl
  · rw [StateT.run, hx, StateT.run, hy]
    exact Resolve.sameResult_error he

/-- **A document is compiled like the document without its places**, up to the places of errors. -/
theorem Lowered.Program.ofDocument_unplaced (schema : Schema) (d : Document)
    (options : CompilerOptions) :
    (Program.ofDocument schema d.unplaced options).mapError CompileError.unplaced =
      (Program.ofDocument schema d options).mapError CompileError.unplaced := by
  unfold Program.ofDocument
  rcases Resolve.sameResult_cases (Typed.Program.ofDocument_unplaced schema d options) with
    ⟨p, hx, hy⟩ | ⟨e, e', hx, hy, he⟩
  · rw [hx, hy]
  · rw [hx, hy]
    exact congrArg (fun e => Except.error (CompileError.resolve e)) he

end QueryCompiler
