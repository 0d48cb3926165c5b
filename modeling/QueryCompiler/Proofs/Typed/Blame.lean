import QueryCompiler.Proofs.Document.Numbers
import QueryCompiler.Proofs.Document.SpreadGraph
import QueryCompiler.Typed.Resolve

/-!
# What a resolution fails with

A step of a resolution fails with an error of a kind (`Blames`) if all its parts do. Only requests for
fragments fail because of a spread; the other steps fail for other reasons (`IsOther`), or because a
number in an argument has no value. So selections fail with what the requests of their spreads fail
with, or for such reasons (`all_blames`), and so do operations and documents
(`operation_blames_of`, `document_blames_of`).
-/

namespace QueryCompiler.Resolve

open Document (NumberLiteral argumentNumbersOfAll spreadsOfAll)
open Success (FailsOnly failsOnly_ok failsOnly_error)

/-- Whatever the step fails with is such an error. -/
def Blames {α : Type} (P : ResolveError → Prop) (x : Step α) : Prop := ∀ p, FailsOnly P (x p)

/-- The error is not that a fragment is unknown or spreads itself. -/
def IsOther : ResolveError → Prop
  | .document (.unknownFragment _) _ => False
  | .document (.fragmentCycle _ _) _ => False
  | _ => True

section Blames
variable {α β : Type} {P : ResolveError → Prop}

theorem blames_pure (a : α) : Blames P (pure a : Step α) := fun _ => failsOnly_ok _

theorem blames_get : Blames P (get : Step Progress) := fun _ => failsOnly_ok _

theorem blames_modify (f : Progress → Progress) : Blames P (modify f : Step PUnit) :=
  fun _ => failsOnly_ok _

theorem Blames.bind {x : Step α} {f : α → Step β} (hx : Blames P x) (hf : ∀ a, Blames P (f a)) :
    Blames P (x >>= f) :=
  fun p => (hx p).bind fun r _ => hf r.1 r.2

theorem blames_fail {fault : DocumentFault} {location : Location} (h : P (.document fault location)) :
    Blames P (fail fault location : Step α) :=
  fun _ => failsOnly_error h

theorem Blames.ite {c : Prop} [Decidable c] {x y : Step α} (hx : c → Blames P x)
    (hy : ¬ c → Blames P y) : Blames P (if c then x else y) := by
  split_ifs with hc
  · exact hx hc
  · exact hy hc

/-- A guard that fails at a place. -/
theorem Blames.guard {c : Prop} [Decidable c] {fault : DocumentFault} {location : Location}
    {x : Unit → Step α} (hf : P (.document fault location)) (hx : Blames P (x ())) :
    Blames P (if c then (fail fault location : Step PUnit) >>= x else x ()) :=
  .ite (fun _ => (blames_fail hf).bind fun _ => hx) fun _ => hx

theorem blames_lift {x : Except ResolveError α} (h : FailsOnly P x) :
    Blames P (liftM x : Step α) := by
  intro p
  cases x with
  | error e => exact failsOnly_error (h e rfl)
  | ok a => exact failsOnly_ok _

theorem Blames.mapM {f : α → Step β} : ∀ {as : List α}, (∀ a ∈ as, Blames P (f a)) →
    Blames P (as.mapM f)
  | [], _ => by rw [List.mapM_nil]; exact blames_pure _
  | a :: as, hf => by
    rw [List.mapM_cons]
    exact (hf a List.mem_cons_self).bind fun b =>
      (Blames.mapM fun a' ha => hf a' (List.mem_cons_of_mem _ ha)).bind fun bs => blames_pure _

theorem Blames.forM {f : α → Step PUnit} : ∀ {as : List α}, (∀ a ∈ as, Blames P (f a)) →
    Blames P (as.forM f)
  | [], _ => blames_pure _
  | a :: _, hf => (hf a List.mem_cons_self).bind fun _ =>
    Blames.forM fun a' ha => hf a' (List.mem_cons_of_mem _ ha)

theorem Blames.foldlM {f : β → α → Step β} : ∀ {as : List α}, (∀ b, ∀ a ∈ as, Blames P (f b a)) →
    ∀ b, Blames P (as.foldlM f b)
  | [], _, _ => blames_pure _
  | a :: as, hf, b => by
    rw [List.foldlM_cons]
    exact (hf b a List.mem_cons_self).bind fun b' =>
      Blames.foldlM (fun b a' ha => hf b a' (List.mem_cons_of_mem _ ha)) b'

end Blames

/-- The errors of a kind are those for reasons other than spreads, as far as they tell of places, and
those that certain numbers fail to be converted with. -/
structure Admits (P : ResolveError → Prop) (numbers : List NumberLiteral) : Prop where
  other : ∀ fault location, IsOther (.document fault location) → P (.document fault location)
  number : ∀ n ∈ numbers, ∀ e, n.toJson = .error e → P (.number e)

theorem Admits.mono {P : ResolveError → Prop} {numbers numbers' : List NumberLiteral}
    (h : Admits P numbers) (hsub : numbers' ⊆ numbers) : Admits P numbers' :=
  ⟨h.other, fun n hn => h.number n (hsub hn)⟩

/-! ### Steps -/

section Steps
variable {ctx : Context} {P : ResolveError → Prop}

theorem argument_blames {a : Document.Argument} (h : Admits P a.value.numbers)
    (definition : FieldDefinition) : Blames P (argument definition a) := by
  unfold argument
  cases hv : a.value.toJson with
  | error e =>
    obtain ⟨n, hn, he⟩ := Document.Value.exists_of_toJson_eq_error hv
    exact fun _ => failsOnly_error (h.number n hn e he)
  | ok value => exact blames_pure _

variable {numbers : List NumberLiteral} (h : Admits P numbers)
include h

theorem lookupType_blames (name : Text) (location : Location) :
    Blames P (lookupType ctx name location) := by
  unfold lookupType
  cases ctx.schema.type? name with
  | none => exact blames_fail (h.other _ _ trivial)
  | some t => exact blames_pure _

theorem underConditions_failsOnly {types : List Text} : ∀ (directives : List Document.Directive)
    (s : Typed.Selection), FailsOnly P (underConditions types s directives)
  | [], _ => failsOnly_ok _
  | d :: rest, s => by
    rw [underConditions]
    split_ifs
    · simp only
      split
      · exact failsOnly_error (h.other _ _ trivial)
      · split
        · split_ifs
          · exact failsOnly_ok _
          · exact underConditions_failsOnly rest s
        · exact underConditions_failsOnly rest _
        · exact failsOnly_error (h.other _ _ trivial)
    · exact underConditions_failsOnly rest s

theorem fieldHead_blames (parent : NamedType) {f : Document.Field}
    (hsub : (f.arguments.flatMap fun a => a.value.numbers) ⊆ numbers) :
    Blames P (fieldHead ctx parent f) := by
  unfold fieldHead
  cases Schema.fieldDefinition parent f.name with
  | none => exact blames_fail (h.other _ _ trivial)
  | some definition =>
    have harguments : ∀ a ∈ f.arguments, Blames P (argument definition a) := fun a ha =>
      argument_blames (h.mono fun n hn => hsub (List.mem_flatMap.mpr ⟨a, ha, hn⟩)) definition
    exact (lookupType_blames h _ _).bind fun type => (blames_modify _).bind fun _ =>
      (Blames.mapM harguments).bind fun args => blames_pure _

theorem nestedTypes_blames (head : Typed.FieldHead) (type : NamedType) (hasSelections : Bool)
    (depth : Nat) (location : Location) :
    Blames P (nestedTypes ctx head type hasSelections depth location) := by
  unfold nestedTypes
  have hfail : ∀ fault, IsOther (.document fault location) →
      Blames P (fail fault location : Step (Option (List Text))) :=
    fun fault hf => blames_fail (h.other _ _ hf)
  exact .ite
    (fun _ => .ite (fun _ => hfail _ trivial) fun _ => .ite (fun _ => hfail _ trivial) fun _ =>
      blames_pure _)
    fun _ => .ite (fun _ => hfail _ trivial) fun _ => blames_pure _

theorem inlineType_blames (parent : NamedType) (f : Document.InlineFragment) :
    Blames P (inlineType ctx parent f) := by
  unfold inlineType
  have hcomposite : ∀ type : NamedType, Blames P (if type.isComposite = true then pure type
      else fail (.inlineOnLeaf type.name) f.location : Step NamedType) :=
    fun type => .ite (fun _ => blames_pure _) fun _ => blames_fail (h.other _ _ trivial)
  cases f.typeCondition with
  | none => exact (blames_pure _).bind hcomposite
  | some name => exact (lookupType_blames h _ _).bind hcomposite

theorem resolveVariable_blames (location : Location) (v : Document.Variable) :
    Blames P (resolveVariable ctx location v) := by
  unfold resolveVariable
  exact (lookupType_blames h _ _).bind fun type =>
    .guard (h.other _ _ trivial) ((blames_modify _).bind fun _ => blames_pure _)

end Steps

/-! ### Selections -/

section Selections
variable {ctx : Context} {P : ResolveError → Prop} {spread : Text → Location → Step Typed.Fragment}

mutual

theorem one_blames : ∀ (s : Document.Selection) {parent : NamedType} {types : List Text}
    {depth : Nat}, Admits P s.argumentNumbers →
    (∀ x ∈ s.spreads, Blames P (spread x.name x.location)) →
      Blames P (one ctx spread parent types depth s)
  | .field f selections, parent, types, depth, h, hs => by
    rw [one]
    refine (fieldHead_blames h parent (List.subset_append_left _ _)).bind fun r => ?_
    have hconditions : ∀ nested, Blames P
        (liftM (underConditions types (.field r.1 nested) f.directives) : Step _) :=
      fun nested => blames_lift (underConditions_failsOnly h _ _)
    refine (nestedTypes_blames h r.1 r.2 _ depth f.location).bind fun nested => ?_
    cases nested with
    | none => exact (blames_pure _).bind hconditions
    | some inside =>
      exact (all_blames selections (h.mono (List.subset_append_right _ _)) hs).bind fun inner =>
        (blames_pure _).bind hconditions
  | .inline f selections, parent, types, depth, h, hs => by
    rw [one]
    exact (inlineType_blames h parent f).bind fun type =>
      (all_blames selections h hs).bind fun inner =>
        blames_lift (underConditions_failsOnly h _ _)
  | .spread f, parent, types, depth, h, hs => by
    rw [one]
    exact (hs f (List.mem_singleton_self f)).bind fun fragment =>
      blames_lift (underConditions_failsOnly h _ _)

/-- **Selections fail for what requests fail for**, or for other reasons than spreads. -/
theorem all_blames : ∀ (selections : List Document.Selection) {parent : NamedType}
    {types : List Text} {depth : Nat}, Admits P (argumentNumbersOfAll selections) →
    (∀ x ∈ spreadsOfAll selections, Blames P (spread x.name x.location)) →
      Blames P (all ctx spread parent types depth selections)
  | [], parent, types, depth, _, _ => by rw [all]; exact blames_pure _
  | s :: rest, parent, types, depth, h, hs => by
    rw [all]
    exact (one_blames s (h.mono (List.subset_append_left _ _))
        fun x hx => hs x (List.mem_append_left _ hx)).bind fun first =>
      (all_blames rest (h.mono (List.subset_append_right _ _))
        fun x hx => hs x (List.mem_append_right _ hx)).bind fun others => blames_pure _

end

theorem ofDefinition_blames {d : Document.Fragment}
    (h : Admits P (argumentNumbersOfAll d.selections))
    (hs : ∀ s ∈ d.spreads, Blames P (spread s.name s.location)) :
    Blames P (ofDefinition ctx spread d) := by
  unfold ofDefinition
  exact (lookupType_blames h _ _).bind fun type =>
    .guard (h.other _ _ trivial) <| (all_blames d.selections h hs).bind fun selections =>
      (blames_modify _).bind fun _ => blames_pure _

end Selections

/-! ### Documents -/

section Documents
variable {ctx : Context} {P : ResolveError → Prop}

theorem operation_blames_of {definitions : List Document.Fragment} {o : Document.Operation}
    (h : Admits P (argumentNumbersOfAll o.selections))
    (hs : ∀ s ∈ spreadsOfAll o.selections,
      Blames P (fragment ctx definitions [] s.name s.location))
    (done : OrderedMap Text Typed.Operation) : Blames P (operation ctx definitions done o) := by
  unfold operation
  cases o.name with
  | none => exact blames_fail (h.other _ _ trivial)
  | some name =>
    refine .guard (h.other _ _ trivial) ?_
    cases ctx.schema.rootType? o.operation with
    | none => exact blames_fail (h.other _ _ trivial)
    | some root =>
      exact (Blames.mapM fun v _ => resolveVariable_blames h o.location v).bind fun vars =>
        (all_blames o.selections h hs).bind fun selections => blames_pure _

/-- **A document fails for what the requests for its fragments fail for**, or for other reasons than
spreads. -/
theorem document_blames_of {d : Document} (h : Admits P d.argumentNumbers)
    (hfragments : ∀ f ∈ d.fragments, Blames P (fragment ctx d.fragments [] f.name f.location))
    (hspreads : ∀ s ∈ d.spreads, Blames P (fragment ctx d.fragments [] s.name s.location)) :
    Blames P (document ctx d) := by
  unfold document
  cases duplicate? [] d.fragments with
  | some f => exact blames_fail (h.other _ _ trivial)
  | none =>
    refine (Blames.forM fun f hf => (hfragments f hf).bind fun _ => blames_pure _).bind fun _ => ?_
    refine Blames.foldlM (fun done o ho => ?_) _
    exact operation_blames_of
      (h.mono fun n hn => Document.mem_argumentNumbers.mpr (Or.inl ⟨o, ho, hn⟩))
      (fun s hs => hspreads s (Document.mem_spreads.mpr (Or.inl ⟨o, ho, hs⟩))) done

end Documents

end QueryCompiler.Resolve
