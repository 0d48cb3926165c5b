import QueryCompiler.Proofs.Document.SpreadGraph
import QueryCompiler.Proofs.Typed.Steps

/-!
# Runs that follow one another

Two resolutions that find their fragments in different ways come to the same, if the requests for
fragments do. One step follows another (`Follows`) if it comes to whatever the other comes to; the
fragments that the two have found need not be the same, and `Invariants` says what is known of them.
Sequences of steps that follow one another do (`Follows.bind`), and so selections follow if the
requests of their spreads do (`all_follows`).
-/

namespace QueryCompiler.Resolve

open Document (spreadsOfAll)

/-- Fragments by name. -/
abbrev Found := OrderedMap Text Typed.Fragment

/-- What is known of the fragments that two runs have found. -/
structure Invariants where
  /-- What the leading run keeps. -/
  kept : Found → Prop
  /-- What holds before the leading run if it holds after it. -/
  ahead : Found → Prop
  /-- What the following run keeps. -/
  follower : Found → Prop

/-- The second step comes to what the first one comes to. -/
def Invariants.Follows {α : Type} (φ : Invariants) (x y : Step α) : Prop :=
  ∀ p a p', φ.kept p.fragments → x p = .ok (a, p') → φ.kept p'.fragments ∧
    (φ.ahead p'.fragments → φ.ahead p.fragments ∧
      ∀ q, φ.follower q.fragments → ∃ q', y q = .ok (a, q') ∧ φ.follower q'.fragments)

namespace Invariants

variable {α β : Type} {φ : Invariants}

theorem follows_pure (a : α) : φ.Follows (pure a) (pure a) := by
  intro p b p' hp h
  obtain ⟨rfl, rfl⟩ := pure_eq_ok.mp h
  exact ⟨hp, fun ha => ⟨ha, fun q hq => ⟨q, rfl, hq⟩⟩⟩

/-- Nothing follows from a step that fails. -/
theorem follows_fail {fault : DocumentFault} {location : Location} (y : Step α) :
    φ.Follows (fail fault location) y := by
  intro p b p' _ h
  exact absurd h fail_ne_ok

/-- **Sequences follow one another** if their steps do. -/
theorem Follows.bind {x y : Step α} {f g : α → Step β} (h : φ.Follows x y)
    (hf : ∀ a, φ.Follows (f a) (g a)) : φ.Follows (x >>= f) (y >>= g) := by
  intro p b p' hp hrun
  obtain ⟨a, p₁, hx, hrest⟩ := bind_eq_ok.mp hrun
  obtain ⟨hp₁, hfirst⟩ := h p a p₁ hp hx
  obtain ⟨hp', hsecond⟩ := hf a p₁ b p' hp₁ hrest
  refine ⟨hp', fun ha => ?_⟩
  obtain ⟨ha₁, hsecond⟩ := hsecond ha
  obtain ⟨ha₀, hfirst⟩ := hfirst ha₁
  refine ⟨ha₀, fun q hq => ?_⟩
  obtain ⟨q₁, hy, hq₁⟩ := hfirst q hq
  obtain ⟨q', hg, hq'⟩ := hsecond q₁ hq₁
  exact ⟨q', bind_eq_ok.mpr ⟨a, q₁, hy, hg⟩, hq'⟩

theorem Follows.ite {c : Prop} [Decidable c] {x x' y y' : Step α} (hx : φ.Follows x y)
    (hx' : φ.Follows x' y') : φ.Follows (if c then x else x') (if c then y else y') := by
  split_ifs
  · exact hx
  · exact hx'

theorem Follows.guard {c : Prop} [Decidable c] {fault : DocumentFault} {location : Location}
    {x y : Unit → Step α} (h : φ.Follows (x ()) (y ())) :
    φ.Follows (if c then (fail fault location : Step PUnit) >>= x else x ())
      (if c then (fail fault location : Step PUnit) >>= y else y ()) :=
  .ite ((follows_fail _).bind fun _ => h) h

theorem follows_lift (x : Except ResolveError α) : φ.Follows (liftM x) (liftM x) := by
  intro p a p' hp h
  obtain ⟨rfl, rfl⟩ := lift_eq_ok.mp h
  exact ⟨hp, fun ha => ⟨ha, fun q hq => ⟨q, rfl, hq⟩⟩⟩

/-- A step that changes the types used only. -/
theorem follows_useType (ctx : Context) (name : Text) :
    φ.Follows (useType ctx name) (useType ctx name) := by
  intro p a p' hp h
  cases h
  exact ⟨hp, fun ha => ⟨ha, fun q hq => ⟨_, rfl, hq⟩⟩⟩

theorem Follows.mapM {f g : α → Step β} (h : ∀ a, φ.Follows (f a) (g a)) :
    ∀ as : List α, φ.Follows (as.mapM f) (as.mapM g)
  | [] => by rw [List.mapM_nil, List.mapM_nil]; exact follows_pure _
  | a :: as => by
    rw [List.mapM_cons, List.mapM_cons]
    exact (h a).bind fun b => (Follows.mapM h as).bind fun bs => follows_pure _

end Invariants

open Invariants

/-! ### Steps -/

section Steps
variable {φ : Invariants} (ctx : Context)

theorem lookupType_follows (name : Text) (location : Location) :
    φ.Follows (lookupType ctx name location) (lookupType ctx name location) := by
  unfold lookupType
  cases ctx.schema.type? name with
  | none => exact follows_fail _
  | some t => exact follows_pure _

theorem argument_follows (definition : FieldDefinition) (a : Document.Argument) :
    φ.Follows (argument definition a) (argument definition a) := by
  unfold argument
  cases a.value.toJson with
  | error e =>
    intro p r p' _ h
    cases h
  | ok value => exact follows_pure _

theorem fieldHead_follows (parent : NamedType) (f : Document.Field) :
    φ.Follows (fieldHead ctx parent f) (fieldHead ctx parent f) := by
  unfold fieldHead
  cases Schema.fieldDefinition parent f.name with
  | none => exact follows_fail _
  | some definition =>
    refine (lookupType_follows ctx _ _).bind fun type => ?_
    exact (follows_useType ctx _).bind fun _ =>
      (Follows.mapM (argument_follows definition) _).bind fun args => follows_pure _

theorem nestedTypes_follows (head : Typed.FieldHead) (type : NamedType) (hasSelections : Bool)
    (depth : Nat) (location : Location) :
    φ.Follows (nestedTypes ctx head type hasSelections depth location)
      (nestedTypes ctx head type hasSelections depth location) := by
  unfold nestedTypes
  exact .ite (.ite (follows_fail _) (.ite (follows_fail _) (follows_pure _)))
    (.ite (follows_fail _) (follows_pure _))

theorem inlineType_follows (parent : NamedType) (f : Document.InlineFragment) :
    φ.Follows (inlineType ctx parent f) (inlineType ctx parent f) := by
  unfold inlineType
  have hcomposite : ∀ type : NamedType, φ.Follows
      (if type.isComposite = true then pure type
        else fail (.inlineOnLeaf type.name) f.location : Step NamedType)
      (if type.isComposite = true then pure type else fail (.inlineOnLeaf type.name) f.location) :=
    fun type => .ite (follows_pure _) (follows_fail _)
  cases f.typeCondition with
  | none => exact (follows_pure _).bind hcomposite
  | some name => exact (lookupType_follows ctx _ _).bind hcomposite

theorem resolveVariable_follows (location : Location) (v : Document.Variable) :
    φ.Follows (resolveVariable ctx location v) (resolveVariable ctx location v) := by
  unfold resolveVariable
  exact (lookupType_follows ctx _ _).bind fun type =>
    .guard ((follows_useType ctx _).bind fun _ => follows_pure _)

end Steps

/-! ### Selections -/

section Selections
variable {φ : Invariants} {ctx : Context} {spread spread' : Text → Location → Step Typed.Fragment}

mutual

theorem one_follows : ∀ (s : Document.Selection) {parent : NamedType} {types : List Text}
    {depth : Nat},
    (∀ x ∈ s.spreads, φ.Follows (spread x.name x.location) (spread' x.name x.location)) →
      φ.Follows (one ctx spread parent types depth s) (one ctx spread' parent types depth s)
  | .field f selections, parent, types, depth, hs => by
    rw [one, one]
    refine (fieldHead_follows ctx parent f).bind fun r => ?_
    refine (nestedTypes_follows ctx r.1 r.2 _ depth f.location).bind fun nested => ?_
    cases nested with
    | none => exact (follows_pure _).bind fun _ => follows_lift _
    | some inside =>
      exact (all_follows selections hs).bind fun inner =>
        (follows_pure _).bind fun _ => follows_lift _
  | .inline f selections, parent, types, depth, hs => by
    rw [one, one]
    exact (inlineType_follows ctx parent f).bind fun type =>
      (all_follows selections hs).bind fun inner => follows_lift _
  | .spread f, parent, types, depth, hs => by
    rw [one, one]
    exact (hs f (List.mem_singleton_self f)).bind fun fragment => follows_lift _

/-- **Selections follow** if the requests of their spreads do. -/
theorem all_follows : ∀ (selections : List Document.Selection) {parent : NamedType}
    {types : List Text} {depth : Nat},
    (∀ x ∈ spreadsOfAll selections,
      φ.Follows (spread x.name x.location) (spread' x.name x.location)) →
      φ.Follows (all ctx spread parent types depth selections)
        (all ctx spread' parent types depth selections)
  | [], parent, types, depth, _ => by rw [all, all]; exact follows_pure _
  | s :: rest, parent, types, depth, hs => by
    rw [all, all]
    exact (one_follows s fun x hx => hs x (List.mem_append_left _ hx)).bind fun first =>
      (all_follows rest fun x hx => hs x (List.mem_append_right _ hx)).bind fun others =>
        follows_pure _

end

end Selections

end QueryCompiler.Resolve
