import QueryCompiler.Proofs.Document.Accepted
import QueryCompiler.Proofs.Schema.Closed
import QueryCompiler.Proofs.Schema.Written
import QueryCompiler.Schema.Definitions
import QueryCompiler.Schema.Introspection
import Mathlib.Data.List.Induction

/-!
# Root types that are named and root types that are not

A text of definitions and an introspection result name the root types of a schema, each in its own
way (`Defines`, `Introspection.rootNamed?`). The type that is named for an operation is its root type
in the schema that is loaded; where none is named, the type of the usual name is the root type, if
there is one (`RootsFollow`), even if other roots are named. A schema is refused for the kind of a
root only if the root is named, or has the usual name where none is named (`MayBlame`).
-/

namespace QueryCompiler.Schema

/-! ### What validation makes of the roots -/

/-- The usual name of the root type of an operation. -/
def usualRoot : OperationType → Text
  | .query => "Query"
  | .mutation => "Mutation"
  | .subscription => "Subscription"

/-- **The root types of a schema follow a choice of names**: the type that is named is the root type,
which is an object type of that name; where none is named, the type of the usual name is the root type,
if there is one. -/
structure RootsFollow (named : OperationType → Option Text) (s : Schema) : Prop where
  given : ∀ o name, named o = some name → ∃ t, s.rootType? o = some t ∧ s.type? name = some t ∧
    t.name = name ∧ t.kind = .object
  usual : ∀ o, named o = none → s.rootType? o = s.type? (usualRoot o)

/-- The root type that is called by the name is named, or has the usual name and none is named. -/
def MayBlame (named : OperationType → Option Text) (o : OperationType) (name : Text) : Prop :=
  named o = some name ∨ named o = none ∧ name = usualRoot o

section Validation
variable {s s' : Schema} {o : OperationType} {name : Text} {named : OperationType → Option Text}

theorem rootName?_withDefaultRoots (s : Schema) (o : OperationType) :
    s.withDefaultRoots.rootName? o = rootOr s.types (usualRoot o) (s.rootName? o) := by
  cases o <;> rfl

/-- Where no root is named, the default root is the type of the usual name. -/
theorem rootType?_withDefaultRoots (h : s.rootName? o = none) :
    s.withDefaultRoots.rootType? o = s.withDefaultRoots.type? (usualRoot o) := by
  rw [rootType?, rootName?_withDefaultRoots, h, rootOr]
  split_ifs with hc
  · rfl
  · rw [Option.bind_none, eq_comm]
    exact (OrderedMap.find?_eq_none _ _).mpr (mt (OrderedMap.contains_iff _ _).mpr hc)

theorem rootsFollow_of_validated (hkeyed : s.IsKeyed) (hnamed : ∀ o, s.rootName? o = named o)
    (h : s.validated = .ok s') : RootsFollow named s' := by
  obtain ⟨rfl, hclosed⟩ := validated_eq_ok.mp h
  refine ⟨fun o name ho => ?_, fun o ho => rootType?_withDefaultRoots ((hnamed o).trans ho)⟩
  have hname : s.withDefaultRoots.rootName? o = some name := by
    rw [rootName?_withDefaultRoots, hnamed, ho, rootOr]
  obtain ⟨t, ht, hkind⟩ := hclosed.roots o name hname
  refine ⟨t, ?_, ht, hkeyed.name_eq_of_type? ht, List.mem_singleton.mp hkind⟩
  rw [rootType?, hname]
  exact ht

theorem rootNotAnObject_mem_violations (h : .rootNotAnObject o name ∈ s.violations) :
    s.rootName? o = some name := by
  rw [violations, List.mem_append, List.mem_flatMap, List.mem_flatMap] at h
  rcases h with ⟨o', -, h⟩ | ⟨e, -, h⟩
  · rw [rootViolations] at h
    split at h
    · split_ifs at h
      · cases List.mem_singleton.mp h
      · cases h
    case h_2 name' hname =>
      split_ifs at h
      · cases h
      · obtain ⟨rfl, rfl⟩ := SchemaError.rootNotAnObject.inj (List.mem_singleton.mp h)
        exact hname
  · exfalso
    simp only [typeViolations, fieldViolations, outputViolations, inputViolations, List.mem_append,
      List.mem_flatMap, List.mem_map, List.mem_filter] at h
    grind

theorem mayBlame_of_validated (hnamed : ∀ o, s.rootName? o = named o)
    (h : s.validated = .error (.rootNotAnObject o name)) : MayBlame named o name := by
  have hroot : s.withDefaultRoots.rootName? o = some name := by
    rw [validated] at h
    split at h
    · cases h
    case h_2 e rest hv =>
      obtain rfl := Except.error.inj h
      exact rootNotAnObject_mem_violations (hv ▸ List.mem_cons_self)
  rw [rootName?_withDefaultRoots, hnamed] at hroot
  cases ho : named o with
  | some name' =>
    rw [ho] at hroot
    exact Or.inl (ho.trans hroot)
  | none =>
    rw [ho, rootOr] at hroot
    split_ifs at hroot
    exact Or.inr ⟨ho, (Option.some.inj hroot).symm⟩

end Validation

/-! ### Texts of definitions -/

/-- The last root type that is given for an operation. -/
def lastRoot? (roots : List (OperationType × Text)) (o : OperationType) : Option Text :=
  (roots.filter fun root => root.1 == o).getLast?.map Prod.snd

/-- The root types that a definition gives. -/
def Definition.given : Definition → List (OperationType × Text)
  | .roots chosen => chosen
  | _ => []

/-- The root type that definitions name for an operation: the last one that they give. -/
def namedRoot? (definitions : List Definition) (o : OperationType) : Option Text :=
  lastRoot? (definitions.flatMap Definition.given) o

/-- The definition is written from one scan to a later one: the root types of a schema in braces after
the keyword, maybe with a description and directives, and any other definition with another keyword. -/
def Definition.IsWritten (start stop : Scan) : Definition → Prop
  | .roots chosen => ∃ description directives, start.Leaves (descriptionTokens description ++
      .name "schema" :: (Document.directivesTokens id directives ++ .punctuator .openBrace ::
        ((chosen.map rootTokens).flatten ++ [.punctuator .closeBrace]))) stop
  | _ => ∃ description, ∃ word : Text, ∃ more,
      start.tokens = descriptionTokens description ++ .name word :: more ∧ word ≠ "schema"

/-- **The definitions of a text**, which are read and written one after the other up to its end. -/
inductive Defines : Scan → List Definition → Prop
  | last {start stop d} : Definition.reader.run start = .ok (d, stop) → d.IsWritten start stop →
      stop.atEnd = true → Defines start [d]
  | more {start stop d ds} : Definition.reader.run start = .ok (d, stop) → d.IsWritten start stop →
      stop.atEnd = false → Defines stop ds → Defines start (d :: ds)

section Naming
variable {o : OperationType} {s s' : Schema}

theorem rootName?_setRoot (s : Schema) (o o' : OperationType) (name : Text) :
    (s.setRoot o' name).rootName? o = if o' = o then some name else s.rootName? o := by
  cases o <;> cases o' <;> rfl

theorem lastRoot?_append (first second : List (OperationType × Text)) (o : OperationType) :
    lastRoot? (first ++ second) o = (lastRoot? second o).or (lastRoot? first o) := by
  rw [lastRoot?, List.filter_append, List.getLast?_append, Option.map_or]
  rfl

/-- Of root types that are given one after the other, the last one counts. -/
theorem rootName?_foldl_setRoot (roots : List (OperationType × Text)) (s : Schema)
    (o : OperationType) : (roots.foldl (fun s root => s.setRoot root.1 root.2) s).rootName? o =
      (lastRoot? roots o).or (s.rootName? o) := by
  induction roots using List.reverseRecOn with
  | nil => rfl
  | append_singleton roots root ih =>
    rw [List.foldl_append, List.foldl_cons, List.foldl_nil, rootName?_setRoot, ih, lastRoot?_append]
    by_cases h : root.1 = o
    · simp [lastRoot?, h]
    · simp [lastRoot?, h]

theorem types_foldl_setRoot (roots : List (OperationType × Text)) (s : Schema) :
    (roots.foldl (fun s root => s.setRoot root.1 root.2) s).types = s.types := by
  induction roots generalizing s with
  | nil => rfl
  | cons root roots ih =>
    rw [List.foldl_cons, ih]
    cases root.1 <;> rfl

/-- **One definition**: it gives the roots that it names, and keeps types under their own names. -/
theorem define_eq_ok {d : Definition} (h : s.define d = .ok s') :
    (∀ o, s'.rootName? o = (lastRoot? d.given o).or (s.rootName? o)) ∧ (s.IsKeyed → s'.IsKeyed) := by
  cases d with
  | roots roots =>
    obtain rfl := Except.ok.inj h
    exact ⟨rootName?_foldl_setRoot roots s, fun hk => hk.of_types_eq (types_foldl_setRoot roots s)⟩
  | directive =>
    obtain rfl := Except.ok.inj h
    exact ⟨fun _ => rfl, id⟩
  | type t =>
    obtain rfl := add_eq_ok h
    exact ⟨fun o => by cases o <;> rfl, fun hk => hk.assign t⟩

/-- The error is about the name of a type that is added. -/
def IsOfName : SchemaError → Prop
  | .unnamedType | .reservedName _ | .duplicateType _ => True
  | _ => False

theorem failsOnly_add (s : Schema) (t : NamedType) : Success.FailsOnly IsOfName (s.add t) := by
  rw [add]
  split_ifs
  · exact Success.failsOnly_error trivial
  · exact Success.failsOnly_error trivial
  · exact Success.failsOnly_error trivial
  · exact Success.failsOnly_ok _

end Naming

namespace Definition

open Reader QueryCompiler.Parser

theorem description_ok {start stop : Scan} {text : Option Text}
    (h : description.run start = .ok (text, stop)) :
    start.Leaves (descriptionTokens text) stop := by
  rw [description, run_peek] at h
  split at h
  case h_1 t ht =>
    rw [run_relax] at h
    obtain ⟨_, htake, rfl⟩ := map_eq_ok.mp h
    exact take_ok_of_next? ht htake
  case h_2 =>
    obtain ⟨rfl, rfl⟩ := pure_eq_ok.mp h
    exact .refl _
  case h_3 =>
    obtain ⟨octet, m, hl, h⟩ := bind_eq_ok.mp h
    cases hl
    split_ifs at h
    · cases h
    · obtain ⟨rfl, rfl⟩ := pure_eq_ok.mp h
      exact .refl _

theorem root_takes : Takes root fun x tokens => tokens = rootTokens x := by
  intro start x stop h
  obtain ⟨operationName, m, hname, h⟩ := bind_eq_ok.mp h
  obtain ⟨_, m₁, hcolon, h⟩ := bind_eq_ok.mp h
  obtain ⟨⟨typeName, lexeme⟩, m₂, htype, h⟩ := bind_eq_ok.mp h
  have htype : m₁.Leaves [.name typeName] m₂ := name_ok (map_eq_ok.mpr ⟨_, htype, rfl⟩)
  cases ho : operationOf? operationName with
  | none =>
    rw [ho] at h
    cases h
  | some o =>
    rw [ho] at h
    obtain ⟨rfl, rfl⟩ := pure_eq_ok.mp h
    have htext : o.text = operationName := by simpa using List.find?_some ho
    refine ⟨_, (name_ok hname).trans ((punctuator_ok hcolon).trans htype), ?_⟩
    show [_] ++ ([_] ++ [_]) = [Token.name o.text, _, _]
    rw [htext]
    rfl

theorem schemaRoots_takes : Takes schemaRoots fun roots tokens => ∃ directives,
    tokens = Document.directivesTokens id directives ++ .punctuator .openBrace ::
      ((roots.map rootTokens).flatten ++ [.punctuator .closeBrace]) := by
  intro start roots stop h
  obtain ⟨ds, m, hds, h⟩ := bind_eq_ok.mp h
  obtain ⟨_, m₁, hopen, h⟩ := bind_eq_ok.mp h
  obtain ⟨_, hl, -, rfl⟩ := directives_takes nestingLimit true nestingLimit start ds m hds
  obtain ⟨_, hl₁, -, parts, hparts, rfl⟩ := root_takes.someUntil m₁ roots stop h
  obtain rfl : parts = roots.map rootTokens := forall₂_eq_map.mp hparts.flip
  exact ⟨_, hl.trans ((punctuator_ok hopen).trans hl₁), ds, rfl⟩

theorem body_ne_roots {text : Option Text} {word : Text} (hword : word ≠ "schema") {start stop : Scan}
    {chosen : List (OperationType × Text)} :
    (body text word).run start ≠ .ok (.roots chosen, stop) := by
  have hother : ∀ {α : Type} {item : Reader true α} {f : α → Definition}, (∀ a, f a ≠ .roots chosen) →
      (take.bind fun _ => item.map f).run start ≠ .ok (.roots chosen, stop) := by
    intro α item f hf h
    obtain ⟨_, m, -, h⟩ := bind_eq_ok.mp h
    obtain ⟨a, -, ha⟩ := map_eq_ok.mp h
    exact hf a ha
  have htype : ∀ t, Definition.type t ≠ .roots chosen := fun t h => by cases h
  rw [body, if_neg hword]
  split_ifs
  · exact hother fun _ h => by cases h
  · exact fun h => by cases h
  · exact hother htype
  · exact hother htype
  · exact hother htype
  · exact hother htype
  · exact hother htype
  · exact hother htype
  · exact fun h => by cases h

/-- **A definition that is read is written there.** -/
theorem isWritten_of_run {start stop : Scan} {d : Definition}
    (h : reader.run start = .ok (d, stop)) : d.IsWritten start stop := by
  obtain ⟨text, m, htext, h⟩ := bind_eq_ok.mp h
  have hl := description_ok htext
  rw [run_peek] at h
  split at h
  case h_2 => cases h
  case h_1 word hword =>
    by_cases hs : word = "schema"
    · subst hs
      obtain ⟨_, m₁, htake, h⟩ := bind_eq_ok.mp h
      obtain ⟨roots, hroots, rfl⟩ := map_eq_ok.mp h
      obtain ⟨_, hl₁, ds, rfl⟩ := schemaRoots_takes m₁ roots stop hroots
      exact ⟨text, ds, hl.trans ((take_ok_of_next? hword htake).trans hl₁)⟩
    · have hwritten : ∃ description, ∃ word : Text, ∃ more,
          start.tokens = descriptionTokens description ++ .name word :: more ∧ word ≠ "schema" := by
        rw [Scan.next?_eq] at hword
        obtain ⟨more, hmore⟩ := List.head?_eq_some_iff.mp hword
        exact ⟨text, word, more, by rw [hl.tokens_eq, hmore], hs⟩
      cases d with
      | directive => exact hwritten
      | type t => exact hwritten
      | roots chosen => exact absurd h (body_ne_roots hs)

end Definition

section Texts
variable {o : OperationType} {s s' : Schema}

/-- **The definitions of a text that is read** give the roots that they name, and keep types under their
own names. -/
theorem defineAll_eq_ok {scan : Scan} (h : defineAll s scan = .ok s') :
    ∃ ds, Defines scan ds ∧ (∀ o, s'.rootName? o = (namedRoot? ds o).or (s.rootName? o)) ∧
      (s.IsKeyed → s'.IsKeyed) := by
  fun_induction defineAll s scan with
  | case1 => cases h
  | case2 => cases h
  | case3 s scan d rest hd s₁ hs₁ hend =>
    obtain rfl := Except.ok.inj h
    obtain ⟨hroots, hkeyed⟩ := define_eq_ok hs₁
    refine ⟨[d], .last hd (Definition.isWritten_of_run hd) hend, fun o => ?_, hkeyed⟩
    rw [hroots, namedRoot?, List.flatMap_singleton]
  | case4 s scan d rest hd s₁ hs₁ hend ih =>
    obtain ⟨ds, hds, hroots', hkeyed'⟩ := ih h
    obtain ⟨hroots, hkeyed⟩ := define_eq_ok hs₁
    refine ⟨d :: ds, .more hd (Definition.isWritten_of_run hd) (by simpa using hend) hds, fun o => ?_,
      fun hk => hkeyed' (hkeyed hk)⟩
    rw [hroots', hroots, namedRoot?, namedRoot?, List.flatMap_cons, lastRoot?_append, Option.or_assoc]

theorem failsOnly_defineAll (s : Schema) (scan : Scan) :
    Success.FailsOnly (fun e => ∀ o name, e ≠ .schema (.rootNotAnObject o name))
      (defineAll s scan) := by
  fun_induction defineAll s scan with
  | case1 => exact Success.failsOnly_error fun _ _ h => by cases h
  | case2 s scan d rest hd e he =>
    refine Success.failsOnly_error fun o name h => ?_
    obtain rfl := LoadError.schema.inj h
    cases d with
    | type t => exact failsOnly_add s t _ he
    | roots chosen => cases he
    | directive => cases he
  | case3 => exact Success.failsOnly_ok _
  | case4 s scan d rest hd s₁ hs₁ hend ih => exact ih

theorem rootName?_initial (o : OperationType) : initial.rootName? o = none := by
  cases o <;> rfl

/-- The schema of a text follows the roots that the definitions name. -/
theorem rootsFollow_of_definitions {source : Text} (h : ofDefinitions source = .ok s) :
    ∃ ds, Defines (Scan.scan source) ds ∧ RootsFollow (namedRoot? ds) s := by
  rw [ofDefinitions] at h
  split at h
  · cases h
  case h_2 s₀ hs₀ =>
    obtain ⟨ds, hds, hroots, hkeyed⟩ := defineAll_eq_ok hs₀
    refine ⟨ds, hds, rootsFollow_of_validated (hkeyed isKeyed_initial) (fun o => ?_)
      (Success.mapError_eq_ok.mp h)⟩
    rw [hroots, rootName?_initial, Option.or_none]

/-- A text is refused for the kind of a root that its definitions name or that has the usual name. -/
theorem mayBlame_of_definitions {source name : Text}
    (h : ofDefinitions source = .error (.schema (.rootNotAnObject o name))) :
    ∃ ds, Defines (Scan.scan source) ds ∧ MayBlame (namedRoot? ds) o name := by
  rw [ofDefinitions] at h
  split at h
  case h_1 e he =>
    obtain rfl := Except.error.inj h
    exact absurd rfl (failsOnly_defineAll _ _ _ he o name)
  case h_2 s₀ hs₀ =>
    obtain ⟨ds, hds, hroots, -⟩ := defineAll_eq_ok hs₀
    refine ⟨ds, hds, mayBlame_of_validated (s := s₀) (fun o => ?_) ?_⟩
    · rw [hroots, rootName?_initial, Option.or_none]
    · cases hv : s₀.validated with
      | ok s => rw [hv] at h; cases h
      | error e =>
        rw [hv] at h
        rw [LoadError.schema.inj (Except.error.inj h)]

end Texts

/-! ### Introspection results -/

namespace Introspection

/-- The key of the root type of an operation. -/
def rootKey : OperationType → Text
  | .query => "queryType"
  | .mutation => "mutationType"
  | .subscription => "subscriptionType"

/-- The root type that a result names for an operation: the name of what is under its key; none if
nothing is there, or null. -/
def rootNamed? (result : Json) (o : OperationType) : Option Text :=
  (result.member? (rootKey o)).bind fun type => (type.memberText "name").toOption

section Results
variable {s s' : Schema} {result : Json} {o : OperationType}

theorem shaped_eq_ok {α : Type} {r : Except Json.ShapeError α} {a : α} :
    shaped r = .ok a ↔ r = .ok a := Success.mapError_eq_ok

theorem addType_eq_ok {j : Json} (h : addType s j = .ok s') :
    s' = s ∨ ∃ t, s.add t = .ok s' := by
  obtain ⟨name, -, h⟩ := Success.bind_eq_ok.mp h
  split_ifs at h
  · exact Or.inl (Except.ok.inj h).symm
  · obtain ⟨t, -, h⟩ := Success.bind_eq_ok.mp h
    exact Or.inr ⟨t, Success.mapError_eq_ok.mp h⟩

/-- Types that are added stand under their own names and name no root. -/
theorem foldlM_addType_eq_ok : ∀ {js : List Json} {s : Schema}, js.foldlM addType s = .ok s' →
    (∀ o, s'.rootName? o = s.rootName? o) ∧ (s.IsKeyed → s'.IsKeyed)
  | [], s, h => by
    obtain rfl := Except.ok.inj h
    exact ⟨fun _ => rfl, id⟩
  | j :: js, s, h => by
    rw [List.foldlM_cons] at h
    obtain ⟨s₁, h₁, h⟩ := Success.bind_eq_ok.mp h
    obtain ⟨hroots, hkeyed⟩ := foldlM_addType_eq_ok h
    rcases addType_eq_ok h₁ with rfl | ⟨t, ht⟩
    · exact ⟨hroots, hkeyed⟩
    · obtain rfl := add_eq_ok ht
      refine ⟨fun o => (hroots o).trans ?_, fun hk => hkeyed (hk.assign t)⟩
      cases o <;> rfl

/-- What is under the key of a root names it, or no root at all. -/
theorem setRootFrom_eq_ok (h : setRootFrom result s (o, rootKey o) = .ok s') :
    s' = (rootNamed? result o).elim s (s.setRoot o) := by
  rw [setRootFrom] at h
  rw [rootNamed?]
  split at h
  case h_1 hm =>
    rw [hm]
    exact (Except.ok.inj h).symm
  case h_2 hm =>
    rw [hm]
    exact (Except.ok.inj h).symm
  case h_3 type hm =>
    obtain ⟨name, hname, h⟩ := Success.bind_eq_ok.mp h
    rw [hm, Option.bind_some, shaped_eq_ok.mp hname]
    exact (Except.ok.inj h).symm

theorem rootName?_elim (name : Option Text) (o' : OperationType) :
    (name.elim s (s.setRoot o')).rootName? o =
      (if o' = o then name else none).or (s.rootName? o) := by
  cases name with
  | none => simp
  | some name =>
    rw [Option.elim_some, rootName?_setRoot]
    split_ifs <;> rfl

theorem isKeyed_elim (h : s.IsKeyed) (name : Option Text) (o : OperationType) :
    (name.elim s (s.setRoot o)).IsKeyed := by
  cases name with
  | none => exact h
  | some name => exact h.of_types_eq (by cases o <;> rfl)

/-- **A result that is read** gives the roots that it names, and keeps types under their own names. -/
theorem read_eq_ok (h : read result = .ok s) :
    (∀ o, s.rootName? o = rootNamed? result o) ∧ s.IsKeyed := by
  obtain ⟨types, -, h⟩ := Success.bind_eq_ok.mp h
  obtain ⟨s₀, hs₀, h⟩ := Success.bind_eq_ok.mp h
  obtain ⟨hroots, hkeyed⟩ := foldlM_addType_eq_ok hs₀
  simp only [rootKeys, List.foldlM_cons, List.foldlM_nil] at h
  obtain ⟨s₁, h₁, h⟩ := Success.bind_eq_ok.mp h
  obtain ⟨s₂, h₂, h⟩ := Success.bind_eq_ok.mp h
  obtain ⟨s₃, h₃, h⟩ := Success.bind_eq_ok.mp h
  obtain rfl := Except.ok.inj h
  obtain rfl := setRootFrom_eq_ok (o := .query) h₁
  obtain rfl := setRootFrom_eq_ok (o := .mutation) h₂
  obtain rfl := setRootFrom_eq_ok (o := .subscription) h₃
  refine ⟨fun o => ?_, isKeyed_elim (isKeyed_elim (isKeyed_elim (hkeyed isKeyed_initial) _ _) _ _) _ _⟩
  simp only [rootName?_elim, hroots, rootName?_initial]
  cases o <;> simp

/-- What may be wrong while a result is read: a shape, a kind, or the name of a type. -/
def IsOfReading : ReadError → Prop
  | .shape _ => True
  | .schema (.unknownKind _) => True
  | .schema e => IsOfName e

theorem failsOnly_shaped {α : Type} (r : Except Json.ShapeError α) :
    Success.FailsOnly IsOfReading (shaped r) := by
  cases r with
  | ok a => exact Success.failsOnly_ok a
  | error e => exact Success.failsOnly_error trivial

theorem failsOnly_addType (s : Schema) (j : Json) :
    Success.FailsOnly IsOfReading (addType s j) := by
  refine (failsOnly_shaped _).bind fun name _ => ?_
  split_ifs
  · exact Success.failsOnly_ok _
  refine Success.FailsOnly.bind ?_ fun t _ => (failsOnly_add s t).mapError fun e he => ?_
  · refine (failsOnly_shaped _).bind fun kind _ => ?_
    cases kindOf? kind with
    | none => exact Success.failsOnly_error trivial
    | some kind => exact failsOnly_shaped _
  · cases e with
    | unknownKind kind => trivial
    | _ => exact he

theorem failsOnly_read (result : Json) : Success.FailsOnly IsOfReading (read result) := by
  refine (failsOnly_shaped _).bind fun types _ => ?_
  refine (Success.FailsOnly.foldlM fun s j _ => failsOnly_addType s j).bind fun s _ => ?_
  refine Success.FailsOnly.foldlM fun s root _ => ?_
  rw [setRootFrom]
  split
  · exact Success.failsOnly_ok _
  · exact Success.failsOnly_ok _
  · exact (failsOnly_shaped _).bind fun name _ => Success.failsOnly_ok _

end Results

end Introspection

section Results
variable {s : Schema} {o : OperationType} {name : Text} {j : Json}

/-- The schema of an introspection result follows the roots that the result names. -/
theorem rootsFollow_of_introspection (h : ofIntrospection j = .ok s) :
    ∃ result, (Introspection.payload j).member? "__schema" = some result ∧
      RootsFollow (Introspection.rootNamed? result) s := by
  rw [ofIntrospection] at h
  split at h
  · cases h
  case h_2 result hresult =>
    split at h
    · cases h
    case h_2 s₀ hs₀ =>
      obtain ⟨hroots, hkeyed⟩ := Introspection.read_eq_ok hs₀
      exact ⟨result, hresult, rootsFollow_of_validated hkeyed hroots h⟩

/-- An introspection result is refused for the kind of a root that it names or that has the usual
name. -/
theorem mayBlame_of_introspection (h : ofIntrospection j = .error (.rootNotAnObject o name)) :
    ∃ result, (Introspection.payload j).member? "__schema" = some result ∧
      MayBlame (Introspection.rootNamed? result) o name := by
  rw [ofIntrospection] at h
  split at h
  · cases h
  case h_2 result hresult =>
    split at h
    case h_1 e he =>
      have hreading := Introspection.failsOnly_read result e he
      cases e with
      | shape e => cases h
      | schema e =>
        -- no root is refused while a result is read
        obtain rfl := Except.error.inj h
        exact absurd hreading id
    case h_2 s₀ hs₀ =>
      exact ⟨result, hresult, mayBlame_of_validated (Introspection.read_eq_ok hs₀).1 h⟩

end Results

/-! ### Both loaders -/

/-- **Roots that are named are respected, and roots that are not named are taken by usual names.** Of
a text of definitions and of an introspection result that are accepted, the type that is named for an
operation is its root type; where none is named, the root type is the type of the usual name, so there
is none exactly if the schema has no type of that name. The two are refused for the kind of a root only
if the root is named, or has the usual name where none is named. -/
theorem loaded_roots (source : Text) (result : Json) :
    (∀ s, ofDefinitions source = .ok s →
      ∃ ds, Defines (Scan.scan source) ds ∧ RootsFollow (namedRoot? ds) s) ∧
    (∀ o name, ofDefinitions source = .error (.schema (.rootNotAnObject o name)) →
      ∃ ds, Defines (Scan.scan source) ds ∧ MayBlame (namedRoot? ds) o name) ∧
    (∀ s, ofIntrospection result = .ok s →
      ∃ j, (Introspection.payload result).member? "__schema" = some j ∧
        RootsFollow (Introspection.rootNamed? j) s) ∧
    ∀ o name, ofIntrospection result = .error (.rootNotAnObject o name) →
      ∃ j, (Introspection.payload result).member? "__schema" = some j ∧
        MayBlame (Introspection.rootNamed? j) o name :=
  ⟨fun _ h => rootsFollow_of_definitions h, fun _ _ h => mayBlame_of_definitions h,
    fun _ h => rootsFollow_of_introspection h, fun _ _ h => mayBlame_of_introspection h⟩

/-- Roots with a description and a directive; the type with the usual name of mutations is none. -/
def editSource : Text :=
  Text.ofString "\"Roots.\" schema @own { query: Q mutation: Edit } type Q { a: Int }" ++
    Text.ofString "type Edit { b: Int } input Mutation { c: Int }"

/-- A root that is an enum. -/
def enumSource : Text := "schema { query: Q mutation: E } type Q { a: Int } enum E { A }"

/-- A type of an introspection result, without its parts. -/
def listedType (kind name : Text) : Json :=
  .ofMembers [("kind", .string kind), ("name", .string name)]

/-- A result that names one type as the root of queries, and lists it and another. -/
def twoTypes (name other kind : Text) : Json :=
  .ofMembers [("data", .ofMembers [("__schema", .ofMembers [
    ("queryType", .ofMembers [("name", .string name)]), ("mutationType", .null),
    ("types", .array [listedType "OBJECT" name, listedType kind other])])])]

theorem loaded_roots_named :
    (∃ s, ofDefinitions editSource = .ok s ∧
      ∃ ds, Defines (Scan.scan editSource) ds ∧ RootsFollow (namedRoot? ds) s) ∧
    (ofDefinitions enumSource = .error (.schema (.rootNotAnObject .mutation "E")) ∧
      ∃ ds, Defines (Scan.scan enumSource) ds ∧ MayBlame (namedRoot? ds) .mutation "E") ∧
    (∃ s, ofIntrospection (twoTypes "Q" "Other" "SCALAR") = .ok s ∧
      ∃ result, (Introspection.payload (twoTypes "Q" "Other" "SCALAR")).member? "__schema" =
        some result ∧ RootsFollow (Introspection.rootNamed? result) s) ∧
    (ofIntrospection (twoTypes "Q" "Mutation" "SCALAR") =
        .error (.rootNotAnObject .mutation "Mutation") ∧
      ∃ result, (Introspection.payload (twoTypes "Q" "Mutation" "SCALAR")).member? "__schema" =
        some result ∧ MayBlame (Introspection.rootNamed? result) .mutation "Mutation") := by
  obtain ⟨s, hs⟩ := Option.isSome_iff_exists.mp
    (show (ofDefinitions editSource).toOption.isSome = true by decide +kernel)
  obtain ⟨s', hs'⟩ := Option.isSome_iff_exists.mp
    (show (ofIntrospection (twoTypes "Q" "Other" "SCALAR")).toOption.isSome = true by decide +kernel)
  have hs := Success.toOption_eq_some.mp hs
  have hs' := Success.toOption_eq_some.mp hs'
  have he : ofDefinitions enumSource = .error (.schema (.rootNotAnObject .mutation "E")) :=
    Success.error?_eq_some.mp (by decide +kernel)
  have he' : ofIntrospection (twoTypes "Q" "Mutation" "SCALAR") =
      .error (.rootNotAnObject .mutation "Mutation") :=
    Success.error?_eq_some.mp (by decide +kernel)
  exact ⟨⟨s, hs, (loaded_roots editSource .null).1 s hs⟩,
    ⟨he, (loaded_roots enumSource .null).2.1 _ _ he⟩,
    ⟨s', hs', (loaded_roots [] (twoTypes "Q" "Other" "SCALAR")).2.2.1 s' hs'⟩,
    he', (loaded_roots [] (twoTypes "Q" "Mutation" "SCALAR")).2.2.2 _ _ he'⟩

/-- An object type with the usual name of mutations, which is not named as a root. -/
def objectSource : Text := "schema { query: Q } type Q { a: Int } type Mutation { b: Int }"

/-- An input type with that name. -/
def inputSource : Text := "schema { query: Q } type Q { a: Int } input Mutation { b: Int }"

/-- **A type becomes the root of mutations by its name only**, and a schema is refused for the kind of
such a type, although the schema definition names the root of queries and no other. -/
theorem unnamed_root_taken :
    (∃ ds s, Defines (Scan.scan objectSource) ds ∧ namedRoot? ds .query = some "Q" ∧
      namedRoot? ds .mutation = none ∧ ofDefinitions objectSource = .ok s ∧
      s.rootType? .mutation ≠ none) ∧
    ∃ ds, Defines (Scan.scan inputSource) ds ∧ namedRoot? ds .query = some "Q" ∧
      namedRoot? ds .mutation = none ∧
      ofDefinitions inputSource = .error (.schema (.rootNotAnObject .mutation "Mutation")) := by
  have hnamed : ∀ source, ((defineAll initial (Scan.scan source)).toOption.any fun s =>
      s.rootName? .query == some ("Q" : Text) && s.rootName? .mutation == none) = true →
      ∃ ds, Defines (Scan.scan source) ds ∧ namedRoot? ds .query = some "Q" ∧
        namedRoot? ds .mutation = none := by
    intro source h
    obtain ⟨s, hs, h⟩ := (Option.any_eq_true _ _).mp h
    obtain ⟨ds, hds, hroots, -⟩ := defineAll_eq_ok (Success.toOption_eq_some.mp hs)
    simp only [rootName?_initial, Option.or_none] at hroots
    rw [Bool.and_eq_true, beq_iff_eq, beq_iff_eq, hroots, hroots] at h
    exact ⟨ds, hds, h⟩
  obtain ⟨s, hs, hroot⟩ := (Option.any_eq_true _ _).mp
    (show ((ofDefinitions objectSource).toOption.any fun s => (s.rootType? .mutation).isSome) = true by
      decide +kernel)
  obtain ⟨ds, hds, hquery, hmutation⟩ := hnamed objectSource (by decide +kernel)
  obtain ⟨ds', hds', hquery', hmutation'⟩ := hnamed inputSource (by decide +kernel)
  refine ⟨⟨ds, s, hds, hquery, hmutation, Success.toOption_eq_some.mp hs,
    Option.isSome_iff_ne_none.mp hroot⟩, ds', hds', hquery', hmutation', ?_⟩
  exact Success.error?_eq_some.mp (by decide +kernel)

end QueryCompiler.Schema
