import QueryCompiler.Document.Parser
import QueryCompiler.Proofs.Typed.Blame
import QueryCompiler.Proofs.Typed.Requests
import QueryCompiler.Schema.Definitions

/-!
# Cycles of fragments

Resolving a document ends, and it tells which graphs of spreads are bad (`ofDocument_spreadGraph`).

* Requests for fragments nest no deeper than there are definitions, since a fragment that is being
  resolved is not entered again (`fragment_unrolled`).
* In a document that resolves every spread has a definition, and no fragment leads to itself.
* An error about a spread says what is so in the document: the fragment has no definition, or the
  fragments that are listed spread one another in a circle (`Faithful`, `fragment_blames`).
-/

namespace QueryCompiler

namespace Resolve

open Document (Refers spreadsOfAll)

/-! ### Termination -/

section Unrolling
variable (ctx : Context) (definitions : List Document.Fragment)

/-- A request for a fragment, whose spreads are requested by `inner`. -/
def fragmentWith (inner : List Text → Text → Location → Step Typed.Fragment) (opened : List Text)
    (name : Text) (location : Location) : Step Typed.Fragment := do
  match (← get).fragments.find? name with
  | some f => return f
  | none =>
    match definitions.find? fun d => d.name == name with
    | none => fail (.unknownFragment name) location
    | some d =>
      if opened.contains name then fail (.fragmentCycle name (after name opened)) location
      else if ctx.limit ≤ opened.length then fail (.fragmentNesting ctx.limit name) location
      else ofDefinition ctx (inner (opened ++ [name])) d

variable {ctx definitions}

/-- **Requests nest no deeper than there are definitions that are not open**: it does not matter what
would be done for a request that is nested deeper. -/
theorem fragment_unrolled (inner : List Text → Text → Location → Step Typed.Fragment) :
    ∀ (n : Nat) (opened : List Text), (closedDefinitions definitions opened).length < n →
      (fragmentWith ctx definitions)^[n] inner opened = fragment ctx definitions opened
  | 0, _, h => absurd h (Nat.not_lt_zero _)
  | n + 1, opened, h => by
    funext name location
    rw [Function.iterate_succ_apply', fragmentWith, fragment_eq]
    congr 1
    funext p
    cases p.fragments.find? name with
    | some f => rfl
    | none =>
      simp only
      cases hd : definitions.find? fun d => d.name == name with
      | none => rfl
      | some d =>
        simp only
        by_cases hn : opened.contains name = true
        · rw [if_pos hn, if_pos hn]
        · have hlt := length_closedDefinitions_lt hd hn
          rw [if_neg hn, if_neg hn, fragment_unrolled inner n (opened ++ [name]) (by omega)]

end Unrolling

/-! ### Faithful errors -/

/-- **What an error about a spread says is so in the document.** A fragment that is unknown is spread
at the place and has no definition; the fragments that spread one another in a circle do so in the
order in which they are listed, and the last one spreads the first at the place. -/
def Faithful (d : Document) : ResolveError → Prop
  | .document (.unknownFragment name) location =>
    (∃ s ∈ d.spreads, s.name = name ∧ s.location = location) ∧ ∀ f ∈ d.fragments, f.name ≠ name
  | .document (.fragmentCycle name via) location =>
    (name :: via ++ [name]).IsChain (Refers d.fragments) ∧
      ∃ f ∈ d.fragments, (name :: via).getLast? = some f.name ∧
        ∃ s ∈ f.spreads, s.name = name ∧ s.location = location
  | _ => True

theorem admits_faithful (d : Document) (numbers : List Document.NumberLiteral) :
    Admits (Faithful d) numbers := by
  refine ⟨fun fault location h => ?_, fun _ _ _ _ => trivial⟩
  cases fault with
  | unknownFragment name => exact absurd h id
  | fragmentCycle name via => exact absurd h id
  | _ => trivial

/-- The errors that are faithful to a document with type names are faithful to the document. -/
theorem Faithful.of_prepared {d : Document} {options : CompilerOptions} {e : ResolveError}
    (h : Faithful (Typed.prepared d options) e) : Faithful d e := by
  unfold Typed.prepared at h
  split_ifs at h
  · cases e with
    | number e => trivial
    | document fault location =>
      cases fault with
      | unknownFragment name =>
        obtain ⟨⟨s, hs, hname, hlocation⟩, hnone⟩ := h
        refine ⟨⟨s, Document.spreads_addTypename d hs, hname, hlocation⟩, ?_⟩
        rw [← List.forall_mem_map (P := (· ≠ name)), Document.fragmentNames_addTypename] at hnone
        exact fun f hf => hnone f.name (List.mem_map_of_mem hf)
      | fragmentCycle name via =>
        obtain ⟨hchain, f, hf, hlast, s, hs, hname, hlocation⟩ := h
        obtain ⟨g, hg, hgname, hsub⟩ := Document.exists_of_mem_addTypename hf
        exact ⟨hchain.imp fun _ _ => Document.refers_of_addTypename, g, hg, hgname ▸ hlast, s,
          hsub hs, hname, hlocation⟩
      | _ => trivial
  · exact h

/-- What a request is made for: it is made at the top for a definition or a spread of the document,
and inside fragments, each of which spreads the next, for a spread of the last one. -/
structure Asked (d : Document) (opened : List Text) (name : Text) (location : Location) : Prop where
  chain : opened.IsChain (Refers d.fragments)
  known : name ∈ d.fragments.map Document.Fragment.name ∨
    ∃ s ∈ d.spreads, s.name = name ∧ s.location = location
  last : ∀ n ∈ opened.getLast?, ∃ f ∈ d.fragments, f.name = n ∧
    ∃ s ∈ f.spreads, s.name = name ∧ s.location = location

section Documents
variable {ctx : Context} {d : Document} {opened : List Text} {name : Text} {location : Location}

theorem Asked.chain_concat (h : Asked d opened name location) :
    (opened ++ [name]).IsChain (Refers d.fragments) := by
  refine List.isChain_append.mpr ⟨h.chain, .singleton _, fun x hx y hy => ?_⟩
  obtain rfl := Option.mem_some_iff.mp hy
  obtain ⟨f, hf, hname, s, hs, hsname, -⟩ := h.last x hx
  exact ⟨f, hf, hname, s, hs, hsname⟩

/-- A spread in the definition of the fragment that is asked for asks in turn. -/
theorem Asked.inside (h : Asked d opened name location) {f : Document.Fragment} (hf : f ∈ d.fragments)
    (hname : f.name = name) {s : Document.Spread} (hs : s ∈ f.spreads) :
    Asked d (opened ++ [name]) s.name s.location := by
  refine ⟨h.chain_concat, Or.inr ⟨s, Document.mem_spreads.mpr (Or.inr ⟨f, hf, hs⟩), rfl, rfl⟩,
    fun n hn => ?_⟩
  rw [List.getLast?_concat] at hn
  obtain rfl := Option.mem_some_iff.mp hn
  exact ⟨f, hf, hname, s, hs, rfl, rfl⟩

theorem append_after (h : name ∈ opened) :
    ∃ before, opened = before ++ name :: after name opened := by
  induction opened with
  | nil => cases h
  | cons x rest ih =>
    by_cases hx : x = name
    · refine ⟨[], ?_⟩
      rw [after, List.dropWhile_cons_of_neg (by simpa using hx), List.tail_cons, List.nil_append, hx]
    · obtain ⟨before, hb⟩ := ih ((List.mem_cons.mp h).resolve_left fun he => hx he.symm)
      refine ⟨x :: before, ?_⟩
      rw [after, List.dropWhile_cons_of_pos (by simpa using hx)]
      exact congrArg (x :: ·) hb

/-- The open fragments from the one that is asked for on make a circle. -/
theorem Asked.faithful_cycle (h : Asked d opened name location) (hn : name ∈ opened) :
    Faithful d (.document (.fragmentCycle name (after name opened)) location) := by
  obtain ⟨before, hb⟩ := append_after hn
  have hchain := h.chain_concat
  rw [hb, List.append_assoc] at hchain
  have hlast : opened.getLast? = (name :: after name opened).getLast? := by
    conv_lhs => rw [hb]
    exact List.getLast?_append_of_ne_nil _ (List.cons_ne_nil _ _)
  obtain ⟨n, hsome⟩ := Option.ne_none_iff_exists'.mp
    (mt List.getLast?_eq_none_iff.mp (List.cons_ne_nil name (after name opened)))
  obtain ⟨f, hf, rfl, hs⟩ := h.last n (Option.mem_def.mpr (hlast.trans hsome))
  exact ⟨hchain.right_of_append, f, hf, hsome, hs⟩

end Documents

/-- **Requests fail with faithful errors**, whatever fragments are being resolved. -/
theorem fragment_blames {ctx : Context} {d : Document} {opened : List Text} {name : Text}
    {location : Location} (h : Asked d opened name location) :
    Blames (Faithful d) (fragment ctx d.fragments opened name location) := by
  rw [fragment_eq]
  refine blames_get.bind fun p => ?_
  cases p.fragments.find? name with
  | some f => exact blames_pure _
  | none =>
    simp only
    cases hd : d.fragments.find? fun f => f.name == name with
    | none =>
      have hnone : ∀ f ∈ d.fragments, f.name ≠ name := fun f hf => by
        simpa using List.find?_eq_none.mp hd f hf
      refine blames_fail ⟨h.known.resolve_left fun hmem => ?_, hnone⟩
      obtain ⟨f, hf, hname⟩ := List.mem_map.mp hmem
      exact hnone f hf hname
    | some f =>
      have hname : f.name = name := by simpa using List.find?_some hd
      have hf := List.mem_of_find?_eq_some hd
      refine .ite (fun hn => blames_fail (h.faithful_cycle (by simpa using hn))) fun hn => ?_
      refine .ite (fun _ => blames_fail trivial) fun _ => ?_
      exact ofDefinition_blames (admits_faithful d _) fun s hs =>
        fragment_blames (h.inside hf hname hs)
termination_by (closedDefinitions d.fragments opened).length
decreasing_by exact length_closedDefinitions_lt hd hn

section Documents
variable {ctx : Context} {d : Document}

theorem document_blames : Blames (Faithful d) (document ctx d) := by
  refine document_blames_of (admits_faithful d _)
    (fun f hf => fragment_blames ⟨.nil, Or.inl (List.mem_map_of_mem hf), fun n hn => by cases hn⟩)
    fun s hs => fragment_blames ⟨.nil, Or.inr ⟨s, hs, rfl, rfl⟩, fun n hn => by cases hn⟩

end Documents

/-! ### Accepted documents -/

/-- **A document that resolves has a definition for each spread and no circle of fragments.** -/
theorem document_acyclic {ctx : Context} {d : Document} {typesUsed : List Text} {p' : Progress}
    {operations : OrderedMap Text Typed.Operation}
    (h : document ctx d ⟨∅, typesUsed⟩ = .ok (operations, p')) :
    (d.fragments.map Document.Fragment.name).Nodup ∧
      (∀ s ∈ d.spreads, s.name ∈ d.fragments.map Document.Fragment.name) ∧
      Document.Acyclic d.fragments := by
  obtain ⟨hnodup, hgains⟩ := document_gains h
  have hsorted := hgains.sorted Document.sorted_nil
  have hfound : ∀ f ∈ d.fragments, f.name ∈ p'.fragments.keys := fun f hf =>
    hgains.found (List.mem_append_left _ (List.mem_map_of_mem hf))
  have hdefined : ∀ n ∈ p'.fragments.keys, n ∈ d.fragments.map Document.Fragment.name := fun n hn =>
    ((hgains.reached n hn).resolve_left List.not_mem_nil).1
  refine ⟨hnodup, fun s hs => hdefined _ ?_, hsorted.acyclic fun a b hr => ?_⟩
  · rcases Document.mem_spreads.mp hs with ⟨o, ho, hs⟩ | ⟨f, hf, hs⟩
    · exact hgains.found (List.mem_append_right _
        (List.mem_map_of_mem (List.mem_flatMap.mpr ⟨o, ho, hs⟩)))
    · exact (hsorted.idxOf_lt (hfound f hf) ⟨f, hf, rfl, s, hs, rfl⟩).1
  · obtain ⟨f, hf, rfl, -⟩ := hr
    exact hfound f hf

end Resolve

namespace Typed

open Resolve

theorem fragmentNames_prepared (d : Document) (options : CompilerOptions) :
    (prepared d options).fragments.map Document.Fragment.name =
      d.fragments.map Document.Fragment.name := by
  unfold prepared
  split_ifs
  · exact Document.fragmentNames_addTypename d
  · rfl

/-- **Resolving ends and tells good graphs of spreads from bad ones.** Requests for fragments nest at
most one deeper than there are definitions. A document is accepted only if its fragments have distinct
names, and if, with type names put in where the options ask for them, each spread has a definition and
no fragment leads to itself. An error about a spread tells what is so in the document. -/
theorem ofDocument_spreadGraph (schema : Schema) (d : Document) (options : CompilerOptions) :
    (∀ inner, (fragmentWith ⟨schema, options.maxSelectionDepth.toNat⟩
        (prepared d options).fragments)^[d.fragments.length + 1] inner [] =
      fragment ⟨schema, options.maxSelectionDepth.toNat⟩ (prepared d options).fragments []) ∧
    (∀ program, Program.ofDocument schema d options = .ok program →
      (d.fragments.map Document.Fragment.name).Nodup ∧
      (∀ s ∈ (prepared d options).spreads, s.name ∈ d.fragments.map Document.Fragment.name) ∧
      Document.Acyclic (prepared d options).fragments) ∧
    ∀ e, Program.ofDocument schema d options = .error e → Faithful d e := by
  have hnames := fragmentNames_prepared d options
  refine ⟨fun inner => fragment_unrolled inner _ [] ?_, fun program h => ?_, fun e h => ?_⟩
  · have hlength : (prepared d options).fragments.length = d.fragments.length := by
      rw [← List.length_map Document.Fragment.name, hnames, List.length_map]
    rw [← hlength]
    exact Nat.lt_succ_of_le (List.length_filter_le _ _)
  · obtain ⟨⟨operations, p⟩, hrun, -⟩ := Success.bind_eq_ok.mp h
    rw [← hnames]
    exact document_acyclic hrun
  · refine @Faithful.of_prepared d options e ?_
    cases hrun : (document ⟨schema, options.maxSelectionDepth.toNat⟩ (prepared d options)).run
        ⟨∅, []⟩ with
    | error e' =>
      rw [Program.ofDocument] at h
      simp only [hrun] at h
      cases h
      exact document_blames _ _ hrun
    | ok r =>
      rw [Program.ofDocument] at h
      simp only [hrun] at h
      cases h

/-! ### A circle, and a spread that is not resolved -/

/-- The schema of one field, and the document of a source. -/
def readSource (source : Text) : Option (Schema × Document) := do
  return (← (Schema.ofDefinitions (Text.ofString "type Query { a: String }")).toOption,
    ← (Document.parse source none 3).toOption)

/-- Two fragments that spread one another, and one that leads to them. -/
def circleSource : Text :=
  Text.ofString "query Q { ...A } fragment A on Query { ...B }" ++
    Text.ofString "fragment B on Query { a ...C } fragment C on Query { ...B }"

/-- The outcome is an error that tells of a circle. -/
def isCircle (name : Text) (via : List Text) : Except ResolveError Program → Bool
  | .error (.document (.fragmentCycle name' via') _) => name' == name && via' == via
  | _ => false

theorem ofDocument_spreadGraph_circle : ∃ schema d location,
    readSource circleSource = some (schema, d) ∧
    Program.ofDocument schema d {} = .error (.document (.fragmentCycle "B" ["C"]) location) ∧
    Faithful d (.document (.fragmentCycle "B" ["C"]) location) ∧
    ∃ program, Program.ofDocument nodeSchema nodeDocument {} = .ok program ∧
      Document.Acyclic nodeDocument.fragments := by
  have hcircle : ((readSource circleSource).any fun r =>
      isCircle "B" ["C"] (Program.ofDocument r.1 r.2 {})) = true := by decide +kernel
  have hnodes : (Program.ofDocument nodeSchema nodeDocument {}).isOk = true := by decide +kernel
  cases hr : readSource circleSource with
  | none => rw [hr] at hcircle; cases hcircle
  | some r =>
    obtain ⟨schema, d⟩ := r
    rw [hr, Option.any_some] at hcircle
    unfold isCircle at hcircle
    split at hcircle
    case h_2 => cases hcircle
    case h_1 name via location he =>
      obtain ⟨hname, hvia⟩ := Bool.and_eq_true_iff.mp hcircle
      rw [eq_of_beq hname, eq_of_beq hvia] at he
      cases hn : Program.ofDocument nodeSchema nodeDocument {} with
      | error e => rw [hn] at hnodes; cases hnodes
      | ok program =>
        exact ⟨schema, d, location, rfl, he, (ofDocument_spreadGraph schema d {}).2.2 _ he, program,
          rfl, ((ofDocument_spreadGraph nodeSchema nodeDocument {}).2.1 program hn).2.2⟩

/-- A spread in the selection set of a type name. -/
def spreadInTypename : Text := Text.ofString "query Q { a __typename { ...F } }"

/-- **A spread below a type name is not resolved** if type names are put in anew: a document is
accepted though it has no definition for the spread. -/
theorem ofDocument_ok_of_unknown_spread : ∃ schema d program,
    readSource spreadInTypename = some (schema, d) ∧
    Program.ofDocument schema d { addTypename := true } = .ok program ∧
    ∃ s ∈ d.spreads, s.name ∉ d.fragments.map Document.Fragment.name := by
  have haccepted : ((readSource spreadInTypename).any fun r =>
      (Program.ofDocument r.1 r.2 { addTypename := true }).isOk && !r.2.spreads.isEmpty &&
        r.2.fragments.isEmpty) = true := by decide +kernel
  cases hr : readSource spreadInTypename with
  | none => rw [hr] at haccepted; cases haccepted
  | some r =>
    obtain ⟨schema, d⟩ := r
    rw [hr, Option.any_some, Bool.and_eq_true, Bool.and_eq_true] at haccepted
    obtain ⟨⟨hok, hspread⟩, hnone⟩ := haccepted
    cases h : Program.ofDocument schema d { addTypename := true } with
    | error e => rw [h] at hok; cases hok
    | ok program =>
      obtain ⟨s, hs⟩ := List.exists_mem_of_ne_nil d.spreads (by simpa using hspread)
      refine ⟨schema, d, program, rfl, h, s, hs, ?_⟩
      rw [List.isEmpty_iff.mp hnone]
      exact List.not_mem_nil

end Typed

end QueryCompiler
