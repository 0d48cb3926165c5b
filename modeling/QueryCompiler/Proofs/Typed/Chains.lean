import QueryCompiler.Proofs.Typed.Cycles

/-!
# The limit for chains of fragments

A fragment is refused inside too many others that are being resolved. A fragment that was resolved
before is not entered again, so this bounds the chains that a resolution goes down and no others:
those in which no earlier spread leads to the end already (`Direct`).

* `fragment_length`: a request inside others leaves room for every direct chain from its fragment.
* `ofDocument_direct_length`: a direct chain from the first fragment that leads to its end is within
  the limit.
* `ofDocument_ok_of_long_chain`: a chain whose end is resolved first is not bounded.
-/

namespace QueryCompiler

namespace Document

/-- A chain of fragments that spread one another down to an end, where no spread of a fragment
before the one in the chain leads to the end. -/
inductive Direct (definitions : List Fragment) (target : Text) : List Text → Prop
  | last : Direct definitions target [target]
  | step {f before s after rest} : f ∈ definitions → f.spreads = before ++ s :: after →
      (∀ r ∈ before, ¬ Leads definitions r.name target) →
      Direct definitions target (s.name :: rest) →
      Direct definitions target (f.name :: s.name :: rest)

variable {definitions : List Fragment} {target name : Text} {rest : List Text}

/-- The first fragment of a chain leads to its end. -/
theorem Direct.leads (h : Direct definitions target (name :: rest)) :
    Leads definitions name target := by
  generalize hc : name :: rest = chain at h
  induction h generalizing name rest with
  | last =>
    obtain ⟨rfl, -⟩ := List.cons.inj hc
    exact .refl
  | step hf hs _ _ ih =>
    obtain ⟨rfl, -⟩ := List.cons.inj hc
    refine .head ⟨_, hf, rfl, _, ?_, rfl⟩ (ih rfl)
    rw [hs]
    exact List.mem_append_right _ List.mem_cons_self

end Document

namespace Resolve

open Document (Leads Sorted Direct)

section Chains
variable {ctx : Context} {definitions : List Document.Fragment}

/-- Requests for fragments that do not lead to a target do not find it. -/
theorem Gains.not_found {names : List Text} {target : Text} {p p' : Progress}
    (h : Gains definitions names p p') (ht : target ∉ p.fragments.keys)
    (hnames : ∀ n ∈ names, ¬ Leads definitions n target) : target ∉ p'.fragments.keys := by
  intro hfound
  rcases h.reached target hfound with hbefore | ⟨-, n, hn, hleads⟩
  · exact ht hbefore
  · exact hnames n hn hleads

/-- **A request inside others leaves room for every direct chain** from its fragment to one that is
not resolved yet. -/
theorem fragment_length (hnodup : (definitions.map Document.Fragment.name).Nodup)
    {target name : Text} {rest opened : List Text} {location : Location} {p p' : Progress}
    {f : Typed.Fragment} (hc : Direct definitions target (name :: rest))
    (hsorted : Sorted definitions p.fragments.keys) (ht : target ∉ p.fragments.keys)
    (h : fragment ctx definitions opened name location p = .ok (f, p')) :
    opened.length + (name :: rest).length ≤ ctx.limit := by
  rcases fragment_ok h with ⟨hf, -⟩ | ⟨-, d, hd, -, hlimit, hdef⟩
  · -- A fragment that was resolved before would have led to the target.
    have hname := OrderedMap.mem_keys_of_find? hf
    exact absurd (hsorted.mem_of_leads hname hc.leads) ht
  · cases hc with
    | last => exact hlimit
    | @step e before s after rest he hspreads hbefore hrest =>
      have hed : e = d := Option.some.inj ((find?_of_nodup hnodup e he).symm.trans hd)
      subst hed
      obtain ⟨type, typed, p₁, -, -, ha, -, -⟩ := ofDefinition_ok hdef
      have hruns := all_runs e.selections ha
      rw [requests, show Document.spreadsOfAll e.selections = before ++ s :: after from hspreads,
        List.map_append] at hruns
      obtain ⟨q, hfirst, hlast⟩ := hruns.exists_of_append
      have hgains : Gains definitions (before.map Document.Spread.name) p q :=
        hfirst.gains fun _ _ _ _ _ hs => fragment_gains hnodup hs
      have hq : target ∉ q.fragments.keys := hgains.not_found ht fun n hn => by
        obtain ⟨r, hr, rfl⟩ := List.mem_map.mp hn
        exact hbefore r hr
      cases hlast with
      | cons hsame hs _ =>
        rw [← hsame] at hq
        have hlength := fragment_length hnodup hrest (hsame ▸ hgains.sorted hsorted) hq hs
        simp only [List.length_append, List.length_cons, List.length_nil] at hlength ⊢
        omega
termination_by rest.length

/-- The first fragment of a document that leads to a target leaves room for direct chains to it. -/
theorem document_length {d : Document} {typesUsed : List Text} {p' : Progress}
    {operations : OrderedMap Text Typed.Operation} {earlier later : List Document.Fragment}
    {f : Document.Fragment} {target : Text} {rest : List Text}
    (h : document ctx d ⟨∅, typesUsed⟩ = .ok (operations, p'))
    (hd : d.fragments = earlier ++ f :: later)
    (hearlier : ∀ e ∈ earlier, ¬ Leads d.fragments e.name target)
    (hc : Direct d.fragments target (f.name :: rest)) : (f.name :: rest).length ≤ ctx.limit := by
  obtain ⟨hdup, p₁, hfragments, -⟩ := document_ok h
  have hnodup := (nodup_of_duplicate?_eq_none hdup).1
  have hruns := forM_runs hfragments
  rw [show d.fragments.map _ = earlier.map _ ++ _ from hd ▸ List.map_append, List.map_cons] at hruns
  obtain ⟨q, hfirst, hlast⟩ := hruns.exists_of_append
  have hgains : Gains d.fragments (earlier.map Document.Fragment.name) _ q :=
    hfirst.gains fun _ _ _ _ _ he => fragment_gains hnodup he
  have hq : target ∉ q.fragments.keys := hgains.not_found List.not_mem_nil fun n hn => by
    obtain ⟨e, he, rfl⟩ := List.mem_map.mp hn
    exact hearlier e he
  cases hlast with
  | cons hsame hf _ =>
    rw [← hsame] at hq
    have hlength := fragment_length hnodup hc (hsame ▸ hgains.sorted Document.sorted_nil) hq hf
    rwa [List.length_nil, Nat.zero_add] at hlength

end Chains

end Resolve

namespace Typed

open Document (Direct Leads Refers)

/-- **The limit holds for chains that are resolved from their start.** In a document that is accepted
no chain of fragments is longer than the limit, if the first one is the first fragment of the document
that leads to the last one, and no spread in the chain is behind another one that leads there. -/
theorem ofDocument_direct_length {schema : Schema} {d : Document} {options : CompilerOptions}
    {program : Program} {earlier later : List Document.Fragment} {f : Document.Fragment}
    {target : Text} {rest : List Text} (h : Program.ofDocument schema d options = .ok program)
    (hd : (prepared d options).fragments = earlier ++ f :: later)
    (hearlier : ∀ e ∈ earlier, ¬ Leads (prepared d options).fragments e.name target)
    (hc : Direct (prepared d options).fragments target (f.name :: rest)) :
    (f.name :: rest).length ≤ options.maxSelectionDepth.toNat := by
  obtain ⟨⟨operations, p⟩, hrun, -⟩ := Success.bind_eq_ok.mp h
  exact Resolve.document_length hrun hd hearlier hc

theorem ofDocument_direct_length_nodes : ∃ program,
    Program.ofDocument nodeSchema nodeDocument { maxSelectionDepth := 2 } = .ok program ∧
      Direct nodeDocument.fragments "G" ["F", "G"] ∧ (["F", "G"] : List Text).length ≤ 2 := by
  have hok : (Program.ofDocument nodeSchema nodeDocument { maxSelectionDepth := 2 }).isOk = true := by
    decide +kernel
  have hdirect : Direct nodeDocument.fragments "G" ["F", "G"] :=
    @Direct.step _ _ (nodeDocument.fragments.head (List.cons_ne_nil _ _)) [] ⟨"G", [], ⟨1, 1⟩⟩ [] []
      (List.head_mem _) rfl (fun r hr => by cases hr) .last
  cases h : Program.ofDocument nodeSchema nodeDocument { maxSelectionDepth := 2 } with
  | error e => rw [h] at hok; cases hok
  | ok program =>
    exact ⟨program, rfl, hdirect,
      @ofDocument_direct_length _ _ _ _ [] _ _ _ _ h rfl (fun e he => by cases he) hdirect⟩

/-! ### A long chain that is accepted -/

/-- Three fragments that spread one another, the last one defined first. -/
def upwardSource : Text :=
  Text.ofString "query Q { ...A } fragment C on Query { a }" ++
    Text.ofString "fragment B on Query { ...C } fragment A on Query { ...B }"

/-- **A chain whose end is resolved first is not bounded**: a document is accepted though three
different fragments spread one another and the limit is two. -/
theorem ofDocument_ok_of_long_chain : ∃ schema d program,
    readSource upwardSource = some (schema, d) ∧
    Program.ofDocument schema d { maxSelectionDepth := 2 } = .ok program ∧
    (["A", "B", "C"] : List Text).IsChain (Refers d.fragments) ∧ (["A", "B", "C"] : List Text).Nodup ∧
    ¬ (["A", "B", "C"] : List Text).length ≤ 2 := by
  have haccepted : ((readSource upwardSource).any fun r =>
      (Program.ofDocument r.1 r.2 { maxSelectionDepth := 2 }).isOk &&
        decide ((["A", "B", "C"] : List Text).IsChain (Refers r.2.fragments))) = true := by
    decide +kernel
  cases hr : readSource upwardSource with
  | none => rw [hr] at haccepted; cases haccepted
  | some r =>
    obtain ⟨schema, d⟩ := r
    rw [hr, Option.any_some, Bool.and_eq_true, decide_eq_true_iff] at haccepted
    obtain ⟨hok, hchain⟩ := haccepted
    cases h : Program.ofDocument schema d { maxSelectionDepth := 2 } with
    | error e => rw [h] at hok; cases hok
    | ok program => exact ⟨schema, d, program, rfl, h, hchain, by decide, by decide⟩

end Typed

end QueryCompiler
