import QueryCompiler.Document.Parser
import QueryCompiler.Lowered.Program
import QueryCompiler.Proofs.Typed.Blame
import QueryCompiler.Proofs.Typed.Steps
import QueryCompiler.Schema.Definitions

/-!
# What compiling a source fails with

A source is parsed, resolved and lowered. Each of these reports what is wrong in errors of its own, but
the conversion of a number does not: a number in an argument that no double comes near leaves the
compiler as an error that it does not report (`ofSource_unreported`). This is the only way in which a
compilation fails without a report (`ofSource_reports`).

* `fragment_admits`, `document_admits`: resolving fails at a place of the document, or because of a
  number in an argument that cannot be converted.
-/

namespace QueryCompiler

namespace Resolve

open Document (NumberLiteral)

/-- The error tells of a place in the document, or is what one of certain numbers fails to be converted
with. -/
def IsPlacedOrAbout (numbers : List NumberLiteral) : ResolveError → Prop
  | .document _ _ => True
  | .number e => ∃ n ∈ numbers, n.toJson = .error e

theorem admits_isPlacedOrAbout (numbers : List NumberLiteral) :
    Admits (IsPlacedOrAbout numbers) numbers :=
  ⟨fun _ _ _ => trivial, fun n hn _ he => ⟨n, hn, he⟩⟩

/-- Requests fail at places and because of numbers in the definitions, whatever fragments are being
resolved. -/
theorem fragment_admits {ctx : Context} {d : Document} (opened : List Text) (name : Text)
    (location : Location) : Blames (IsPlacedOrAbout d.argumentNumbers)
      (fragment ctx d.fragments opened name location) := by
  rw [fragment_eq]
  refine blames_get.bind fun p => ?_
  cases p.fragments.find? name with
  | some f => exact blames_pure _
  | none =>
    simp only
    cases hd : d.fragments.find? fun f => f.name == name with
    | none => exact blames_fail trivial
    | some f =>
      have hnumbers : Document.argumentNumbersOfAll f.selections ⊆ d.argumentNumbers := fun n hn =>
        Document.mem_argumentNumbers.mpr (Or.inr ⟨f, List.mem_of_find?_eq_some hd, hn⟩)
      refine .ite (fun _ => blames_fail trivial) fun hn => .ite (fun _ => blames_fail trivial)
        fun _ => ?_
      exact ofDefinition_blames ((admits_isPlacedOrAbout _).mono hnumbers) fun s _ =>
        fragment_admits (opened ++ [name]) s.name s.location
termination_by (closedDefinitions d.fragments opened).length
decreasing_by exact length_closedDefinitions_lt hd hn

/-- **Resolving fails at a place, or because of a number in an argument.** -/
theorem document_admits {ctx : Context} {d : Document} :
    Blames (IsPlacedOrAbout d.argumentNumbers) (document ctx d) :=
  document_blames_of (admits_isPlacedOrAbout _) (fun _ _ => fragment_admits _ _ _)
    fun _ _ => fragment_admits _ _ _

end Resolve

namespace Typed

theorem argumentNumbers_prepared (d : Document) (options : CompilerOptions) :
    (prepared d options).argumentNumbers ⊆ d.argumentNumbers := by
  unfold prepared
  split_ifs
  · exact Document.argumentNumbers_addTypename d
  · exact List.Subset.refl _

theorem ofDocument_failsOnly (schema : Schema) (d : Document) (options : CompilerOptions) :
    Success.FailsOnly (Resolve.IsPlacedOrAbout (prepared d options).argumentNumbers)
      (Program.ofDocument schema d options) := by
  have hrun : Success.FailsOnly (Resolve.IsPlacedOrAbout (prepared d options).argumentNumbers)
      ((Resolve.document ⟨schema, options.maxSelectionDepth.toNat⟩ (prepared d options)).run
        ⟨∅, []⟩) := Resolve.document_admits _
  exact hrun.bind fun _ _ => Success.failsOnly_ok _

end Typed

namespace Lowered

open Document (NumberLiteral parse)
open Resolve (IsPlacedOrAbout)

/-- A source cannot be compiled: it cannot be parsed, or its document cannot be compiled. -/
inductive SourceError
  | parse (error : SyntaxError)
  | compile (error : CompileError)

/-- The compiler reports the error, with a text of its own. -/
def SourceError.IsReported : SourceError → Prop
  | .parse _ => True
  | .compile (.resolve (.document _ _)) => True
  | .compile (.resolve (.number _)) => False
  | .compile (.lower _) => True

/-- The program of a source. -/
def Program.ofSource (schema : Schema) (source : Text) (filePath : Option Text) (limit : Nat)
    (options : CompilerOptions) : Except SourceError Program := do
  let d ← (parse source filePath limit).mapError .parse
  (ofDocument schema d options).mapError .compile

/-- The compiler reports the error, or the error is what one of certain numbers fails to be converted
with. -/
def SourceError.IsReportedOrAbout (numbers : List NumberLiteral) (e : SourceError) : Prop :=
  e.IsReported ∨ ∃ n ∈ numbers, ∃ e', n.toJson = .error e' ∧ e = .compile (.resolve (.number e'))

theorem Program.ofDocument_failsOnly (schema : Schema) (d : Document) (options : CompilerOptions) :
    Success.FailsOnly (fun e : CompileError =>
        (SourceError.compile e).IsReportedOrAbout (Typed.prepared d options).argumentNumbers)
      (ofDocument schema d options) := by
  have hresolve : ∀ e, IsPlacedOrAbout (Typed.prepared d options).argumentNumbers e →
      (SourceError.compile (.resolve e)).IsReportedOrAbout
        (Typed.prepared d options).argumentNumbers := by
    intro e he
    cases e with
    | document fault location => exact Or.inl trivial
    | number e =>
      obtain ⟨n, hn, he⟩ := he
      exact Or.inr ⟨n, hn, e, he, rfl⟩
  have htyped : Success.FailsOnly (fun e : CompileError =>
        (SourceError.compile e).IsReportedOrAbout (Typed.prepared d options).argumentNumbers)
      ((Typed.Program.ofDocument schema d options).mapError .resolve) :=
    (Typed.ofDocument_failsOnly schema d options).mapError hresolve
  have hlowered : ∀ p : Typed.Program, Success.FailsOnly (fun _ => True) (ofTyped p) :=
    fun _ _ _ => trivial
  exact htyped.bind fun p _ => (hlowered p).mapError fun e _ => Or.inl trivial

/-- **A compilation returns a program or reports what is wrong**, unless a number in an argument is
out of range: it may then fail with that number. The numbers in arguments are spelled as numbers, so
there is nothing else that is wrong with them. -/
theorem Program.ofSource_reports (schema : Schema) (source : Text) (filePath : Option Text)
    (limit : Nat) (options : CompilerOptions) :
    ((∃ program, ofSource schema source filePath limit options = .ok program) ∨
      (∃ e, ofSource schema source filePath limit options = .error e ∧ e.IsReported) ∨
      ∃ d n, parse source filePath limit = .ok d ∧
        n ∈ (Typed.prepared d options).argumentNumbers ∧ ¬ n.InRange ∧
        ofSource schema source filePath limit options =
          .error (.compile (.resolve (.number (.outOfRange n.text))))) ∧
    ∀ d, parse source filePath limit = .ok d →
      ∀ n ∈ (Typed.prepared d options).argumentNumbers, n.text.IsNumber n.isFloat := by
  have hnumber : ∀ d, parse source filePath limit = .ok d →
      ∀ n ∈ (Typed.prepared d options).argumentNumbers, n.text.IsNumber n.isFloat := fun d hd n hn =>
    Document.isNumber_of_parse hd (Typed.argumentNumbers_prepared d options hn)
  refine ⟨?_, hnumber⟩
  cases hparse : parse source filePath limit with
  | error e =>
    refine Or.inr (Or.inl ⟨.parse e, ?_, trivial⟩)
    rw [ofSource, hparse]
    rfl
  | ok d =>
    have hsource : ofSource schema source filePath limit options =
        (ofDocument schema d options).mapError .compile := by
      rw [ofSource, hparse]
      rfl
    have hfails : Success.FailsOnly
        (SourceError.IsReportedOrAbout (Typed.prepared d options).argumentNumbers)
        (ofSource schema source filePath limit options) :=
      hsource ▸ (ofDocument_failsOnly schema d options).mapError fun _ h => h
    cases hc : ofSource schema source filePath limit options with
    | ok program => exact Or.inl ⟨program, rfl⟩
    | error e =>
      rcases hfails e hc with hreported | ⟨n, hn, e', he, rfl⟩
      · exact Or.inr (Or.inl ⟨e, rfl, hreported⟩)
      · obtain ⟨hout, rfl⟩ := (NumberLiteral.toJson_eq_error (hnumber d hparse n hn)).mp he
        exact Or.inr (Or.inr ⟨d, n, rfl, hn, hout, rfl⟩)

/-- A schema with a field that takes a number. -/
def numberSchemaText : Text := Text.ofString "type Query { f(x: Float): Int }"

/-- A number that is greater than every double. -/
def hugeNumberSource : Text := Text.ofString "query Q { f(x: 1e999) }"

/-- The outcome is an error that the compiler does not report. -/
def isUnreported : Except SourceError Program → Bool
  | .error (.compile (.resolve (.number _))) => true
  | _ => false

/-- **A number that is out of range leaves the compiler without a report.** -/
theorem Program.ofSource_unreported : ∃ schema e,
    Schema.ofDefinitions numberSchemaText = .ok schema ∧
    ofSource schema hugeNumberSource none 512 {} = .error e ∧ ¬ e.IsReported := by
  have h : ((Schema.ofDefinitions numberSchemaText).toOption.any fun schema =>
      isUnreported (ofSource schema hugeNumberSource none 512 {})) = true := by decide +kernel
  obtain ⟨schema, hschema, h⟩ := (Option.any_eq_true _ _).mp h
  unfold isUnreported at h
  split at h
  case h_1 e he => exact ⟨schema, _, Success.toOption_eq_some.mp hschema, he, fun hr => hr⟩
  case h_2 => cases h

end Lowered

end QueryCompiler
