import QueryCompiler.Proofs.Source.Splitting
import QueryCompiler.Proofs.Typed.Places

/-!
# Formatting does not matter

Sources that split into the same tokens are parsed alike and compiled alike
(`compile_of_same_tokens`): what is parsed is spelled by the tokens, every scan with these tokens
reads it again up to places, and places do not matter.
-/

namespace QueryCompiler

namespace Reader

open QueryCompiler.Parser

/-! ### The file of a definition -/

/-- The file that the definition was read from. -/
def filePathOf : Document.Definition → Option Text
  | .operation o => o.filePath
  | .fragment f => f.filePath

variable {limit : Nat} {filePath : Option Text} {s r : Scan}

theorem operation_filePath {type : OperationType} {o : Document.Operation}
    (h : (operation limit filePath type).run s = .ok (o, r)) : o.filePath = filePath := by
  obtain ⟨_, _, -, h⟩ := bind_eq_ok.mp h
  obtain ⟨_, _, -, h⟩ := bind_eq_ok.mp h
  obtain ⟨_, _, -, h⟩ := bind_eq_ok.mp h
  obtain ⟨_, _, -, h⟩ := bind_eq_ok.mp h
  obtain ⟨_, _, -, h⟩ := bind_eq_ok.mp h
  obtain ⟨_, -, rfl⟩ := map_eq_ok.mp h
  rfl

theorem shorthand_filePath {o : Document.Operation}
    (h : (shorthand limit filePath).run s = .ok (o, r)) : o.filePath = filePath := by
  obtain ⟨_, _, -, h⟩ := bind_eq_ok.mp h
  obtain ⟨_, -, rfl⟩ := map_eq_ok.mp h
  rfl

theorem fragment_filePath {f : Document.Fragment}
    (h : (fragment limit filePath).run s = .ok (f, r)) : f.filePath = filePath := by
  obtain ⟨_, _, -, h⟩ := bind_eq_ok.mp h
  obtain ⟨_, _, -, h⟩ := bind_eq_ok.mp h
  obtain ⟨_, _, -, h⟩ := bind_eq_ok.mp h
  split_ifs at h
  · cases h
  obtain ⟨_, _, -, h⟩ := bind_eq_ok.mp h
  obtain ⟨_, _, -, h⟩ := bind_eq_ok.mp h
  obtain ⟨_, _, -, h⟩ := bind_eq_ok.mp h
  obtain ⟨_, _, -, h⟩ := bind_eq_ok.mp h
  obtain ⟨_, -, rfl⟩ := map_eq_ok.mp h
  rfl

theorem definition_filePath {d : Document.Definition}
    (h : (definition limit filePath).run s = .ok (d, r)) : filePathOf d = filePath := by
  unfold definition at h
  rw [run_peek] at h
  split at h
  case h_1 =>
    obtain ⟨o, ho, rfl⟩ := map_eq_ok.mp h
    exact shorthand_filePath ho
  case h_2 =>
    split_ifs at h
    · obtain ⟨o, ho, rfl⟩ := map_eq_ok.mp h
      exact operation_filePath ho
    · obtain ⟨o, ho, rfl⟩ := map_eq_ok.mp h
      exact operation_filePath ho
    · obtain ⟨o, ho, rfl⟩ := map_eq_ok.mp h
      exact operation_filePath ho
    · obtain ⟨f, hf, rfl⟩ := map_eq_ok.mp h
      exact fragment_filePath hf
    · cases h
  case h_3 => cases h

/-- All definitions that are read come from the file. -/
theorem document_filePath {d : Document} (h : (document limit filePath).run s = .ok (d, r)) :
    (∀ o ∈ d.operations, o.filePath = filePath) ∧ ∀ f ∈ d.fragments, f.filePath = filePath := by
  have htakes : Takes (definition limit filePath) fun d _ => filePathOf d = filePath := by
    intro s d r h
    obtain ⟨tokens, hl, -⟩ := definition_takes limit filePath s d r h
    exact ⟨tokens, hl, definition_filePath h⟩
  obtain ⟨first, m, hfirst, h⟩ := bind_eq_ok.mp h
  obtain ⟨rest, hrest, rfl⟩ := map_eq_ok.mp h
  obtain ⟨-, parts, -, hparts⟩ := whileM_ok htakes hrest
  have hall : ∀ d ∈ first :: rest, filePathOf d = filePath := by
    intro d hd
    rcases List.mem_cons.mp hd with rfl | hd
    · exact definition_filePath hfirst
    · exact forall_of_forall₂ hparts (fun _ _ h => h) d hd
  constructor
  · intro o ho
    obtain ⟨d, hd, he⟩ := List.mem_filterMap.mp ho
    cases d with
    | operation o' =>
      obtain rfl := Option.some.inj he
      exact hall _ hd
    | fragment f => cases he
  · intro f hf
    obtain ⟨d, hd, he⟩ := List.mem_filterMap.mp hf
    cases d with
    | operation o => cases he
    | fragment f' =>
      obtain rfl := Option.some.inj he
      exact hall _ hd

end Reader

namespace Document

theorem filePath_of_parse {source : Text} {filePath : Option Text} {limit : Nat} {d : Document}
    (h : parse source filePath limit = .ok d) :
    (∀ o ∈ d.operations, o.filePath = filePath) ∧ ∀ f ∈ d.fragments, f.filePath = filePath := by
  unfold parse at h
  cases hr : (Reader.document limit filePath).run (Scan.scan source) with
  | error e => rw [hr] at h; cases h
  | ok x =>
    rw [hr] at h
    obtain rfl := Except.ok.inj h
    exact Reader.document_filePath hr

/-- A source with the tokens of one that is parsed is parsed, as the same document without places. -/
theorem parse_of_same_tokens {a b : Text} {tokens : List Token} {filePath : Option Text}
    {limit : Nat} {d : Document} (ha : Scan.Splits a tokens) (hb : Scan.Splits b tokens)
    (h : parse a filePath limit = .ok d) :
    ∃ d', parse b filePath limit = .ok d' ∧ d'.unplaced = d.unplaced := by
  obtain ⟨-, hspelled⟩ := spelledBy_of_parse h
  rw [ha.holds.tokens_eq] at hspelled
  obtain ⟨d', hd', hplain⟩ := parse_of_spelledBy hspelled hb.holds filePath
  obtain ⟨ho, hf⟩ := filePath_of_parse h
  obtain ⟨ho', hf'⟩ := filePath_of_parse hd'
  exact ⟨d', hd', unplaced_congr ho ho' hf hf' hplain⟩

end Document

namespace Lowered

open Document (parse)

/-- **Formatting changes nothing that is compiled.** A source that is parsed splits into tokens. Any
source that splits into the same tokens is parsed, and as the same document up to places; compiled
against any schema, with any options, the two give the same program or errors that differ in places
only. -/
theorem compile_of_same_tokens {a : Text} {filePath : Option Text} {limit : Nat} {d : Document}
    (h : parse a filePath limit = .ok d) :
    (∃ tokens, Scan.Splits a tokens) ∧
      ∀ (b : Text) (tokens : List Token), Scan.Splits a tokens → Scan.Splits b tokens →
        ∃ d', parse b filePath limit = .ok d' ∧ d'.unplaced = d.unplaced ∧
          ∀ (schema : Schema) (options : CompilerOptions),
            (Program.ofDocument schema d' options).mapError CompileError.unplaced =
                (Program.ofDocument schema d options).mapError CompileError.unplaced ∧
              ∀ program, Program.ofDocument schema d options = .ok program →
                Program.ofDocument schema d' options = .ok program := by
  refine ⟨⟨_, Scan.splits_of_isComplete (Document.spelledBy_of_parse h).1⟩,
    fun b tokens ha hb => ?_⟩
  obtain ⟨d', hd', hunplaced⟩ := Document.parse_of_same_tokens ha hb h
  refine ⟨d', hd', hunplaced, fun schema options => ?_⟩
  have hsame : (Program.ofDocument schema d' options).mapError CompileError.unplaced =
      (Program.ofDocument schema d options).mapError CompileError.unplaced := by
    rw [← Program.ofDocument_unplaced schema d', hunplaced, Program.ofDocument_unplaced]
  exact ⟨hsame, fun program hp =>
    Success.mapError_eq_ok.mp (hsame.trans (Success.mapError_eq_ok.mpr hp))⟩

/-- An operation and a fragment, with as few gaps as there can be. -/
def tightSource : Text :=
  Text.ofString "query Q\x7bnode(id:-1.5,s:\"a\\u0062\")@d\x7b...on N\x7bid\x7d...F\x7d\x7d" ++
    Text.ofString "fragment F on N\x7b__typename\x7d"

/-- The same tokens with comments, commas and lines between them, and with a block string. -/
def looseSource : Text :=
  Text.ofString "\n# a query \nquery Q ,\x7b node ( id : -1.5 s : \"\"\"\n  ab\n\"\"\" ) @ d\r\n" ++
    Text.ofString "\x7b ... on N \x7b id , \x7d ... F \x7d \x7d fragment F on N \x7b __typename \x7d #"

theorem compile_of_same_tokens_loose : ∃ d d',
    parse tightSource none 3 = .ok d ∧ parse looseSource none 3 = .ok d' ∧
      d'.unplaced = d.unplaced ∧ ∀ (schema : Schema) (options : CompilerOptions),
        (Program.ofDocument schema d' options).mapError CompileError.unplaced =
            (Program.ofDocument schema d options).mapError CompileError.unplaced ∧
          ∀ program, Program.ofDocument schema d options = .ok program →
            Program.ofDocument schema d' options = .ok program := by
  have hok : (parse tightSource none 3).isOk = true := by decide +kernel
  have hlex : Scan.lex looseSource = Scan.lex tightSource := by decide +kernel
  cases h : parse tightSource none 3 with
  | error e => rw [h] at hok; cases hok
  | ok d =>
    obtain ⟨⟨tokens, ht⟩, hsame⟩ := compile_of_same_tokens h
    have hl : Scan.Splits looseSource tokens :=
      Scan.splits_iff.mpr (hlex.trans (Scan.splits_iff.mp ht))
    obtain ⟨d', hd'⟩ := hsame looseSource tokens ht hl
    exact ⟨d, d', rfl, hd'⟩

end Lowered

end QueryCompiler
