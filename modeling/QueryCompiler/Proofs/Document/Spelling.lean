import QueryCompiler.Document.Parser
import QueryCompiler.Proofs.Source.Lexing
import Mathlib.Data.List.Forall2

/-!
# The tokens that spell a document

Every part of a document is spelled by tokens, in which a function may be applied to the values of
strings. A type, a value, an argument, a directive and a selection are spelled in one way
(`tokens`); a variable may be followed by directives that the document does not hold, and an
operation without anything but selections may leave out its keyword (`SpelledBy`). `Fits` says that
the part nests no deeper than a number of levels and is one that can be written at all.

`plain` is a document without places and files, with a function applied to the values of strings.
-/

namespace QueryCompiler

/-! ### Types -/

namespace TypeRef

/-- The tokens of a type. -/
def tokens : TypeRef → List Token
  | .named name => [.name name]
  | .list inner => .punctuator .openBracket :: (inner.tokens ++ [.punctuator .closeBracket])
  | .nonNull inner => inner.tokens ++ [.punctuator .bang]

/-- The lists of the type nest at most so many levels, and no mark is put on a mark. -/
def Fits : (levels : Nat) → TypeRef → Prop
  | _, .named _ => True
  | 0, .list _ => False
  | levels + 1, .list inner => inner.Fits levels
  | levels, .nonNull inner => inner.isNonNull = false ∧ inner.Fits levels

end TypeRef

namespace Document

/-! ### Values -/

namespace Value

mutual

/-- The tokens of a value. -/
def tokens (string : Text → Text) : Value → List Token
  | .variable name => [.punctuator .dollar, .name name]
  | .int literal => [.int literal]
  | .float literal => [.float literal]
  | .string t => [.string (string t)]
  | .boolean b => [.name (if b then "true" else "false")]
  | .null => [.name "null"]
  | .enum name => [.name name]
  | .list values =>
    .punctuator .openBracket :: (tokensOfAll string values ++ [.punctuator .closeBracket])
  | .object fields =>
    .punctuator .openBrace :: (tokensOfFields string fields ++ [.punctuator .closeBrace])

/-- The tokens of the items of a list, one item after the other. -/
def tokensOfAll (string : Text → Text) : List Value → List Token
  | [] => []
  | value :: rest => value.tokens string ++ tokensOfAll string rest

/-- The tokens of the fields of an object, each a name, a colon and a value. -/
def tokensOfFields (string : Text → Text) : List (Text × Value) → List Token
  | [] => []
  | (name, value) :: rest =>
    (.name name :: .punctuator .colon :: value.tokens string) ++ tokensOfFields string rest

end

mutual

/-- The value with a function applied to its strings. -/
def mapStrings (string : Text → Text) : Value → Value
  | .string t => .string (string t)
  | .list values => .list (mapStringsOfAll string values)
  | .object fields => .object (mapStringsOfFields string fields)
  | value => value

/-- The items of a list with the function applied to their strings. -/
def mapStringsOfAll (string : Text → Text) : List Value → List Value
  | [] => []
  | value :: rest => value.mapStrings string :: mapStringsOfAll string rest

/-- The fields of an object with the function applied to the strings in their values. -/
def mapStringsOfFields (string : Text → Text) : List (Text × Value) → List (Text × Value)
  | [] => []
  | (name, value) :: rest => (name, value.mapStrings string) :: mapStringsOfFields string rest

end

/-- Lists and objects nest at most so many levels, a constant value has no variable in it, and no
enum value is named like another value. -/
def Fits (constant : Bool) : (levels : Nat) → Value → Prop
  | _, .variable _ => constant = false
  | _, .enum name => Reader.valueOfName name = .enum name
  | 0, .list _ => False
  | 0, .object _ => False
  | levels + 1, .list values => ∀ value ∈ values, value.Fits constant levels
  | levels + 1, .object fields => ∀ field ∈ fields, field.2.Fits constant levels
  | _, _ => True

mutual

theorem mapStrings_id : ∀ v : Value, v.mapStrings id = v
  | .variable _ | .int _ | .float _ | .boolean _ | .null | .enum _ => rfl
  | .string _ => rfl
  | .list values => by rw [mapStrings, mapStringsOfAll_id values]
  | .object fields => by rw [mapStrings, mapStringsOfFields_id fields]

theorem mapStringsOfAll_id : ∀ values : List Value, mapStringsOfAll id values = values
  | [] => rfl
  | value :: rest => by rw [mapStringsOfAll, mapStrings_id value, mapStringsOfAll_id rest]

theorem mapStringsOfFields_id : ∀ fields : List (Text × Value),
    mapStringsOfFields id fields = fields
  | [] => rfl
  | (name, value) :: rest => by
    rw [mapStringsOfFields, mapStrings_id value, mapStringsOfFields_id rest]

end

theorem tokensOfAll_eq (string : Text → Text) (values : List Value) :
    tokensOfAll string values = (values.map (tokens string)).flatten := by
  induction values with
  | nil => rfl
  | cons value rest ih => rw [tokensOfAll, ih, List.map_cons, List.flatten_cons]

theorem tokensOfFields_eq (string : Text → Text) (fields : List (Text × Value)) :
    tokensOfFields string fields = (fields.map fun field =>
      .name field.1 :: .punctuator .colon :: field.2.tokens string).flatten := by
  induction fields with
  | nil => rfl
  | cons field rest ih =>
    obtain ⟨name, value⟩ := field
    rw [tokensOfFields, ih, List.map_cons, List.flatten_cons]

theorem mapStringsOfAll_eq (string : Text → Text) (values : List Value) :
    mapStringsOfAll string values = values.map (mapStrings string) := by
  induction values with
  | nil => rfl
  | cons value rest ih => rw [mapStringsOfAll, ih, List.map_cons]

theorem mapStringsOfFields_eq (string : Text → Text) (fields : List (Text × Value)) :
    mapStringsOfFields string fields =
      fields.map fun field => (field.1, field.2.mapStrings string) := by
  induction fields with
  | nil => rfl
  | cons field rest ih =>
    obtain ⟨name, value⟩ := field
    rw [mapStringsOfFields, ih, List.map_cons]

end Value

/-! ### Arguments and directives -/

/-- Tokens in parentheses; nothing if there are none. -/
def parenthesised : List Token → List Token
  | [] => []
  | token :: rest =>
    .punctuator .openParen :: (token :: rest ++ [.punctuator .closeParen])

theorem areSpelled_parenthesised {tokens : List Token} (h : AreSpelled (parenthesised tokens)) :
    AreSpelled tokens := by
  cases tokens with
  | nil => exact h
  | cons t rest => exact (areSpelled_append.mp (areSpelled_cons.mp h).2).1

theorem mem_parenthesised {α : Type} {spell : α → List Token} {as : List α} {a : α} {t : Token}
    (ha : a ∈ as) (h : t ∈ spell a) : t ∈ parenthesised (as.map spell).flatten := by
  have hm : t ∈ (as.map spell).flatten := List.mem_flatten.mpr ⟨_, List.mem_map_of_mem ha, h⟩
  cases htokens : (as.map spell).flatten with
  | nil => rw [htokens] at hm; cases hm
  | cons first rest =>
    rw [htokens] at hm
    exact List.mem_cons_of_mem _ (List.mem_append_left _ hm)

section
variable (string : Text → Text)

/-- The tokens of an argument: its name, a colon and its value. -/
def Argument.tokens (a : Argument) : List Token :=
  .name a.name :: .punctuator .colon :: a.value.tokens string

/-- The argument with the function applied to the strings in its value. -/
def Argument.plain (a : Argument) : Argument := { a with value := a.value.mapStrings string }

/-- The tokens of arguments in parentheses; nothing if there are none. -/
def argumentsTokens (arguments : List Argument) : List Token :=
  parenthesised (arguments.map (Argument.tokens string)).flatten

/-- The tokens of a directive: an at sign, its name and its arguments. -/
def Directive.tokens (d : Directive) : List Token :=
  .punctuator .at :: .name d.name :: argumentsTokens string d.arguments

/-- The directive without its place. -/
def Directive.plain (d : Directive) : Directive :=
  { d with arguments := d.arguments.map (Argument.plain string), location := {} }

/-- The tokens of directives, one directive after the other. -/
def directivesTokens (directives : List Directive) : List Token :=
  (directives.map (Directive.tokens string)).flatten

end

theorem map_plain_id (as : List Argument) : as.map (Argument.plain id) = as := by
  conv_rhs => rw [← List.map_id as]
  refine List.map_congr_left fun a _ => ?_
  rw [Argument.plain, Value.mapStrings_id]
  rfl

/-- The values of the arguments fit. -/
def ArgumentsFit (constant : Bool) (levels : Nat) (arguments : List Argument) : Prop :=
  ∀ a ∈ arguments, a.value.Fits constant levels

/-- The values of the arguments of the directives fit. -/
def DirectivesFit (constant : Bool) (levels : Nat) (directives : List Directive) : Prop :=
  ∀ d ∈ directives, ArgumentsFit constant levels d.arguments

/-! ### Selections -/

section
variable (string : Text → Text)

/-- The tokens of a field without its selection set. -/
def Field.tokens (f : Field) : List Token :=
  f.aliasName.elim [] (fun name => [.name name, .punctuator .colon]) ++
    .name f.name :: (argumentsTokens string f.arguments ++ directivesTokens string f.directives)

/-- The field without its place. -/
def Field.plain (f : Field) : Field :=
  { f with
    arguments := f.arguments.map (Argument.plain string)
    directives := f.directives.map (Directive.plain string)
    location := {} }

/-- The tokens of a spread of a fragment. -/
def Spread.tokens (s : Spread) : List Token :=
  .spread :: .name s.name :: directivesTokens string s.directives

/-- The spread without its place. -/
def Spread.plain (s : Spread) : Spread :=
  { s with directives := s.directives.map (Directive.plain string), location := {} }

/-- The tokens of an inline fragment without its selection set. -/
def InlineFragment.tokens (i : InlineFragment) : List Token :=
  .spread :: (i.typeCondition.elim [] (fun type => [.name "on", .name type]) ++
    directivesTokens string i.directives)

/-- The inline fragment without its place. -/
def InlineFragment.plain (i : InlineFragment) : InlineFragment :=
  { i with directives := i.directives.map (Directive.plain string), location := {} }

namespace Selection

mutual

/-- The tokens of a selection. -/
def tokens : Selection → List Token
  | .field head selections => head.tokens string ++ setTokens selections
  | .spread head => head.tokens string
  | .inline head selections => head.tokens string ++ setTokens selections

/-- The tokens of a selection set in braces; nothing if it is empty. -/
def setTokens : List Selection → List Token
  | [] => []
  | selection :: rest =>
    .punctuator .openBrace ::
      (selection.tokens ++ tokensOfAll rest ++ [.punctuator .closeBrace])

/-- The tokens of selections, one selection after the other. -/
def tokensOfAll : List Selection → List Token
  | [] => []
  | selection :: rest => selection.tokens ++ tokensOfAll rest

end

mutual

/-- The selection without places. -/
def plain : Selection → Selection
  | .field head selections => .field (head.plain string) (plainOfAll selections)
  | .spread head => .spread (head.plain string)
  | .inline head selections => .inline (head.plain string) (plainOfAll selections)

/-- The selections without places. -/
def plainOfAll : List Selection → List Selection
  | [] => []
  | selection :: rest => selection.plain :: plainOfAll rest

end

theorem tokensOfAll_eq (selections : List Selection) :
    tokensOfAll string selections = (selections.map (tokens string)).flatten := by
  induction selections with
  | nil => rfl
  | cons selection rest ih => rw [tokensOfAll, ih, List.map_cons, List.flatten_cons]

theorem setTokens_eq {selections : List Selection} (h : selections ≠ []) :
    setTokens string selections = .punctuator .openBrace ::
      ((selections.map (tokens string)).flatten ++ [.punctuator .closeBrace]) := by
  obtain ⟨selection, rest, rfl⟩ := List.exists_cons_of_ne_nil h
  rw [setTokens, tokensOfAll_eq, List.map_cons, List.flatten_cons]

theorem plainOfAll_eq (selections : List Selection) :
    plainOfAll string selections = selections.map (plain string) := by
  induction selections with
  | nil => rfl
  | cons selection rest ih => rw [plainOfAll, ih, List.map_cons]

end Selection

end

/-- The arguments and directives of the selection fit, and `nested` holds of its selection set, which
only a field may do without. -/
def Selection.FitsWith (levels : Nat) (nested : List Selection → Prop) : Selection → Prop
  | .field head selections => ArgumentsFit false levels head.arguments ∧
      DirectivesFit false levels head.directives ∧ (selections ≠ [] → nested selections)
  | .spread head => head.name ≠ ("on" : Text) ∧ DirectivesFit false levels head.directives
  | .inline head selections => DirectivesFit false levels head.directives ∧ nested selections

/-- The selection set is not empty and nests at most so many levels. -/
def SetFits : (levels : Nat) → List Selection → Prop
  | 0, _ => False
  | levels + 1, selections => selections ≠ [] ∧
      ∀ s ∈ selections, s.FitsWith levels (SetFits levels)

theorem SetFits.ne_nil {levels : Nat} {selections : List Selection}
    (h : SetFits levels selections) : selections ≠ [] := by
  cases levels with
  | zero => exact absurd h id
  | succ levels => exact h.1

/-! ### Definitions -/

section
variable (string : Text → Text)

/-- The tokens of a variable: its name, its type, and its default value after an equals sign. -/
def Variable.tokens (v : Variable) : List Token :=
  .punctuator .dollar :: .name v.name :: .punctuator .colon :: (v.type.tokens ++
    v.defaultValue.elim [] fun value => .punctuator .equals :: value.tokens string)

/-- The variable with the function applied to the strings in its default value. -/
def Variable.plain (v : Variable) : Variable :=
  { v with defaultValue := v.defaultValue.map (Value.mapStrings string) }

/-- The tokens of an operation with its keyword, and with some tokens for its variables. -/
def Operation.longTokens (o : Operation) (vars : List Token) : List Token :=
  .name o.operation.text :: (o.name.elim [] (fun name => [.name name]) ++
    (parenthesised vars ++
      (directivesTokens string o.directives ++ Selection.setTokens string o.selections)))

/-- The operation is a query that has nothing but selections. -/
def Operation.IsShort (o : Operation) : Prop :=
  o.operation = .query ∧ o.name = none ∧ o.variableDefinitions = [] ∧ o.directives = []

instance (o : Operation) : Decidable o.IsShort :=
  inferInstanceAs (Decidable (_ ∧ _ ∧ o.variableDefinitions = [] ∧ o.directives = []))

/-- The operation without its place and its file. -/
def Operation.plain (o : Operation) : Operation :=
  { o with
    variableDefinitions := o.variableDefinitions.map (Variable.plain string)
    directives := o.directives.map (Directive.plain string)
    selections := o.selections.map (Selection.plain string)
    location := {}
    filePath := none }

/-- The tokens of a fragment definition. -/
def Fragment.tokens (f : Fragment) : List Token :=
  .name "fragment" :: .name f.name :: .name "on" :: .name f.typeCondition ::
    (directivesTokens string f.directives ++ Selection.setTokens string f.selections)

/-- The fragment definition without its place and its file. -/
def Fragment.plain (f : Fragment) : Fragment :=
  { f with
    directives := f.directives.map (Directive.plain string)
    selections := f.selections.map (Selection.plain string)
    location := {}
    filePath := none }

end

theorem map_variable_plain_id (string : Text → Text) (vs : List Variable) :
    (vs.map (Variable.plain string)).map (Variable.plain id) = vs.map (Variable.plain string) := by
  rw [List.map_map]
  refine List.map_congr_left fun v _ => ?_
  rw [Function.comp, Variable.plain, Variable.plain]
  cases v.defaultValue with
  | none => rfl
  | some value => rw [Option.map_some, Option.map_some, Value.mapStrings_id]

/-- The type of the variable fits, and its default value is a constant that does. -/
structure Variable.Fits (limit : Nat) (v : Variable) : Prop where
  type : v.type.Fits limit
  defaultValue : ∀ value, v.defaultValue = some value → value.Fits true limit

/-- The variables, the directives and the selection set of the operation fit. -/
structure Operation.Fits (limit : Nat) (o : Operation) : Prop where
  variableDefinitions : ∀ v ∈ o.variableDefinitions, v.Fits limit
  directives : DirectivesFit false limit o.directives
  selections : SetFits limit o.selections

/-- The parts of the fragment definition fit, which has another name than its keyword. -/
structure Fragment.Fits (limit : Nat) (f : Fragment) : Prop where
  name : f.name ≠ ("on" : Text)
  directives : DirectivesFit false limit f.directives
  selections : SetFits limit f.selections

section
variable (string : Text → Text) (limit : Nat)

/-- The tokens spell the variable and directives, which do not become part of it. -/
def Variable.SpelledBy (v : Variable) (tokens : List Token) : Prop :=
  v.Fits limit ∧ ∃ directives, DirectivesFit true limit directives ∧
    tokens = v.tokens string ++ directivesTokens string directives

/-- The tokens spell the operation, in one of its two forms. -/
def Operation.SpelledBy (o : Operation) (tokens : List Token) : Prop :=
  o.Fits limit ∧ ((o.IsShort ∧ tokens = Selection.setTokens string o.selections) ∨
    ∃ vars, List.Forall₂ (Variable.SpelledBy string limit) o.variableDefinitions vars ∧
      tokens = o.longTokens string vars.flatten)

/-- The tokens spell the operation or the fragment definition. -/
def Definition.SpelledBy : Definition → List Token → Prop
  | .operation o, tokens => o.SpelledBy string limit tokens
  | .fragment f, tokens => f.Fits limit ∧ tokens = f.tokens string

/-- The definition without its place and its file. -/
def Definition.plain : Definition → Definition
  | .operation o => .operation (o.plain string)
  | .fragment f => .fragment (f.plain string)

end

/-- The tokens spell the document, definition by definition. -/
def SpelledBy (string : Text → Text) (limit : Nat) (d : Document) (tokens : List Token) : Prop :=
  ∃ definitions parts, d = ofDefinitions definitions ∧ definitions ≠ [] ∧
    List.Forall₂ (Definition.SpelledBy string limit) definitions parts ∧ tokens = parts.flatten

/-- The document without places and files, with a function applied to the values of strings. -/
def plain (string : Text → Text) (d : Document) : Document where
  operations := d.operations.map (Operation.plain string)
  fragments := d.fragments.map (Fragment.plain string)
  order := d.order

theorem plain_ofDefinitions (string : Text → Text) (definitions : List Definition) :
    (ofDefinitions definitions).plain string =
      ofDefinitions (definitions.map (Definition.plain string)) := by
  unfold plain ofDefinitions
  congr 1
  · rw [List.filterMap_map, List.map_filterMap]
    congr 1
    funext d
    cases d <;> rfl
  · rw [List.filterMap_map, List.map_filterMap]
    congr 1
    funext d
    cases d <;> rfl
  · rw [List.map_map]
    refine List.map_congr_left fun d _ => ?_
    cases d <;> rfl

end Document

end QueryCompiler
