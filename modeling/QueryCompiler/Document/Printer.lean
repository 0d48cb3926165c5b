import QueryCompiler.Document.Basic
import QueryCompiler.Text.Block
import QueryCompiler.Text.Quoted

/-!
# Canonical text of documents

Definitions are separated by blank lines and end with a line feed. Each selection has a line of its
own, indented by two spaces a level; values and arguments are separated by a comma and a space, and
strings are quoted literals. So two documents that differ only between their tokens have one text.
A selection set is a block: what is printed for its selections is indented as a whole.
-/

namespace QueryCompiler.Document

namespace Value

mutual

/-- The text of a value. -/
def text : Value → Text
  | .variable name => "$" ++ name
  | .int literal => literal
  | .float literal => literal
  | .string t => t.quoted
  | .boolean b => if b then "true" else "false"
  | .null => "null"
  | .enum name => name
  | .list values => "[" ++ Text.joinNonEmpty ", " (texts values) ++ "]"
  | .object fields => 0x7B :: (Text.joinNonEmpty ", " (fieldTexts fields) ++ [0x7D])

/-- The texts of the items of a list. -/
def texts : List Value → List Text
  | [] => []
  | value :: rest => value.text :: texts rest

/-- The texts of the fields of an object. -/
def fieldTexts : List (Text × Value) → List Text
  | [] => []
  | (name, value) :: rest => (name ++ ": " ++ value.text) :: fieldTexts rest

end

end Value

/-- The text of an argument. -/
def Argument.text (a : Argument) : Text := a.name ++ ": " ++ a.value.text

/-- Arguments in parentheses; nothing if there are none. -/
def argumentsText (arguments : List Argument) : Text :=
  Text.wrap "(" (Text.joinNonEmpty ", " (arguments.map Argument.text)) ")"

/-- The text of a directive. -/
def Directive.text (d : Directive) : Text := "@" ++ d.name ++ argumentsText d.arguments

/-- Directives separated by spaces. -/
def directivesText (directives : List Directive) : Text :=
  Text.joinNonEmpty " " (directives.map Directive.text)

/-- The parts of a field in front of its selection set. -/
def Field.parts (f : Field) : List Text :=
  [Text.wrap [] (f.aliasName.getD []) ": " ++ f.name ++ argumentsText f.arguments,
    directivesText f.directives]

/-- The text of a spread. -/
def Spread.text (s : Spread) : Text :=
  "..." ++ s.name ++ Text.wrap " " (directivesText s.directives) []

/-- The parts of an inline fragment in front of its selection set. -/
def InlineFragment.parts (i : InlineFragment) : List Text :=
  ["...", Text.wrap "on " (i.typeCondition.getD []) [], directivesText i.directives]

mutual

/-- The text of a selection: its parts and its selection set, separated by spaces. -/
def Selection.text : Selection → Text
  | .field head selections =>
    Text.joinNonEmpty " " (head.parts ++ [Text.block (selectionTexts selections)])
  | .spread head => head.text
  | .inline head selections =>
    Text.joinNonEmpty " " (head.parts ++ [Text.block (selectionTexts selections)])

/-- The texts of selections. -/
def selectionTexts : List Selection → List Text
  | [] => []
  | selection :: rest => selection.text :: selectionTexts rest

end

/-- The text of a selection set; nothing if it is empty. -/
def selectionSetText (selections : List Selection) : Text := Text.block (selectionTexts selections)

/-- The text of a variable definition. -/
def Variable.text (v : Variable) : Text :=
  "$" ++ v.name ++ ": " ++ v.type.text ++
    (match v.defaultValue with
      | none => []
      | some value => " = " ++ value.text)

/-- The variable definitions in parentheses; nothing if there are none. -/
def variablesText (vars : List Variable) : Text :=
  Text.wrap "(" (Text.joinNonEmpty ", " (vars.map Variable.text)) ")"

/-- The text of an operation. A query without name, variables and directives is printed as its
selection set alone. -/
def Operation.text (o : Operation) : Text :=
  let name := o.name.getD []
  let vars := variablesText o.variableDefinitions
  let directives := directivesText o.directives
  let selections := selectionSetText o.selections
  if name.isEmpty && directives.isEmpty && vars.isEmpty && o.operation == .query then selections
  else Text.joinNonEmpty " " [o.operation.text, name ++ vars, directives, selections]

/-- The text of a fragment definition. -/
def Fragment.text (f : Fragment) : Text :=
  "fragment " ++ f.name ++ " on " ++ f.typeCondition ++ " " ++
    Text.wrap [] (directivesText f.directives) " " ++ selectionSetText f.selections

/-- The definitions in an order: each kind takes the next definition of its kind, if one is left.
Operations and then fragments that no kind asks for come last. -/
def interleave {α : Type} : List DefinitionKind → (operations fragments : List α) → List α
  | [], operations, fragments => operations ++ fragments
  | .operation :: order, operation :: operations, fragments =>
    operation :: interleave order operations fragments
  | .operation :: order, [], fragments => interleave order [] fragments
  | .fragment :: order, operations, fragment :: fragments =>
    fragment :: interleave order operations fragments
  | .fragment :: order, operations, [] => interleave order operations []

/-- The texts of the definitions in order. -/
def definitionTexts (d : Document) : List Text :=
  interleave d.order (d.operations.map Operation.text) (d.fragments.map Fragment.text)

/-- The canonical text of a document. -/
def text (d : Document) : Text := Text.joinNonEmpty "\n\n" d.definitionTexts ++ [Octet.lf]

end QueryCompiler.Document
