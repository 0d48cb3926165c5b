import QueryCompiler.Document.Basic

/-!
# Type names in every selection set

`addTypename` removes every selection of `__typename` and then puts one in front of every selection
set that belongs to a field or a fragment definition. The root selection sets of operations and the
selection sets of inline fragments are left without one.
-/

namespace QueryCompiler.Document

/-- The name of the field that tells the type of an object. -/
def typenameName : Text := "__typename"

/-- A plain selection of that field. -/
def typenameField : Selection := .field ⟨none, typenameName, [], [], {}⟩ []

/-- The selection is that field, with whatever it carries. -/
def Selection.isTypename : Selection → Bool
  | .field head _ => head.name == typenameName
  | _ => false

mutual

/-- A selection with type names in all selection sets below it. -/
def Selection.addTypename : Selection → Selection
  | .field head [] => .field head []
  | .field head (selection :: rest) =>
    .field head (typenameField :: addTypenameToAll (selection :: rest))
  | .spread head => .spread head
  | .inline head selections => .inline head (addTypenameToAll selections)

/-- The selections that are no type names, with type names below them. -/
def addTypenameToAll : List Selection → List Selection
  | [] => []
  | selection :: rest =>
    if selection.isTypename then addTypenameToAll rest
    else selection.addTypename :: addTypenameToAll rest

end

/-- The document with a type name in every selection set of a field or a fragment definition, and
nowhere else. -/
def addTypename (d : Document) : Document where
  operations := d.operations.map fun o => { o with selections := addTypenameToAll o.selections }
  fragments := d.fragments.map fun f =>
    { f with selections := typenameField :: addTypenameToAll f.selections }
  order := d.order

end QueryCompiler.Document
