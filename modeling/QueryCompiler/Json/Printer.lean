import QueryCompiler.Json.Basic
import QueryCompiler.Number.SixDigits
import QueryCompiler.Text.Quoted

/-!
# Compact JSON text

A value on one line without blanks: strings as quoted literals, members in the order of their keys.
The text is built from its end, in front of what follows it.
-/

namespace QueryCompiler.Json

mutual

/-- The compact text of a value, in front of a text. -/
def textOnto (after : Text) : Json → Text
  | .null => "null" ++ after
  | .bool b => (if b then "true" else "false" : Text) ++ after
  | .int n => Text.ofInt n ++ after
  | .float x => x.text ++ after
  | .string t => t.quoted ++ after
  | .array values => "[" ++ elementsOnto ("]" ++ after) values
  | .object members => 0x7B :: membersOnto (0x7D :: after) members

/-- The elements of an array, separated by commas, in front of a text. -/
def elementsOnto (after : Text) : List Json → Text
  | [] => after
  | [value] => value.textOnto after
  | value :: rest => value.textOnto (Octet.comma :: elementsOnto after rest)

/-- The members of an object, separated by commas, in front of a text. -/
def membersOnto (after : Text) : List (Text × Json) → Text
  | [] => after
  | [(key, value)] => key.quoted ++ Octet.colon :: value.textOnto after
  | (key, value) :: rest =>
    key.quoted ++ Octet.colon :: value.textOnto (Octet.comma :: membersOnto after rest)

end

/-- The compact text of a value. -/
def text (j : Json) : Text := j.textOnto []

end QueryCompiler.Json
