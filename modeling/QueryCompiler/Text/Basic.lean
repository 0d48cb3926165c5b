/-!
# Texts

A text is a sequence of octets. By convention the octets are UTF-8, but nothing relies on it:
sources, names and string values keep whatever octets they were given, and columns count octets.

* `Text.ofString`: the UTF-8 octets of a string, inserted where a string stands for a text.
* `Text.ofNat`: the decimal digits of a number.
* `Text.joinNonEmpty`: parts put together with a separator, empty parts left out.
-/

namespace QueryCompiler

/-- A text is a list of octets. -/
abbrev Text := List UInt8

namespace Text

/-- The UTF-8 octets of a string. -/
def ofString (s : String) : Text := s.toUTF8.data.toList

instance : Coe String Text := ⟨ofString⟩

instance : LawfulBEq Text := inferInstance

/-- The decimal digits of a number, the most significant first. -/
def ofNat (n : Nat) : Text := ofString (toString n)

/-- The decimal digits of an integer after its sign, if it is negative. -/
def ofInt (n : Int) : Text := ofString (toString n)

/-- The parts in order with `separator` between any two, and nothing else. -/
def join (separator : Text) : List Text → Text
  | [] => []
  | [part] => part
  | part :: rest => part ++ (separator ++ join separator rest)

/-- The parts that are not empty, with `separator` between any two. -/
def joinNonEmpty (separator : Text) (parts : List Text) : Text :=
  join separator (parts.filter fun part => !part.isEmpty)

/-- A text between two others, or nothing if the text is empty. -/
def wrap (before : Text) (inner : Text) (after : Text) : Text :=
  if inner.isEmpty then [] else before ++ inner ++ after

@[simp] theorem joinNonEmpty_nil (separator : Text) : joinNonEmpty separator [] = [] := rfl

@[simp] theorem wrap_nil (before after : Text) : wrap before [] after = [] := rfl

end Text

end QueryCompiler
