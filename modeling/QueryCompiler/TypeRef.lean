import QueryCompiler.Text.Basic

/-!
# References to types

A reference is the name of a type inside any number of lists and non-null marks. A mark inside a
mark has no written form of its own but may be built.
-/

namespace QueryCompiler

/-- A type by name, a list of a type, or a type without `null`. -/
inductive TypeRef
  | named (name : Text)
  | list (inner : TypeRef)
  | nonNull (inner : TypeRef)
  deriving DecidableEq

/-- One wrapping of a type. -/
inductive TypeRef.Modifier
  | list
  | nonNull
  deriving DecidableEq

namespace TypeRef

/-- The name inside all wrappings. -/
def namedType : TypeRef → Text
  | .named name => name
  | .list inner => inner.namedType
  | .nonNull inner => inner.namedType

/-- The wrappings, the outermost first. -/
def modifiers : TypeRef → List Modifier
  | .named _ => []
  | .list inner => .list :: inner.modifiers
  | .nonNull inner => .nonNull :: inner.modifiers

/-- The type inside the outermost wrapping; a named type itself. -/
def ofType : TypeRef → TypeRef
  | .named name => .named name
  | .list inner => inner
  | .nonNull inner => inner

/-- There are no wrappings. -/
def isNamed : TypeRef → Bool
  | .named _ => true
  | _ => false

/-- The outermost wrapping is a list. -/
def isList : TypeRef → Bool
  | .list _ => true
  | _ => false

/-- The outermost wrapping is a non-null mark. -/
def isNonNull : TypeRef → Bool
  | .nonNull _ => true
  | _ => false

/-- The written form: brackets around lists, a mark after non-null types. -/
def text : TypeRef → Text
  | .named name => name
  | .list inner => "[" ++ inner.text ++ "]"
  | .nonNull inner => inner.text ++ "!"

end TypeRef

end QueryCompiler
