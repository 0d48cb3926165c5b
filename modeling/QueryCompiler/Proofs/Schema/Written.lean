import QueryCompiler.Proofs.Document.Printed
import QueryCompiler.Schema.Definitions

/-!
# Written schemas

The text of a schema (`Schema.text`): a block of root types and then the definitions of the types, each
with its description as a string in front and its deprecations with their reasons. `Schema.tokens` are
the tokens of that text. `IsStandard` says of a definition that it can be written: names are names,
texts are UTF-8, a type has the members of its kind only, and a default is the text of a constant
value.
-/

namespace QueryCompiler

open Document (Value)

/-! ### Definitions that can be written -/

/-- The description, or the reason, can be written. -/
def IsWritten (text : Option Text) : Prop := ∀ t, text = some t → Utf8.wellFormed t = true

instance (text : Option Text) : Decidable (IsWritten text) :=
  decidable_of_iff (text.all Utf8.wellFormed = true) (by cases text <;> simp [IsWritten])

namespace TypeRef

/-- The type can be written: its name is a name, and its lists and marks nest as they may. -/
structure IsStandard (type : TypeRef) : Prop where
  name : type.namedType.IsName
  fits : type.Fits Schema.nestingLimit

end TypeRef

/-- An argument or an input field can be written; its default is the text of a constant value. -/
structure InputValueDefinition.IsStandard (v : InputValueDefinition) : Prop where
  name : v.name.IsName
  description : IsWritten v.description
  type : v.type.IsStandard
  default : ∀ t, v.defaultValue = some t → ∃ value : Value,
    value.Fits true Schema.nestingLimit ∧ AreSpelled (value.tokens id) ∧ value.text = t

/-- A field can be written; it is deprecated if it has a reason. -/
structure FieldDefinition.IsStandard (f : FieldDefinition) : Prop where
  name : f.name.IsName
  description : IsWritten f.description
  args : ∀ a ∈ f.args, a.IsStandard
  type : f.type.IsStandard
  deprecated : f.isDeprecated = f.deprecationReason.isSome
  reason : IsWritten f.deprecationReason

/-- A value of an enum can be written; it is deprecated if it has a reason. -/
structure EnumValueDefinition.IsStandard (v : EnumValueDefinition) : Prop where
  name : v.name.IsName
  unreserved : v.name ∉ Schema.Definition.reservedValues
  description : IsWritten v.description
  deprecated : v.isDeprecated = v.deprecationReason.isSome
  reason : IsWritten v.deprecationReason

/-- **A type can be written**: it is not one of introspection, all its parts can be written, and it
has no parts but those of its kind. -/
structure NamedType.IsStandard (t : NamedType) : Prop where
  name : t.name.IsName
  unreserved : Schema.reservedStart.isPrefixOf t.name = false
  description : IsWritten t.description
  fields : ∀ f ∈ t.fields, f.IsStandard
  interfaces : ∀ name ∈ t.interfaces, name.IsName
  members : ∀ name ∈ t.members, name.IsName
  enumValues : ∀ v ∈ t.enumValues, v.IsStandard
  inputFields : ∀ f ∈ t.inputFields, f.IsStandard
  objectParts : t.kind ≠ .object → t.kind ≠ .interface → t.fields = [] ∧ t.interfaces = []
  unionParts : t.kind ≠ .union → t.members = []
  enumParts : t.kind ≠ .enum → t.enumValues = []
  inputParts : t.kind ≠ .inputObject → t.inputFields = []

/-- The names of the root types that are chosen are names. -/
def Schema.RootsNamed (roots : OperationType → Option Text) : Prop :=
  ∀ o name, roots o = some name → name.IsName

/-! ### Texts -/

/-- A description as a string; nothing if there is none. -/
def descriptionText (description : Option Text) : Text := description.elim [] Text.quoted

/-- The directive of a deprecation with its reason; nothing if there is none. -/
def deprecationText (reason : Option Text) : Text :=
  reason.elim [] fun reason =>
    Document.Directive.text ⟨"deprecated", [⟨"reason", .string reason⟩], {}⟩

/-- Items in braces, each on a line of its own; nothing if there are none. -/
def bracesText (items : List Text) : Text :=
  Text.wrap "\x7b\n  " (Text.joinNonEmpty "\n  " items) "\n\x7d"

namespace InputValueDefinition

/-- The text of an argument or an input field. -/
def text (v : InputValueDefinition) : Text :=
  Text.joinNonEmpty " " [descriptionText v.description, v.name ++ ": " ++ v.type.text,
    v.defaultValue.elim [] fun t => "= " ++ t]

end InputValueDefinition

namespace FieldDefinition

/-- The arguments in parentheses; nothing if there are none. -/
def argumentsText (args : List InputValueDefinition) : Text :=
  Text.wrap "(" (Text.joinNonEmpty ", " (args.map InputValueDefinition.text)) ")"

/-- The text of a field. -/
def text (f : FieldDefinition) : Text :=
  Text.joinNonEmpty " " [descriptionText f.description,
    f.name ++ (argumentsText f.args ++ (": " ++ f.type.text)), deprecationText f.deprecationReason]

end FieldDefinition

/-- The text of a value of an enum. -/
def EnumValueDefinition.text (v : EnumValueDefinition) : Text :=
  Text.joinNonEmpty " " [descriptionText v.description, v.name, deprecationText v.deprecationReason]

/-- The keyword of a kind of type. -/
def TypeKind.keyword : TypeKind → Text
  | .scalar => "scalar"
  | .object => "type"
  | .interface => "interface"
  | .union => "union"
  | .enum => "enum"
  | .inputObject => "input"

namespace NamedType

/-- The interfaces after their keyword; nothing if there are none. -/
def interfacesText (interfaces : List Text) : Text :=
  Text.wrap "implements " (Text.join " & " interfaces) []

/-- The parts of a type after its name. -/
def partTexts (t : NamedType) : List Text :=
  match t.kind with
  | .scalar => []
  | .object | .interface =>
    [interfacesText t.interfaces, bracesText (t.fields.map FieldDefinition.text)]
  | .union => [Text.wrap "= " (Text.join " | " t.members) []]
  | .enum => [bracesText (t.enumValues.map EnumValueDefinition.text)]
  | .inputObject => [bracesText (t.inputFields.map InputValueDefinition.text)]

/-- The text of a type, after its description on a line of its own. -/
def text (t : NamedType) : Text :=
  Text.joinNonEmpty "\n"
    [descriptionText t.description, Text.joinNonEmpty " " (t.kind.keyword :: t.name :: t.partTexts)]

end NamedType

namespace Schema

/-- The root types of a choice, in the order of the operations. -/
def rootList (roots : OperationType → Option Text) : List (OperationType × Text) :=
  [OperationType.query, .mutation, .subscription].filterMap fun o => (roots o).map fun name => (o, name)

/-- The schema with the root types of a choice. -/
def withRoots (roots : OperationType → Option Text) (s : Schema) : Schema :=
  (rootList roots).foldl (fun s root => s.setRoot root.1 root.2) s

/-- The text of a root type. -/
def rootText (root : OperationType × Text) : Text := root.1.text ++ ": " ++ root.2

/-- The block of root types. -/
def rootsText (roots : OperationType → Option Text) : Text :=
  "schema " ++ bracesText ((rootList roots).map rootText)

/-- **The text of a schema**: the block of its root types, and its types one after the other. -/
def text (roots : OperationType → Option Text) (types : List NamedType) : Text :=
  Text.joinNonEmpty "\n\n" (rootsText roots :: types.map NamedType.text) ++ [Octet.lf]

end Schema

/-! ### Tokens -/

/-- The tokens of a description. -/
def descriptionTokens (description : Option Text) : List Token :=
  description.elim [] fun t => [.string t]

/-- The tokens start with a description or with a name. -/
def IsDescribed (tokens : List Token) : Prop :=
  ∃ text n more, tokens = descriptionTokens text ++ .name n :: more

theorem IsDescribed.head {tokens : List Token} (h : IsDescribed tokens) (rest : List Token) :
    ∃ t more, tokens ++ rest = t :: more ∧ ∀ p, t ≠ .punctuator p := by
  obtain ⟨text, n, more, rfl⟩ := h
  cases text with
  | none => exact ⟨_, _, rfl, fun p hp => by cases hp⟩
  | some t => exact ⟨_, _, rfl, fun p hp => by cases hp⟩

theorem IsDescribed.ne_nil {tokens : List Token} (h : IsDescribed tokens) : tokens ≠ [] := by
  obtain ⟨t, more, ht, -⟩ := h.head []
  rw [List.append_nil] at ht
  exact ht ▸ List.cons_ne_nil t more

/-- The directive of a deprecation. -/
def deprecations (reason : Option Text) : List Document.Directive :=
  reason.elim [] fun reason => [⟨"deprecated", [⟨"reason", .string reason⟩], {}⟩]

/-- Tokens in braces; nothing if there are none. -/
def braced : List Token → List Token
  | [] => []
  | token :: rest => .punctuator .openBrace :: (token :: rest ++ [.punctuator .closeBrace])

/-- Names with a punctuator between any two. -/
def separated (separator : Punctuator) : List Text → List Token
  | [] => []
  | [name] => [.name name]
  | name :: rest => .name name :: .punctuator separator :: separated separator rest

/-- The tokens of a default. -/
def defaultTokens (default : Option Text) : List Token :=
  default.elim [] fun t => .punctuator .equals :: (Scan.lex t).getD []

/-- The tokens of an argument or an input field. -/
def InputValueDefinition.tokens (v : InputValueDefinition) : List Token :=
  descriptionTokens v.description ++
    .name v.name :: .punctuator .colon :: (v.type.tokens ++ defaultTokens v.defaultValue)

theorem InputValueDefinition.isDescribed (v : InputValueDefinition) : IsDescribed v.tokens :=
  ⟨_, _, _, rfl⟩

/-- The tokens of a field. -/
def FieldDefinition.tokens (f : FieldDefinition) : List Token :=
  descriptionTokens f.description ++
    .name f.name :: (Document.parenthesised (f.args.map InputValueDefinition.tokens).flatten ++
      .punctuator .colon :: (f.type.tokens ++
        Document.directivesTokens id (deprecations f.deprecationReason)))

theorem FieldDefinition.isDescribed (f : FieldDefinition) : IsDescribed f.tokens := ⟨_, _, _, rfl⟩

/-- The tokens of a value of an enum. -/
def EnumValueDefinition.tokens (v : EnumValueDefinition) : List Token :=
  descriptionTokens v.description ++
    .name v.name :: Document.directivesTokens id (deprecations v.deprecationReason)

theorem EnumValueDefinition.isDescribed (v : EnumValueDefinition) : IsDescribed v.tokens :=
  ⟨_, _, _, rfl⟩

namespace NamedType

/-- The tokens of the interfaces. -/
def interfacesTokens : List Text → List Token
  | [] => []
  | name :: rest => .name "implements" :: separated .ampersand (name :: rest)

/-- The tokens of the members. -/
def membersTokens : List Text → List Token
  | [] => []
  | name :: rest => .punctuator .equals :: separated .bar (name :: rest)

/-- The tokens of the parts of a type after its name. -/
def partTokens (t : NamedType) : List Token :=
  match t.kind with
  | .scalar => []
  | .object | .interface =>
    interfacesTokens t.interfaces ++ braced (t.fields.map FieldDefinition.tokens).flatten
  | .union => membersTokens t.members
  | .enum => braced (t.enumValues.map EnumValueDefinition.tokens).flatten
  | .inputObject => braced (t.inputFields.map InputValueDefinition.tokens).flatten

/-- The tokens of a type. -/
def tokens (t : NamedType) : List Token :=
  descriptionTokens t.description ++ .name t.kind.keyword :: .name t.name :: t.partTokens

theorem isDescribed (t : NamedType) : IsDescribed t.tokens := ⟨_, _, _, rfl⟩

end NamedType

namespace Schema

/-- The tokens of a root type. -/
def rootTokens (root : OperationType × Text) : List Token :=
  [.name root.1.text, .punctuator .colon, .name root.2]

theorem isDescribed_root (root : OperationType × Text) : IsDescribed (rootTokens root) :=
  ⟨none, _, _, rfl⟩

/-- The tokens of the block of root types. -/
def rootsTokens (roots : OperationType → Option Text) : List Token :=
  .name "schema" :: braced ((rootList roots).map rootTokens).flatten

/-- The tokens of a schema. -/
def tokens (roots : OperationType → Option Text) (types : List NamedType) : List Token :=
  rootsTokens roots ++ (types.map NamedType.tokens).flatten

end Schema

end QueryCompiler
