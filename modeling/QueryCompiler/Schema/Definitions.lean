import QueryCompiler.Document.Parser
import QueryCompiler.Document.Printer
import QueryCompiler.Schema.Validity

/-!
# Schema definitions

The grammar of schema definitions over tokens. Definitions are added to a schema one after the
other, so of two faults the one of the earlier definition is reported. Directive definitions are
read and dropped, type extensions are refused, and a default value is kept in its canonical text.
-/

namespace QueryCompiler

namespace Schema

/-- A definition of a schema text. -/
inductive Definition
  /-- Root types by operation. -/
  | roots (roots : List (OperationType × Text))
  /-- A directive. -/
  | directive
  /-- A type. -/
  | type (t : NamedType)

/-- A schema text cannot be read, or what it defines is no schema. -/
inductive LoadError
  | text (error : SyntaxError)
  | schema (error : SchemaError)
  deriving DecidableEq

/-- The wording of an error. -/
def LoadError.message : LoadError → Text
  | .text error => error.message
  | .schema error => error.message

/-- The schema with a definition added. -/
def define (s : Schema) : Definition → Except SchemaError Schema
  | .roots roots => .ok (roots.foldl (fun s root => s.setRoot root.1 root.2) s)
  | .directive => .ok s
  | .type t => s.add t

/-- The nesting limit of schema texts. -/
def nestingLimit : Nat := 512

/-- The reason of a deprecation that gives none. -/
def defaultReason : Text := "No longer supported"

/-- The reason that the arguments of a deprecation give: the last string of that name. -/
def reasonOf (arguments : List Document.Argument) : Text :=
  arguments.foldl (fun reason a =>
    match a.value with
    | .string text => if a.name = "reason" then text else reason
    | _ => reason) defaultReason

/-- The reason of the last deprecation among directives; none if nothing is deprecated. -/
def deprecation? (directives : List Document.Directive) : Option Text :=
  (directives.filter fun d => d.name == ("deprecated" : Text)).getLast?.map fun d =>
    reasonOf d.arguments

namespace Definition

open QueryCompiler.Reader (peek take name nameLexeme keyword punctuator optional someUntil
  separatedBy typeRef value fail failAt here)

variable {b : Bool} {α : Type}

/-- Directives of a definition, whose arguments are constant. -/
def directives : Reader false (List Document.Directive) :=
  Reader.directives nestingLimit true nestingLimit

/-- A string in front of a definition, if there is one. -/
def description : Reader false (Option Text) :=
  peek fun
    | some (.string text) => (take.map fun _ => some text).relax
    | some _ => Parser.pure none
    | none =>
      Parser.bind (b := false) (c := false) (Parser.look Scan.octet?) fun octet =>
        if octet = some Octet.quote then Parser.failWith Scan.unexpectedValue else Parser.pure none

/-- One item or more in braces, or none without braces. -/
def inBraces (item : Reader true α) : Reader false (List α) :=
  (optional .openBrace).bind fun found =>
    if found then (someUntil .closeBrace item).relax else Parser.pure []

/-- One name or more, separated by a punctuator that may stand in front of the first one too. -/
def names (separator : Punctuator) : Reader true (List Text) :=
  Parser.bind (b := false) (c := true) (optional separator) fun _ => separatedBy separator name

/-- A name, a type, and a default if there is one. -/
def inputValue : Reader true InputValueDefinition :=
  Parser.bind (b := false) (c := true) description fun text =>
    name.bind fun valueName => (punctuator .colon).bind fun _ =>
    (typeRef nestingLimit nestingLimit).bind fun type =>
    (optional .equals).bind fun hasDefault =>
    Parser.bind (b := false) (c := false)
      (if hasDefault then ((value nestingLimit true nestingLimit).map some).relax
        else Parser.pure none) fun default =>
    directives.map fun _ => ⟨valueName, text, type, default.map Document.Value.text⟩

/-- Argument definitions in parentheses, or none without parentheses. -/
def argumentDefinitions : Reader false (List InputValueDefinition) :=
  (optional .openParen).bind fun found =>
    if found then (someUntil .closeParen inputValue).relax else Parser.pure []

/-- A field of an object or interface. -/
def fieldDefinition : Reader true FieldDefinition :=
  Parser.bind (b := false) (c := true) description fun text =>
    name.bind fun fieldName => argumentDefinitions.bind fun args =>
    (punctuator .colon).bind fun _ => (typeRef nestingLimit nestingLimit).bind fun type =>
    directives.map fun ds =>
      ⟨fieldName, text, args, type, (deprecation? ds).isSome, deprecation? ds⟩

/-- The interfaces that a type implements. -/
def implementedInterfaces : Reader false (List Text) :=
  peek fun
    | some (.name text) =>
      if text = "implements" then (take.bind fun _ => names .ampersand).relax else Parser.pure []
    | _ => Parser.pure []

/-- An object or an interface, after its keyword. -/
def objectLike (kind : TypeKind) (text : Option Text) : Reader true NamedType :=
  name.bind fun typeName => implementedInterfaces.bind fun interfaces =>
    directives.bind fun _ => (inBraces fieldDefinition).map fun fields =>
      { kind, name := typeName, description := text, fields, interfaces }

/-- A union, after its keyword. -/
def unionType (text : Option Text) : Reader true NamedType :=
  name.bind fun typeName => directives.bind fun _ => (optional .equals).bind fun hasMembers =>
    (if hasMembers then (names .bar).relax else Parser.pure []).map fun members =>
      { kind := .union, name := typeName, description := text, members }

/-- The names that stand for values of other types. -/
def reservedValues : List Text := ["true", "false", "null"]

/-- A value of an enum. -/
def enumValue : Reader true EnumValueDefinition :=
  Parser.bind (b := false) (c := true) description fun text =>
    Parser.bind (b := true) (c := false) nameLexeme fun (valueName, lexeme) =>
      if reservedValues.contains valueName then failAt lexeme.stop (.reservedEnumValue valueName)
      else directives.map fun ds => ⟨valueName, text, (deprecation? ds).isSome, deprecation? ds⟩

/-- An enum, after its keyword. -/
def enumType (text : Option Text) : Reader true NamedType :=
  name.bind fun typeName => directives.bind fun _ => (inBraces enumValue).map fun enumValues =>
    { kind := .enum, name := typeName, description := text, enumValues }

/-- An input object, after its keyword. -/
def inputObject (text : Option Text) : Reader true NamedType :=
  name.bind fun typeName => directives.bind fun _ => (inBraces inputValue).map fun inputFields =>
    { kind := .inputObject, name := typeName, description := text, inputFields }

/-- A scalar, after its keyword. -/
def scalarType (text : Option Text) : Reader true NamedType :=
  name.bind fun typeName => directives.map fun _ =>
    { kind := .scalar, name := typeName, description := text }

/-- The operation of a keyword. -/
def operationOf? (text : Text) : Option OperationType :=
  [OperationType.query, .mutation, .subscription].find? fun o => o.text == text

/-- An operation, a colon and the name of its root type. -/
def root : Reader true (OperationType × Text) :=
  name.bind fun operationName => (punctuator .colon).bind fun _ =>
    Parser.bind (b := true) (c := false) nameLexeme fun (typeName, lexeme) =>
      match operationOf? operationName with
      | some operation => Parser.pure (operation, typeName)
      | none => failAt lexeme.stop (.unexpectedOperationType operationName)

/-- The root types of a schema, after its keyword. -/
def schemaRoots : Reader true (List (OperationType × Text)) :=
  Parser.bind (b := false) (c := true) directives fun _ =>
    (punctuator .openBrace).bind fun _ => someUntil .closeBrace root

/-- A directive definition, after its keyword. -/
def directiveDefinition : Reader true Unit :=
  (punctuator .at).bind fun _ => name.bind fun _ => argumentDefinitions.bind fun _ =>
    Parser.bind (b := false) (c := true)
      (peek fun
        | some (.name text) =>
          if text = "repeatable" then take.relax else Parser.pure ()
        | _ => Parser.pure ()) fun _ =>
    (keyword "on").bind fun _ => (names .bar).map fun _ => ()

/-- What a definition with a description defines, by its keyword. -/
def body (text : Option Text) (word : Text) : Reader true Definition :=
  if word = "schema" then take.bind fun _ => schemaRoots.map .roots
  else if word = "directive" then take.bind fun _ => directiveDefinition.map fun _ => .directive
  else if word = "extend" then fail .typeExtension
  else if word = "scalar" then take.bind fun _ => (scalarType text).map .type
  else if word = "type" then take.bind fun _ => (objectLike .object text).map .type
  else if word = "interface" then take.bind fun _ => (objectLike .interface text).map .type
  else if word = "union" then take.bind fun _ => (unionType text).map .type
  else if word = "enum" then take.bind fun _ => (enumType text).map .type
  else if word = "input" then take.bind fun _ => (inputObject text).map .type
  else fail (.unexpectedName word)

/-- A definition. -/
def reader : Reader true Definition :=
  Parser.bind (b := false) (c := true) description fun text => peek fun
    | some (.name word) => body text word
    | _ => Parser.failWith Scan.unexpected

end Definition

/-- The schema with the definitions of a scan added, up to its end. -/
def defineAll (s : Schema) (scan : Scan) : Except LoadError Schema :=
  match _h : Definition.reader.run scan with
  | .error e => .error (.text e)
  | .ok (definition, rest) =>
    match s.define definition with
    | .error e => .error (.schema e)
    | .ok s => if rest.atEnd then .ok s else defineAll s rest
termination_by Sized.size scan
decreasing_by have := Definition.reader.size_le ‹_›; simp at this; omega

/-- The schema of a text, with its default roots, if it is valid. -/
def ofDefinitions (source : Text) : Except LoadError Schema :=
  match defineAll initial (Scan.scan source) with
  | .error e => .error e
  | .ok s => s.validated.mapError .schema

end Schema

end QueryCompiler
