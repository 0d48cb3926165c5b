import QueryCompiler.Document.Basic
import QueryCompiler.Source.Reader

/-!
# Parsing documents

The grammar of executable documents over tokens. List values, object values, list types and
selection sets may be nested up to a limit; every production that nests is given the number of
levels that are left, and recurs with one level less.
-/

namespace QueryCompiler

namespace Reader

variable {b : Bool} {α : Type}

/-- A parser that depends on the next token. -/
def peek (f : Option Token → Reader b α) : Reader b α :=
  Parser.bind (b := false) (c := b) next? f

/-- Takes the next token, whatever it is. -/
def take : Reader true Unit := (token (fun _ => some ()) Scan.unexpected).map fun _ => ()

/-- An item inside brackets: the end of the source is reported as a missing closing bracket. -/
def inside (close : Punctuator) (item : Reader b α) : Reader b α :=
  Parser.bind (b := false) (c := b) (Parser.look Scan.atEnd) fun atEnd =>
    if atEnd then fail (.expectedOctet close.octet none) else item

/-- A type reference. -/
def typeRef (limit : Nat) (levels : Nat) : Reader true TypeRef :=
  Parser.bind (b := true) (c := false)
    (peek fun
      | some (.punctuator .openBracket) =>
        Parser.bind (b := true) (c := true) (punctuator .openBracket) fun bracket =>
          match levels with
          | 0 => failAt bracket.stop (.nestingExceeded limit)
          | levels + 1 =>
            (typeRef limit levels).bind fun inner =>
              (punctuator .closeBracket).map fun _ => .list inner
      | _ => name.map .named)
    fun type => (optional .bang).map fun marked => if marked then .nonNull type else type

/-- The value that a name stands for. -/
def valueOfName (name : Text) : Document.Value :=
  if name = "true" then .boolean true
  else if name = "false" then .boolean false
  else if name = "null" then .null
  else .enum name

/-- A value; a constant one holds no variables. -/
def value (limit : Nat) (constant : Bool) (levels : Nat) : Reader true Document.Value :=
  peek fun
    | some (.punctuator .dollar) =>
      if constant then fail .variableInConstant
      else (punctuator .dollar).bind fun _ => name.map .variable
    | some (.punctuator .openBracket) =>
      match levels with
      | 0 => fail (.nestingExceeded limit)
      | levels + 1 =>
        (punctuator .openBracket).bind fun _ =>
          (manyUntil .closeBracket (inside .closeBracket (value limit constant levels))).map .list
    | some (.punctuator .openBrace) =>
      match levels with
      | 0 => fail (.nestingExceeded limit)
      | levels + 1 =>
        (punctuator .openBrace).bind fun _ =>
          (manyUntil .closeBrace (name.bind fun key => (punctuator .colon).bind fun _ =>
            (value limit constant levels).map fun v => (key, v))).map .object
    | some (.string text) => take.map fun _ => .string text
    | some (.int literal) => take.map fun _ => .int literal
    | some (.float literal) => take.map fun _ => .float literal
    | some (.name text) => take.map fun _ => valueOfName text
    | _ => Parser.failWith Scan.unexpectedValue

/-- A name, a colon and a value. -/
def argument (limit : Nat) (constant : Bool) (levels : Nat) : Reader true Document.Argument :=
  name.bind fun key => (punctuator .colon).bind fun _ =>
    (value limit constant levels).map fun v => ⟨key, v⟩

/-- Arguments in parentheses, or none without parentheses. -/
def arguments (limit : Nat) (constant : Bool) (levels : Nat) :
    Reader false (List Document.Argument) :=
  (optional .openParen).bind fun found =>
    if found then (someUntil .closeParen (argument limit constant levels)).relax
    else Parser.pure []

/-- A directive. -/
def directive (limit : Nat) (constant : Bool) (levels : Nat) : Reader true Document.Directive :=
  Parser.bind (b := false) (c := true) here fun location =>
    (punctuator .at).bind fun _ => name.bind fun directiveName =>
      (arguments limit constant levels).map fun args => ⟨directiveName, args, location⟩

/-- Any number of directives. -/
def directives (limit : Nat) (constant : Bool) (levels : Nat) :
    Reader false (List Document.Directive) :=
  Parser.whileM (Scan.startsWith .at) (directive limit constant levels)

/-- A field, whose selection set is read by `nested`. -/
def field (limit levels : Nat) (nested : Reader true (List Document.Selection)) :
    Reader true Document.Selection :=
  Parser.bind (b := false) (c := true) here fun location =>
    name.bind fun first =>
    (optional .colon).bind fun aliased =>
    Parser.bind (b := false) (c := false)
      (if aliased then (name.map fun second => (some first, second)).relax
        else Parser.pure (none, first)) fun (fieldAlias, fieldName) =>
    (arguments limit false levels).bind fun args =>
    (directives limit false levels).bind fun ds =>
    peek fun
      | some (.punctuator .openBrace) =>
        (nested.map (.field ⟨fieldAlias, fieldName, args, ds, location⟩)).relax
      | _ => Parser.pure (.field ⟨fieldAlias, fieldName, args, ds, location⟩ [])

/-- The directives and the selection set of an inline fragment. -/
def inlineBody (limit levels : Nat) (nested : Reader true (List Document.Selection))
    (location : Location) (typeCondition : Option Text) : Reader true Document.Selection :=
  Parser.bind (b := false) (c := true) (directives limit false levels) fun ds =>
    nested.map (.inline ⟨typeCondition, ds, location⟩)

/-- A selection, whose selection set is read by `nested`. -/
def selection (limit levels : Nat) (nested : Reader true (List Document.Selection)) :
    Reader true Document.Selection :=
  Parser.bind (b := false) (c := true) here fun location => peek fun
    | some .spread =>
      Parser.bind (b := true) (c := true) take fun _ => peek fun
        | some (.name text) =>
          if text = "on" then
            take.bind fun _ => name.bind fun type =>
              inlineBody limit levels nested location (some type)
          else
            take.bind fun _ => (directives limit false levels).map fun ds =>
              .spread ⟨text, ds, location⟩
        | _ => inlineBody limit levels nested location none
    | _ => field limit levels nested

/-- A selection set. -/
def selectionSet (limit : Nat) : (levels : Nat) → Reader true (List Document.Selection)
  | 0 => fail (.nestingExceeded limit)
  | levels + 1 =>
    (punctuator .openBrace).bind fun _ =>
      someUntil .closeBrace
        (inside .closeBrace (selection limit levels (selectionSet limit levels)))

/-- A variable definition. Its directives are read and dropped. -/
def variableDefinition (limit : Nat) : Reader true Document.Variable :=
  (punctuator .dollar).bind fun _ => name.bind fun variableName =>
    (punctuator .colon).bind fun _ => (typeRef limit limit).bind fun type =>
    (optional .equals).bind fun hasDefault =>
    Parser.bind (b := false) (c := false)
      (if hasDefault then ((value limit true limit).map some).relax else Parser.pure none)
      fun default =>
    (directives limit true limit).map fun _ => ⟨variableName, type, default⟩

/-- Variable definitions in parentheses, or none without parentheses. -/
def variableDefinitions (limit : Nat) : Reader false (List Document.Variable) :=
  (optional .openParen).bind fun found =>
    if found then (someUntil .closeParen (variableDefinition limit)).relax else Parser.pure []

/-- A name if one comes next. -/
def name? : Reader false (Option Text) :=
  peek fun
    | some (.name text) => (take.map fun _ => some text).relax
    | _ => Parser.pure none

/-- An operation that starts with its keyword. -/
def operation (limit : Nat) (filePath : Option Text) (type : OperationType) :
    Reader true Document.Operation :=
  Parser.bind (b := false) (c := true) here fun location =>
    take.bind fun _ => name?.bind fun operationName =>
    (variableDefinitions limit).bind fun vars =>
    (directives limit false limit).bind fun ds =>
    (selectionSet limit limit).map fun selections =>
      ⟨type, operationName, vars, ds, selections, location, filePath⟩

/-- An operation that is a selection set. -/
def shorthand (limit : Nat) (filePath : Option Text) : Reader true Document.Operation :=
  Parser.bind (b := false) (c := true) here fun location =>
    (selectionSet limit limit).map fun selections =>
      ⟨.query, none, [], [], selections, location, filePath⟩

/-- A fragment definition. -/
def fragment (limit : Nat) (filePath : Option Text) : Reader true Document.Fragment :=
  Parser.bind (b := false) (c := true) here fun location =>
    (keyword "fragment").bind fun _ =>
    Parser.bind (b := false) (c := true) (Parser.look (Scan.startsWithName "on")) fun isOn =>
    if isOn then fail (.unexpectedName "on")
    else
      name.bind fun fragmentName => (keyword "on").bind fun _ => name.bind fun type =>
      (directives limit false limit).bind fun ds =>
      (selectionSet limit limit).map fun selections =>
        ⟨fragmentName, type, ds, selections, location, filePath⟩

/-- A definition. -/
def definition (limit : Nat) (filePath : Option Text) : Reader true Document.Definition :=
  peek fun
    | some (.punctuator .openBrace) => (shorthand limit filePath).map .operation
    | some (.name text) =>
      if text = "query" then (operation limit filePath .query).map .operation
      else if text = "mutation" then (operation limit filePath .mutation).map .operation
      else if text = "subscription" then (operation limit filePath .subscription).map .operation
      else if text = "fragment" then (fragment limit filePath).map .fragment
      else fail (.unexpectedName text)
    | _ => Parser.failWith Scan.unexpected

/-- One definition or more, up to the end of the source. -/
def document (limit : Nat) (filePath : Option Text) : Reader true Document :=
  (definition limit filePath).bind fun first =>
    (Parser.whileM (fun s => !s.atEnd) (definition limit filePath)).map fun rest =>
      Document.ofDefinitions (first :: rest)

end Reader

namespace Document

/-- The document of a source whose constructs nest at most `limit` levels. -/
def parse (source : Text) (filePath : Option Text) (limit : Nat) : Except SyntaxError Document :=
  ((Reader.document limit filePath).run (Scan.scan source)).map Prod.fst

end Document

end QueryCompiler
