import QueryCompiler.Document.Parser
import QueryCompiler.Proofs.Source.Cursor

/-!
# Reading documents octet by octet

The grammar of executable documents over the octets of a source. Every production goes to the next
token before it looks at it, and leaves the cursor after the last token that it has taken, or at the
token that it has not taken. As in the grammar over tokens, productions that nest recur with one level
less; a level that is missing is a fault where the cursor stands.

* `OctetReader.typeRef`, `value`, `selectionSet`: the productions that nest.
* `OctetReader.document`, `parse`: whole documents.
-/

namespace QueryCompiler.OctetReader

open QueryCompiler.Parser

variable {source : Text} {b : Bool} {α : Type}

/-- The place of the next token. -/
def here : OctetReader source false Location := skipIgnored.bind fun _ => look Cursor.place

/-- Fails with what stands at the cursor. -/
def unexpected : OctetReader source b α :=
  failWith fun c => match c.octet? with
    | none => .fault .unexpectedEnd c
    | some o => .fault (.unexpectedOctet o) c

/-- Fails with the name at the cursor, which is read but not taken. -/
def unexpectedName : OctetReader source b α :=
  failWith fun c => match name.run c with
    | .ok (text, _) => .fault (.unexpectedName text) c
    | .error e => e

/-- An item inside brackets: the end of the source is reported as a missing closing bracket. -/
def inside (close : Punctuator) (item : OctetReader source true α) : OctetReader source true α :=
  Parser.bind (b := false) (c := true) ended fun atEnd =>
    if atEnd then fail (.expectedOctet close.octet none) else item

/-! ### Types and values -/

/-- A type reference, whose lists hold what is read by `inner`; none is left no levels. -/
def typeFrom (limit : Nat) (inner : Option (OctetReader source true TypeRef)) :
    OctetReader source true TypeRef :=
  Parser.bind (b := true) (c := false)
    (Parser.bind (b := false) (c := true) (optional .openBracket) fun found =>
      if found then
        match inner with
        | none => fail (.nestingExceeded limit)
        | some inner => inner.bind fun type => (expect .closeBracket).map fun _ => .list type
      else name.map .named)
    fun type => (optional .bang).map fun marked => if marked then .nonNull type else type

/-- A type reference. -/
def typeRef (limit : Nat) : (levels : Nat) → OctetReader source true TypeRef
  | 0 => typeFrom limit none
  | levels + 1 => typeFrom limit (some (typeRef limit levels))

/-- A value, whose lists and objects hold items that are read by `item`; none is left no levels. -/
def valueFrom (limit : Nat) (constant : Bool)
    (item : Option (OctetReader source true Document.Value)) :
    OctetReader source true Document.Value :=
  Parser.bind (b := false) (c := true) skipIgnored fun _ => peeking fun o =>
    if o = Punctuator.dollar.octet then
      if constant then fail .variableInConstant
      else take.bind fun _ => name.map .variable
    else if o = Punctuator.openBracket.octet then
      match item with
      | none => fail (.nestingExceeded limit)
      | some item =>
        take.bind fun _ => (manyUntil .closeBracket (inside .closeBracket item)).map .list
    else if o = Punctuator.openBrace.octet then
      match item with
      | none => fail (.nestingExceeded limit)
      | some item =>
        take.bind fun _ =>
          (manyUntil .closeBrace (name.bind fun key => (expect .colon).bind fun _ =>
            item.map fun v => (key, v))).map .object
    else if o = Octet.quote then string.map .string
    else if o = Octet.minus ∨ Octet.isDigit o then
      number.map fun x => if x.1 then .float x.2 else .int x.2
    else if Octet.isNameStart o then name.map Reader.valueOfName
    else unexpected

/-- A value; a constant one holds no variables. -/
def value (limit : Nat) (constant : Bool) : (levels : Nat) → OctetReader source true Document.Value
  | 0 => valueFrom limit constant none
  | levels + 1 => valueFrom limit constant (some (value limit constant levels))

/-! ### Arguments and directives -/

/-- A name, a colon and a value. -/
def argument (limit : Nat) (constant : Bool) (levels : Nat) :
    OctetReader source true Document.Argument :=
  name.bind fun key => (expect .colon).bind fun _ =>
    (value limit constant levels).map fun v => ⟨key, v⟩

/-- Arguments in parentheses, or none without parentheses. -/
def arguments (limit : Nat) (constant : Bool) (levels : Nat) :
    OctetReader source false (List Document.Argument) :=
  (optional .openParen).bind fun found =>
    if found then (someUntil .closeParen (argument limit constant levels)).relax
    else Parser.pure []

/-- A directive that starts at the cursor. -/
def directive (limit : Nat) (constant : Bool) (levels : Nat) :
    OctetReader source true Document.Directive :=
  Parser.bind (b := false) (c := true) (look Cursor.place) fun location =>
    take.bind fun _ => name.bind fun directiveName =>
      (arguments limit constant levels).map fun args => ⟨directiveName, args, location⟩

/-- Any number of directives. -/
def directives (limit : Nat) (constant : Bool) (levels : Nat) :
    OctetReader source false (List Document.Directive) :=
  untilM (skipIgnored.bind fun _ => look fun c => c.peek 0 != Punctuator.at.octet)
    (directive limit constant levels)

/-! ### Selections -/

/-- A field, whose selection set is read by `nested`. -/
def field (limit levels : Nat) (nested : OctetReader source true (List Document.Selection)) :
    OctetReader source true Document.Selection :=
  Parser.bind (b := false) (c := true) here fun location =>
    name.bind fun first =>
    (optional .colon).bind fun aliased =>
    Parser.bind (b := false) (c := false)
      (if aliased then (name.map fun second => (some first, second)).relax
        else Parser.pure (none, first)) fun (fieldAlias, fieldName) =>
    (arguments limit false levels).bind fun args =>
    (directives limit false levels).bind fun ds =>
    skipIgnored.bind fun _ => peeking fun o =>
      if o = Punctuator.openBrace.octet then
        (nested.map (.field ⟨fieldAlias, fieldName, args, ds, location⟩)).relax
      else Parser.pure (.field ⟨fieldAlias, fieldName, args, ds, location⟩ [])

/-- The directives and the selection set of an inline fragment. -/
def inlineBody (limit levels : Nat) (nested : OctetReader source true (List Document.Selection))
    (location : Location) (typeCondition : Option Text) :
    OctetReader source true Document.Selection :=
  Parser.bind (b := false) (c := true) (directives limit false levels) fun ds =>
    nested.map (.inline ⟨typeCondition, ds, location⟩)

/-- What follows the mark of a spread. -/
def afterSpread (limit levels : Nat) (nested : OctetReader source true (List Document.Selection))
    (location : Location) : OctetReader source true Document.Selection :=
  Parser.bind (b := false) (c := true) (startsName "on") fun isOn =>
    if isOn then
      Parser.bind (b := false) (c := true) (keyword "on") fun _ => name.bind fun type =>
        inlineBody limit levels nested location (some type)
    else peeking fun o =>
      if Octet.isNameStart o then
        name.bind fun text => (directives limit false levels).map fun ds =>
          .spread ⟨text, ds, location⟩
      else inlineBody limit levels nested location none

/-- A selection, whose selection set is read by `nested`. -/
def selection (limit levels : Nat) (nested : OctetReader source true (List Document.Selection)) :
    OctetReader source true Document.Selection :=
  Parser.bind (b := false) (c := true) here fun location =>
    Parser.bind (b := false) (c := true) spread fun isSpread =>
      if isSpread then afterSpread limit levels nested location else field limit levels nested

/-- A selection set. -/
def selectionSet (limit : Nat) :
    (levels : Nat) → OctetReader source true (List Document.Selection)
  | 0 => fail (.nestingExceeded limit)
  | levels + 1 =>
    (expect .openBrace).bind fun _ =>
      someUntil .closeBrace
        (inside .closeBrace (selection limit levels (selectionSet limit levels)))

/-! ### Definitions -/

/-- A variable definition. Its directives are read and dropped. -/
def variableDefinition (limit : Nat) : OctetReader source true Document.Variable :=
  (expect .dollar).bind fun _ => name.bind fun variableName =>
    (expect .colon).bind fun _ => (typeRef limit limit).bind fun type =>
    (optional .equals).bind fun hasDefault =>
    Parser.bind (b := false) (c := false)
      (if hasDefault then ((value limit true limit).map some).relax else Parser.pure none)
      fun default =>
    (directives limit true limit).map fun _ => ⟨variableName, type, default⟩

/-- Variable definitions in parentheses, or none without parentheses. -/
def variableDefinitions (limit : Nat) : OctetReader source false (List Document.Variable) :=
  peeking fun o =>
    if o = Punctuator.openParen.octet then
      ((expect .openParen).bind fun _ => someUntil .closeParen (variableDefinition limit)).relax
    else Parser.pure []

/-- A name if one comes next, and what stands behind it up to the next token. -/
def name? : OctetReader source false (Option Text) :=
  skipIgnored.bind fun _ => peeking fun o =>
    if Octet.isNameStart o then
      (name.bind fun text => skipIgnored.map fun _ => some text).relax
    else Parser.pure none

/-- The operation that a keyword names. -/
def operationOfKeyword (keyword : Text) : OperationType :=
  if keyword = "query" then .query
  else if keyword = "mutation" then .mutation
  else .subscription

/-- An operation: a selection set, or all that may follow a keyword. -/
def operation (limit : Nat) (filePath : Option Text) :
    OctetReader source true Document.Operation :=
  Parser.bind (b := false) (c := true) here fun location => peeking fun o =>
    if o = Punctuator.openBrace.octet then
      (selectionSet limit limit).map fun selections =>
        ⟨.query, none, [], [], selections, location, filePath⟩
    else
      name.bind fun keyword => name?.bind fun operationName =>
      (variableDefinitions limit).bind fun vars =>
      (directives limit false limit).bind fun ds =>
      (selectionSet limit limit).map fun selections =>
        ⟨operationOfKeyword keyword, operationName, vars, ds, selections, location, filePath⟩

/-- A fragment definition. -/
def fragment (limit : Nat) (filePath : Option Text) : OctetReader source true Document.Fragment :=
  Parser.bind (b := false) (c := true) here fun location =>
    Parser.bind (b := false) (c := true) (keyword "fragment") fun _ =>
    Parser.bind (b := false) (c := true) (startsName "on") fun isOn =>
    if isOn then fail (.unexpectedName "on")
    else
      name.bind fun fragmentName => (keyword "on").bind fun _ => name.bind fun type =>
      (directives limit false limit).bind fun ds =>
      (selectionSet limit limit).map fun selections =>
        ⟨fragmentName, type, ds, selections, location, filePath⟩

/-- Whether one of some names comes next. -/
def startsAny : List Text → OctetReader source false Bool
  | [] => Parser.pure false
  | k :: ks => (startsName k).bind fun found => if found then Parser.pure true else startsAny ks

/-- The names that operations start with. -/
def operationKeywords : List Text := ["query", "mutation", "subscription"]

/-- Whether an operation comes next. -/
def startsOperation : OctetReader source false Bool :=
  peeking fun o =>
    if o = Punctuator.openBrace.octet then Parser.pure true
    else startsAny operationKeywords

/-- A definition. -/
def definition (limit : Nat) (filePath : Option Text) :
    OctetReader source true Document.Definition :=
  Parser.bind (b := false) (c := true) startsOperation fun isOperation =>
    if isOperation then (operation limit filePath).map .operation
    else
      Parser.bind (b := false) (c := true) (startsName "fragment") fun isFragment =>
        if isFragment then (fragment limit filePath).map .fragment
        else peeking fun o => if Octet.isNameStart o then unexpectedName else unexpected

/-- One definition or more, up to the end of the source. -/
def document (limit : Nat) (filePath : Option Text) : OctetReader source false Document :=
  ended.bind fun atEnd =>
    if atEnd then fail .unexpectedEnd
    else (untilM ended (definition limit filePath)).map Document.ofDefinitions

/-- The document of a source whose constructs nest at most `limit` levels. -/
def parse (source : Text) (filePath : Option Text) (limit : Nat) : Except (Halt source) Document :=
  ((document limit filePath).run (Cursor.start source)).map Prod.fst

end QueryCompiler.OctetReader
