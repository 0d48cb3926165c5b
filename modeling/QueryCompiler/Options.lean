import QueryCompiler.Json.Reader

/-!
# Compiler options

The options of a compilation and their JSON form. Members that are missing or `null` keep their
defaults and unknown members do not count. The depth limit is a 64-bit word.
-/

namespace QueryCompiler

/-- What a compilation may be asked for. -/
structure CompilerOptions where
  /-- Every field and fragment selection set starts with `__typename`. -/
  addTypename : Bool := false
  /-- The fields of spread fragments take part in the type case of the set that spreads them. -/
  mergeInFieldsFromFragmentSpreads : Bool := true
  /-- For code generators. -/
  passthroughCustomScalars : Bool := false
  /-- For code generators. -/
  customScalarsPrefix : Text := []
  /-- For code generators. -/
  namespaceName : Text := []
  /-- Every operation gets an id, the digest of its text. -/
  generateOperationIds : Bool := false
  /-- The number of levels of selection sets that are accepted, the root being the first. -/
  maxSelectionDepth : UInt64 := 512
  deriving DecidableEq

/-- Why options cannot be read. -/
inductive OptionsError
  /-- The text is not JSON. -/
  | notJson
  /-- The value is no object. -/
  | notAnObject
  /-- The member has a value of another shape. -/
  | invalidValue (key : Text)
  deriving DecidableEq

/-- The wording of an error. -/
def OptionsError.message : OptionsError → Text
  | .notJson => "Invalid compiler options JSON"
  | .notAnObject => "Compiler options must be a JSON object"
  | .invalidValue key => "Invalid value for compiler option '" ++ key ++ "'"

namespace CompilerOptions

/-- The word that an integer stands for, modulo `2 ^ 64`. -/
def wordOfInt (n : Int) : UInt64 := (n % Number.unsignedLimit).toNat.toUInt64

/-- The word that a number stands for: its integer part modulo `2 ^ 64`. A double beyond all signed
and unsigned words counts as zero if it is too large, and as `2 ^ 63` if it is too small. -/
def word : Json → Except Json.ShapeError UInt64
  | .int n => .ok (wordOfInt n)
  | .float x =>
    if Number.unsignedLimit ≤ x.truncate then .ok 0
    else if x.truncate < -Number.signedLimit then .ok (wordOfInt Number.signedLimit)
    else .ok (wordOfInt x.truncate)
  | _ => .error .notANumber

/-- The value of a member, or the default if it is missing or `null`. -/
def readMember {α : Type} (j : Json) (key : Text) (read : Json → Except Json.ShapeError α)
    (default : α) : Except OptionsError α :=
  match j.member? key with
  | none => .ok default
  | some .null => .ok default
  | some value => (read value).mapError fun _ => .invalidValue key

/-- The options that a JSON value stands for. -/
def ofJson (j : Json) : Except OptionsError CompilerOptions :=
  match j with
  | .object _ => do
    let defaults : CompilerOptions := {}
    return {
      addTypename := ← readMember j "addTypename" Json.asBool defaults.addTypename
      mergeInFieldsFromFragmentSpreads := ← readMember j "mergeInFieldsFromFragmentSpreads"
        Json.asBool defaults.mergeInFieldsFromFragmentSpreads
      passthroughCustomScalars := ← readMember j "passthroughCustomScalars" Json.asBool
        defaults.passthroughCustomScalars
      customScalarsPrefix := ← readMember j "customScalarsPrefix" Json.asText
        defaults.customScalarsPrefix
      namespaceName := ← readMember j "namespace" Json.asText defaults.namespaceName
      generateOperationIds := ← readMember j "generateOperationIds" Json.asBool
        defaults.generateOperationIds
      maxSelectionDepth := ← readMember j "maxSelectionDepth" word defaults.maxSelectionDepth }
  | _ => .error .notAnObject

/-- The options of a JSON text. -/
def parse (t : Text) : Except OptionsError CompilerOptions :=
  match Json.parse? t with
  | none => .error .notJson
  | some j => ofJson j

/-- The JSON form of options, with every member. -/
def toJson (o : CompilerOptions) : Json :=
  .ofMembers [
    ("addTypename", .bool o.addTypename),
    ("mergeInFieldsFromFragmentSpreads", .bool o.mergeInFieldsFromFragmentSpreads),
    ("passthroughCustomScalars", .bool o.passthroughCustomScalars),
    ("customScalarsPrefix", .string o.customScalarsPrefix),
    ("namespace", .string o.namespaceName),
    ("generateOperationIds", .bool o.generateOperationIds),
    ("maxSelectionDepth", .int o.maxSelectionDepth.toNat)]

end CompilerOptions

end QueryCompiler
