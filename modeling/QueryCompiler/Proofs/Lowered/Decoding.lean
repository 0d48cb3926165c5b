import QueryCompiler.Lowered.Serial
import QueryCompiler.Proofs.Json.Members
import QueryCompiler.Proofs.Lowered.Within
import QueryCompiler.Proofs.Source.Lexing
import QueryCompiler.Schema.Introspection

/-!
# Reading the JSON form of lowered programs

A decoder for the JSON form: `Decode.operations` and `Decode.fragments` read back what
`Operation.toJson` and `Fragment.toJson` wrote. Types are written as texts, so the names in them must
be names: a name never ends in a mark or starts with a bracket (`TypeRef.ofText_text`).

* `Body.Legible`: all fields of a body, at any depth, have types that can be read back.
* `Decode.field_toJson`: a legible field is read back, with its body.
* `Decode.operation_toJson`, `Decode.fragment_toJson`, `Decode.program_toJson`: so are operations,
  fragments and programs.
-/

namespace QueryCompiler

/-! ### Types as texts -/

namespace TypeRef

/-- The octet that marks non-null types. -/
def mark : UInt8 := 0x21

/-- The octet that opens a list. -/
def bracket : UInt8 := 0x5B

/-- The type of a written form: what ends in a mark is non-null, what starts with a bracket is a
list, and anything else is a name. -/
def ofText (t : Text) : TypeRef :=
  if t.getLast? = some mark then .nonNull (ofText t.dropLast)
  else if t.head? = some bracket then .list (ofText t.tail.dropLast)
  else .named t
termination_by t.length
decreasing_by
  · cases t with
    | nil => contradiction
    | cons c rest => simp
  · cases t with
    | nil => contradiction
    | cons c rest => exact Nat.lt_succ_of_le (List.dropLast_sublist rest).length_le

theorem ofText_name {name : Text} (h : name.IsName) : ofText name = .named name := by
  obtain ⟨c, more, rfl, hc, hmore⟩ := h
  have hlast : (c :: more).getLast? ≠ some mark := by
    intro hm
    rcases List.mem_cons.mp (List.mem_of_getLast? hm) with rfl | hm
    · exact absurd hc (by decide)
    · exact absurd (hmore _ hm) (by decide)
  have hhead : (c :: more).head? ≠ some bracket := by
    intro hb
    obtain rfl := Option.some.inj hb
    exact absurd hc (by decide)
  rw [ofText, if_neg hlast, if_neg hhead]

/-- **A type is that of its written form**, if its name is a name. -/
theorem ofText_text : ∀ {type : TypeRef}, type.namedType.IsName → ofText type.text = type
  | .named name, h => ofText_name h
  | .list inner, h => by
    have htext : (TypeRef.list inner).text = bracket :: (inner.text ++ [0x5D]) := rfl
    have hlast : (bracket :: (inner.text ++ [0x5D])).getLast? ≠ some mark := by
      rw [← List.cons_append, List.getLast?_concat]
      decide
    rw [htext, ofText, if_neg hlast, if_pos List.head?_cons, List.tail_cons, List.dropLast_concat,
      ofText_text (show inner.namedType.IsName from h)]
  | .nonNull inner, h => by
    have htext : (TypeRef.nonNull inner).text = inner.text ++ [mark] := rfl
    rw [htext, ofText, if_pos List.getLast?_concat, List.dropLast_concat,
      ofText_text (show inner.namedType.IsName from h)]

end TypeRef

/-! ### Types that can be read back -/

/-- The type of the argument can be read back. -/
def Typed.Argument.Legible (a : Typed.Argument) : Prop :=
  ∀ type, a.type = some type → type.namedType.IsName

namespace Lowered

/-- All types in the head can be read back. -/
structure FieldHead.Legible (head : FieldHead) : Prop where
  type : head.type.namedType.IsName
  args : ∀ a ∈ head.args, a.Legible

/-- **All types in a body can be read back**, at any depth. -/
def Body.Legible (b : Body) : Prop :=
  ∀ inner : Body, inner.Within b → ∀ f ∈ inner.allFields, f.head.Legible

/-- All types in a field can be read back, and all those in its body. -/
structure Field.Legible (f : Field) : Prop where
  head : f.head.Legible
  body : ∀ b, f.body = some b → b.Legible

theorem Body.Legible.field {b : Body} (h : b.Legible) {f : Field} (hf : f ∈ b.allFields) :
    f.Legible :=
  ⟨h b .refl f hf, fun _ hbody inner hinner => h inner (.inside hf hbody hinner)⟩

/-- The keys of the members of a body. -/
def Body.keys : List Text := ["fields", "fragmentSpreads", "inlineFragments"]

open Json (memberText_of memberText?_of)

/-! ### The decoder -/

namespace Decode

/-- The text under a key. -/
def text (j : Json) (key : Text) : Option Text := (j.memberText key).toOption

/-- The text under a key, if it is there. -/
def text? (j : Json) (key : Text) : Option (Option Text) := (j.memberText? key).toOption

/-- The truth value under a key. -/
def flag (j : Json) (key : Text) : Option Bool := (j.member? key).bind fun v => v.asBool.toOption

/-- The elements of the array under a key. -/
def array (j : Json) (key : Text) : Option (List Json) :=
  match j.member? key with
  | some (.array values) => some values
  | _ => none

/-- The texts in the array under a key. -/
def texts (j : Json) (key : Text) : Option (List Text) :=
  (array j key).bind fun values => values.mapM fun v => v.asText.toOption

theorem sizeOf_of_array {j : Json} {key : Text} {values : List Json}
    (h : array j key = some values) : sizeOf values < sizeOf j := by
  unfold array at h
  split at h
  · rename_i values' hm
    obtain rfl := Option.some.inj h
    have := Json.sizeOf_of_member (Json.member_eq_ok.mpr hm)
    simp only [Json.array.sizeOf_spec] at this
    omega
  · cases h

/-- An argument. -/
def argument (j : Json) : Option Typed.Argument := do
  let name ← text j "name"
  let value ← j.member? "value"
  let type ← text? j "type"
  return ⟨name, value, type.map TypeRef.ofText⟩

/-- The arguments of a field, none if there is no such member. -/
def arguments (j : Json) : Option (List Typed.Argument) :=
  if j.hasMember "args" then (array j "args").bind fun values => values.mapM argument else some []

/-- What a field says besides its body. -/
def fieldHead (j : Json) : Option FieldHead := do
  let responseName ← text j "responseName"
  let fieldName ← text j "fieldName"
  let type ← text j "type"
  let args ← arguments j
  let isConditional ← flag j "isConditional"
  let description ← text? j "description"
  let isDeprecated ← flag j "isDeprecated"
  let deprecationReason ← text? j "deprecationReason"
  return {
    responseName
    fieldName
    type := .ofText type
    args
    isConditional
    description
    isDeprecated
    deprecationReason }

mutual

/-- A field, with a body if there are fields in it. -/
def field (j : Json) : Option Field := do
  let head ← fieldHead j
  if j.hasMember "fields" then return .mk head (some (← body j)) else return .mk head none
termination_by (sizeOf j, 1)

/-- The body of a field, an operation or a fragment. -/
def body (j : Json) : Option Body :=
  match _hf : array j "fields", _hi : array j "inlineFragments" with
  | some fieldValues, some inlineValues => do
    return .mk (← fields fieldValues) (← texts j "fragmentSpreads") (← inlineFragments inlineValues)
  | _, _ => none
termination_by (sizeOf j, 0)
decreasing_by
  · exact Prod.Lex.left _ _ (sizeOf_of_array _hf)
  · exact Prod.Lex.left _ _ (sizeOf_of_array _hi)

/-- An inline fragment. -/
def inlineFragment (j : Json) : Option InlineFragment :=
  match _hf : array j "fields" with
  | some fieldValues => do
    return .mk (← text j "typeCondition") (← texts j "possibleTypes") (← fields fieldValues)
      (← texts j "fragmentSpreads")
  | none => none
termination_by (sizeOf j, 0)
decreasing_by exact Prod.Lex.left _ _ (sizeOf_of_array _hf)

/-- Fields one after the other. -/
def fields : List Json → Option (List Field)
  | [] => some []
  | j :: rest => do return (← field j) :: (← fields rest)
termination_by values => (sizeOf values, 0)

/-- Inline fragments one after the other. -/
def inlineFragments : List Json → Option (List InlineFragment)
  | [] => some []
  | j :: rest => do return (← inlineFragment j) :: (← inlineFragments rest)
termination_by values => (sizeOf values, 0)

end

/-- A variable. -/
def variableDefinition (j : Json) : Option Typed.Variable := do
  return ⟨← text j "name", .ofText (← text j "type")⟩

/-- The kind of operation of a keyword. -/
def operationType (keyword : Text) : Option OperationType :=
  [OperationType.query, .mutation, .subscription].find? fun o => o.text == keyword

/-- An operation. -/
def operation (j : Json) : Option Operation := do
  let filePath ← text? j "filePath"
  let name ← text j "operationName"
  let operation ← operationType (← text j "operationType")
  let rootType ← text j "rootType"
  let variableDefinitions ← (← array j "variables").mapM variableDefinition
  let source ← text j "source"
  let body ← body j
  let fragmentsReferenced ← texts j "fragmentsReferenced"
  let sourceWithFragments ← text j "sourceWithFragments"
  let operationId ← text? j "operationId"
  return {
    filePath
    name
    operation
    rootType
    variableDefinitions
    source
    body
    fragmentsReferenced
    sourceWithFragments
    operationId }

/-- A fragment. -/
def fragment (j : Json) : Option Fragment := do
  let filePath ← text? j "filePath"
  let name ← text j "fragmentName"
  let source ← text j "source"
  let typeCondition ← text j "typeCondition"
  let possibleTypes ← texts j "possibleTypes"
  let body ← body j
  return { filePath, name, source, typeCondition, possibleTypes, body }

/-- The operations and the fragments of a program. -/
def program (j : Json) : Option (List Operation × List Fragment) := do
  let operations ← (← array j "operations").mapM operation
  let fragments ← (← array j "fragments").mapM fragment
  return (operations, fragments)

/-! ### Members -/

section Members
variable {j : Json} {key : Text}

theorem text_of {t : Text} (h : j.member? key = some (.string t)) : text j key = some t := by
  rw [text, memberText_of h]
  rfl

theorem text?_of {t : Option Text} (h : j.member? key = t.map .string) : text? j key = some t := by
  rw [text?, memberText?_of h]
  rfl

theorem flag_of {b : Bool} (h : j.member? key = some (.bool b)) : flag j key = some b := by
  rw [flag, h]
  rfl

theorem array_of {values : List Json} (h : j.member? key = some (.array values)) :
    array j key = some values := by
  rw [array, h]

theorem texts_of {ts : List Text} (h : j.member? key = some (textsJson ts)) :
    texts j key = some ts := by
  rw [texts, array_of h]
  exact Success.mapM_of_inverse fun t _ => rfl

end Members

@[simp] theorem lookup_textMember (key k : Text) (t : Option Text) :
    (textMember k t).lookup key = if key = k then t.map .string else none := by
  cases t with
  | none => exact (ite_self _).symm
  | some t => exact Json.lookup_member key k _ []

@[simp] theorem reverse_textMember (k : Text) (t : Option Text) :
    (textMember k t).reverse = textMember k t := by
  cases t <;> rfl

@[simp] theorem lookup_argumentsMember (key : Text) (args : List Typed.Argument) :
    (argumentsMember args).lookup key =
      if key = "args" ∧ args ≠ [] then some (.array (args.map argumentJson)) else none := by
  cases args with
  | nil => simp [argumentsMember]
  | cons a rest => simp [argumentsMember]

@[simp] theorem reverse_argumentsMember (args : List Typed.Argument) :
    (argumentsMember args).reverse = argumentsMember args := by
  cases args <;> rfl

/-! ### Arguments and heads -/

theorem argument_argumentJson {a : Typed.Argument} (h : a.Legible) :
    argument (argumentJson a) = some a := by
  have hname : (argumentJson a).member? "name" = some (.string a.name) := by
    simp +decide [argumentJson, List.lookup_append]
  have hvalue : (argumentJson a).member? "value" = some a.value := by
    simp +decide [argumentJson, List.lookup_append]
  have htype : (argumentJson a).member? "type" = (a.type.map TypeRef.text).map .string := by
    simp +decide [argumentJson, List.lookup_append]
  rw [argument, text_of hname, hvalue, text?_of htype]
  obtain ⟨name, value, _ | type⟩ := a
  · rfl
  · exact congrArg (fun t => some (⟨name, value, some t⟩ : Typed.Argument))
      (TypeRef.ofText_text (h type rfl))

section Head
variable {head : FieldHead} {j : Json}
  (h : ∀ key, key ∉ Body.keys → j.member? key = head.members.reverse.lookup key)
include h

theorem arguments_of (hargs : ∀ a ∈ head.args, a.Legible) : arguments j = some head.args := by
  have hmember : j.member? "args" =
      if head.args ≠ [] then some (.array (head.args.map argumentJson)) else none := by
    rw [h _ (by decide)]
    simp +decide [FieldHead.members, List.lookup_append]
  by_cases hne : head.args = []
  · rw [if_neg (not_not.mpr hne)] at hmember
    rw [arguments, Json.hasMember, hmember, hne]
    rfl
  · rw [if_pos hne] at hmember
    rw [arguments, Json.hasMember, hmember, array_of hmember]
    exact Success.mapM_of_inverse fun a ha => argument_argumentJson (hargs a ha)

/-- The head of a field is read from its members, whatever the members of its body are. -/
theorem fieldHead_of (hlegible : head.Legible) : fieldHead j = some head := by
  have hresponse : j.member? "responseName" = some (.string head.responseName) := by
    rw [h _ (by decide)]
    simp +decide [FieldHead.members, List.lookup_append]
  have hfield : j.member? "fieldName" = some (.string head.fieldName) := by
    rw [h _ (by decide)]
    simp +decide [FieldHead.members, List.lookup_append]
  have htype : j.member? "type" = some (.string head.type.text) := by
    rw [h _ (by decide)]
    simp +decide [FieldHead.members, List.lookup_append]
  have hconditional : j.member? "isConditional" = some (.bool head.isConditional) := by
    rw [h _ (by decide)]
    simp +decide [FieldHead.members, List.lookup_append]
  have hdescription : j.member? "description" = head.description.map .string := by
    rw [h _ (by decide)]
    simp +decide [FieldHead.members, List.lookup_append]
  have hdeprecated : j.member? "isDeprecated" = some (.bool head.isDeprecated) := by
    rw [h _ (by decide)]
    simp +decide [FieldHead.members, List.lookup_append]
  have hreason : j.member? "deprecationReason" = head.deprecationReason.map .string := by
    rw [h _ (by decide)]
    simp +decide [FieldHead.members, List.lookup_append]
  rw [fieldHead, text_of hresponse, text_of hfield, text_of htype, arguments_of h hlegible.args,
    flag_of hconditional, text?_of hdescription, flag_of hdeprecated, text?_of hreason]
  show some _ = _
  rw [TypeRef.ofText_text hlegible.type]

end Head

/-! ### Fields and bodies -/

/-- The object has the members of the body. -/
structure HasBody (j : Json) (b : Body) : Prop where
  fields : j.member? "fields" = some (.array (fieldsToJson b.fields))
  spreads : j.member? "fragmentSpreads" = some (textsJson b.spreads)
  inlineFragments :
    j.member? "inlineFragments" = some (.array (inlineFragmentsToJson b.inlineFragments))

theorem lookup_bodyMembers {b : Body} {key : Text} (h : key ∉ Body.keys) :
    b.members.reverse.lookup key = none := by
  obtain ⟨fields, spreads, inline⟩ := b
  simp only [Body.keys, List.mem_cons, List.not_mem_nil, or_false, not_or] at h
  simp [Body.members, h]

mutual

/-- **A field is read back**, with its body. -/
theorem field_toJson : ∀ (f : Field), f.Legible → field f.toJson = some f
  | .mk head none, h => by
    have hhead := fieldHead_of (fun key _ => Json.member?_ofMembers head.members key) h.head
    have hnone : (Json.ofMembers head.members).member? "fields" = none := by
      simp +decide [FieldHead.members, List.lookup_append]
    rw [Field.toJson, field, hhead, Json.hasMember, hnone]
    rfl
  | .mk head (some b), h => by
    have hhead : fieldHead (Json.ofMembers (head.members ++ b.members)) = some head := by
      refine fieldHead_of (fun key hkey => ?_) h.head
      rw [Json.member?_ofMembers, List.reverse_append, List.lookup_append, lookup_bodyMembers hkey,
        Option.none_or]
    have hmembers : HasBody (Json.ofMembers (head.members ++ b.members)) b := by
      obtain ⟨fields, spreads, inline⟩ := b
      constructor
      · simp +decide [Body.members, Body.fields]
      · simp +decide [Body.members, Body.spreads]
      · simp +decide [Body.members, Body.inlineFragments]
    rw [Field.toJson, field, hhead, Json.hasMember, hmembers.fields,
      body_of b (h.body b rfl) hmembers]
    rfl

theorem body_of : ∀ (b : Body) {j : Json}, b.Legible → HasBody j b → body j = some b
  | .mk fs spreads inline, j, h, hm => by
    have hfields : array j "fields" = some (fieldsToJson fs) := array_of hm.fields
    have hspreads : texts j "fragmentSpreads" = some spreads := texts_of hm.spreads
    have hinline : array j "inlineFragments" = some (inlineFragmentsToJson inline) :=
      array_of hm.inlineFragments
    have hfs := fields_toJson fs fun f hf => h.field (List.mem_append_left _ hf)
    have his := inlineFragments_toJson inline fun i hi f hf =>
      h.field (List.mem_append_right _ (List.mem_flatMap.mpr ⟨i, hi, hf⟩))
    rw [body]
    split
    · rename_i fieldValues inlineValues hf hi
      obtain rfl := Option.some.inj (hf.symm.trans hfields)
      obtain rfl := Option.some.inj (hi.symm.trans hinline)
      rw [hfs, hspreads, his]
      rfl
    · rename_i hno
      exact absurd hinline (hno _ _ hfields)

theorem inlineFragment_toJson : ∀ (i : InlineFragment), (∀ f ∈ i.fields, f.Legible) →
    inlineFragment i.toJson = some i
  | .mk type types fs spreads, h => by
    have htype : text (InlineFragment.mk type types fs spreads).toJson "typeCondition" =
        some type := text_of (by simp +decide [InlineFragment.toJson])
    have htypes : texts (InlineFragment.mk type types fs spreads).toJson "possibleTypes" =
        some types := texts_of (by simp +decide [InlineFragment.toJson])
    have hfields : array (InlineFragment.mk type types fs spreads).toJson "fields" =
        some (fieldsToJson fs) := array_of (by simp +decide [InlineFragment.toJson])
    have hspreads : texts (InlineFragment.mk type types fs spreads).toJson "fragmentSpreads" =
        some spreads := texts_of (by simp +decide [InlineFragment.toJson])
    rw [inlineFragment]
    split
    · rename_i fieldValues hf
      obtain rfl := Option.some.inj (hf.symm.trans hfields)
      rw [htype, htypes, fields_toJson fs h, hspreads]
      rfl
    · rename_i hno
      exact absurd (hno.symm.trans hfields) (by simp)

theorem fields_toJson : ∀ (fs : List Field), (∀ f ∈ fs, f.Legible) →
    fields (fieldsToJson fs) = some fs
  | [], _ => by rw [fieldsToJson, fields]
  | f :: fs, h => by
    rw [fieldsToJson, fields, field_toJson f (h f List.mem_cons_self),
      fields_toJson fs fun f' hf => h f' (List.mem_cons_of_mem _ hf)]
    rfl

theorem inlineFragments_toJson : ∀ (is : List InlineFragment),
    (∀ i ∈ is, ∀ f ∈ i.fields, f.Legible) → inlineFragments (inlineFragmentsToJson is) = some is
  | [], _ => by rw [inlineFragmentsToJson, inlineFragments]
  | i :: is, h => by
    rw [inlineFragmentsToJson, inlineFragments, inlineFragment_toJson i (h i List.mem_cons_self),
      inlineFragments_toJson is fun i' hi => h i' (List.mem_cons_of_mem _ hi)]
    rfl

end

/-! ### Operations and fragments -/

theorem variableDefinition_variableJson {v : Typed.Variable} (h : v.type.namedType.IsName) :
    variableDefinition (variableJson v) = some v := by
  have hname : text (variableJson v) "name" = some v.name :=
    text_of (by simp +decide [variableJson])
  have htype : text (variableJson v) "type" = some v.type.text :=
    text_of (by simp +decide [variableJson])
  rw [variableDefinition, hname, htype]
  show some (⟨v.name, .ofText v.type.text⟩ : Typed.Variable) = _
  rw [TypeRef.ofText_text h]

theorem operationType_text (o : OperationType) : operationType o.text = some o := by
  cases o <;> decide +kernel

end Decode

/-- All types in an operation can be read back. -/
structure Operation.Legible (o : Operation) : Prop where
  vars : ∀ v ∈ o.variableDefinitions, v.type.namedType.IsName
  body : o.body.Legible

namespace Decode

theorem operation_hasBody (o : Operation) : HasBody o.toJson o.body := by
  obtain ⟨_, _, _, _, _, _, ⟨fields, spreads, inline⟩, _, _, _⟩ := o
  constructor
  · simp +decide [Operation.toJson, Body.members, Body.fields, List.lookup_append]
  · simp +decide [Operation.toJson, Body.members, Body.spreads, List.lookup_append]
  · simp +decide [Operation.toJson, Body.members, Body.inlineFragments, List.lookup_append]

theorem fragment_hasBody (f : Fragment) : HasBody f.toJson f.body := by
  obtain ⟨_, _, _, _, _, ⟨fields, spreads, inline⟩⟩ := f
  constructor
  · simp +decide [Fragment.toJson, Body.members, Body.fields, List.lookup_append]
  · simp +decide [Fragment.toJson, Body.members, Body.spreads, List.lookup_append]
  · simp +decide [Fragment.toJson, Body.members, Body.inlineFragments, List.lookup_append]

/-- **An operation is read back.** -/
theorem operation_toJson {o : Operation} (h : o.Legible) : operation o.toJson = some o := by
  have hpath : text? o.toJson "filePath" = some o.filePath := text?_of (by
    simp +decide [Operation.toJson, List.lookup_append, lookup_bodyMembers])
  have hname : text o.toJson "operationName" = some o.name := text_of (by
    simp +decide [Operation.toJson, List.lookup_append, lookup_bodyMembers])
  have htype : text o.toJson "operationType" = some o.operation.text := text_of (by
    simp +decide [Operation.toJson, List.lookup_append, lookup_bodyMembers])
  have hroot : text o.toJson "rootType" = some o.rootType := text_of (by
    simp +decide [Operation.toJson, List.lookup_append, lookup_bodyMembers])
  have hvars : array o.toJson "variables" = some (o.variableDefinitions.map variableJson) := array_of (by
    simp +decide [Operation.toJson, List.lookup_append, lookup_bodyMembers])
  have hsource : text o.toJson "source" = some o.source := text_of (by
    simp +decide [Operation.toJson, List.lookup_append, lookup_bodyMembers])
  have hreferenced : texts o.toJson "fragmentsReferenced" = some o.fragmentsReferenced := texts_of (by
    simp +decide [Operation.toJson, List.lookup_append, lookup_bodyMembers])
  have htext : text o.toJson "sourceWithFragments" = some o.sourceWithFragments := text_of (by
    simp +decide [Operation.toJson, List.lookup_append, lookup_bodyMembers])
  have hid : text? o.toJson "operationId" = some o.operationId := text?_of (by
    simp +decide [Operation.toJson, List.lookup_append, lookup_bodyMembers])
  have hbody := body_of o.body h.body (operation_hasBody o)
  have hread : (o.variableDefinitions.map variableJson).mapM variableDefinition =
      some o.variableDefinitions :=
    Success.mapM_of_inverse fun v hv => variableDefinition_variableJson (h.vars v hv)
  rw [operation, hpath, hname, htype, hroot, hvars, hsource, hbody, hreferenced, htext, hid]
  simp only [Option.bind_eq_bind, Option.bind_some, operationType_text, hread]
  rfl

/-- **A fragment is read back.** -/
theorem fragment_toJson {f : Fragment} (h : f.body.Legible) : fragment f.toJson = some f := by
  have hpath : text? f.toJson "filePath" = some f.filePath := text?_of (by
    simp +decide [Fragment.toJson, List.lookup_append, lookup_bodyMembers])
  have hname : text f.toJson "fragmentName" = some f.name := text_of (by
    simp +decide [Fragment.toJson, List.lookup_append, lookup_bodyMembers])
  have hsource : text f.toJson "source" = some f.source := text_of (by
    simp +decide [Fragment.toJson, List.lookup_append, lookup_bodyMembers])
  have htype : text f.toJson "typeCondition" = some f.typeCondition := text_of (by
    simp +decide [Fragment.toJson, List.lookup_append, lookup_bodyMembers])
  have hpossible : texts f.toJson "possibleTypes" = some f.possibleTypes := texts_of (by
    simp +decide [Fragment.toJson, List.lookup_append, lookup_bodyMembers])
  have hbody := body_of f.body h (fragment_hasBody f)
  rw [fragment, hpath, hname, hsource, htype, hpossible, hbody]
  rfl

/-! ### Programs -/

/-- What a program is written as holds its operations and its fragments. -/
theorem program_toJson {p : Program} {j : Json} (h : p.toJson = .ok j)
    (ho : ∀ o ∈ p.operations.values, o.Legible) (hf : ∀ f ∈ p.fragments.values, f.body.Legible) :
    program j = some (p.operations.values, p.fragments.values) := by
  obtain ⟨types, -, h⟩ := Success.bind_eq_ok.mp h
  obtain rfl := Except.ok.inj h
  have ho' : array (.ofMembers [("operations", .array (p.operations.values.map Operation.toJson)),
      ("fragments", .array (p.fragments.values.map Fragment.toJson)), ("typesUsed", .array types)])
      "operations" = some (p.operations.values.map Operation.toJson) :=
    array_of (by simp +decide)
  have hf' : array (.ofMembers [("operations", .array (p.operations.values.map Operation.toJson)),
      ("fragments", .array (p.fragments.values.map Fragment.toJson)), ("typesUsed", .array types)])
      "fragments" = some (p.fragments.values.map Fragment.toJson) :=
    array_of (by simp +decide)
  rw [program, ho', hf']
  have hoperations : (p.operations.values.map Operation.toJson).mapM operation =
      some p.operations.values := Success.mapM_of_inverse fun o h => operation_toJson (ho o h)
  have hfragments : (p.fragments.values.map Fragment.toJson).mapM fragment =
      some p.fragments.values := Success.mapM_of_inverse fun f h => fragment_toJson (hf f h)
  simp only [Option.bind_eq_bind, Option.bind_some, hoperations, hfragments]
  rfl

end Decode

end Lowered

end QueryCompiler
