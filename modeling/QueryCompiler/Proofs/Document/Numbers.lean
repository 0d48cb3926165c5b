import QueryCompiler.Document.Typename
import QueryCompiler.Document.Value
import QueryCompiler.Proofs.Document.Reprint
import QueryCompiler.Proofs.Source.Splitting
import QueryCompiler.Proofs.Success

/-!
# Numbers in arguments

Arguments of fields become JSON values, and the numbers in them are converted. A text that is spelled
as a number has a value if 64 bits hold it as an integer, or if it is in the range of doubles
(`InRange`).

* `Value.toJson_eq_error`: a conversion fails with the first number that fails to be converted.
* `NumberLiteral.toJson_eq_error`: what is spelled as a number fails to be converted only if it is out
  of range.
* `isNumber_of_parse`: the numbers in the arguments of a document that is parsed are spelled as
  numbers.
* `argumentNumbers_addTypename`: putting type names in adds no number.
-/

namespace QueryCompiler.Document

/-! ### Literals -/

/-- A number as it is spelled. -/
structure NumberLiteral where
  /-- Whether there is a fraction or an exponent. -/
  isFloat : Bool
  /-- The spelling. -/
  text : Text

namespace NumberLiteral

/-- 64 bits hold the number as an integer, or it is in the range of doubles. -/
def InRange (n : NumberLiteral) : Prop :=
  (n.isFloat = false ∧ ∃ i ∈ Number.integer? n.text,
      -Number.signedLimit ≤ i ∧ i < Number.signedLimit) ∨
    ∃ d ∈ Number.Decimal.read? n.text, (Number.Binary64.read? d).isSome

instance (n : NumberLiteral) : Decidable n.InRange := by unfold InRange; infer_instance

/-- The JSON value of a number. -/
def toJson (n : NumberLiteral) : Except RangeError Json :=
  if n.isFloat then doubleOfLiteral n.text else numberOfLiteral n.text

theorem doubleOfLiteral_eq_error {literal : Text} {d : Number.Decimal}
    (h : Number.Decimal.read? literal = some d) {e : RangeError} :
    doubleOfLiteral literal = .error e ↔
      (Number.Binary64.read? d).isSome = false ∧ e = .outOfRange literal := by
  rw [doubleOfLiteral, h]
  cases hd : Number.Binary64.read? d with
  | none => simp [hd, eq_comm]
  | some x => simp [hd]

/-- **What is spelled as a number fails to be converted if it is out of range**, and only then. -/
theorem toJson_eq_error {n : NumberLiteral} (h : n.text.IsNumber n.isFloat) {e : RangeError} :
    n.toJson = .error e ↔ ¬ n.InRange ∧ e = .outOfRange n.text := by
  have hliteral := Number.isLiteral_of_isNumber h
  obtain ⟨i, hi⟩ := Option.isSome_iff_exists.mp hliteral.integer?_isSome
  obtain ⟨d, hd⟩ := Option.isSome_iff_exists.mp hliteral.read?_isSome
  rw [InRange, hi, hd, toJson]
  cases n.isFloat with
  | true =>
    rw [if_pos rfl, doubleOfLiteral_eq_error hd]
    simp
  | false =>
    rw [if_neg Bool.false_ne_true, numberOfLiteral, hi]
    simp only
    split_ifs with hrange
    · simp [hrange]
    · rw [doubleOfLiteral_eq_error hd]
      simp [hrange]

/-- No double is near the first number. The second is no integer of 64 bits, but it is a double. -/
example : ¬ (⟨true, "1e999"⟩ : NumberLiteral).InRange ∧
    (⟨false, "9223372036854775808"⟩ : NumberLiteral).InRange := by decide +kernel

end NumberLiteral

/-! ### Values -/

namespace Value

mutual

/-- The numbers in a value, in order. -/
def numbers : Value → List NumberLiteral
  | .int literal => [⟨false, literal⟩]
  | .float literal => [⟨true, literal⟩]
  | .list values => numbersOfAll values
  | .object fields => numbersOfFields fields
  | .variable _ | .string _ | .boolean _ | .null | .enum _ => []

/-- The numbers in values one after the other. -/
def numbersOfAll : List Value → List NumberLiteral
  | [] => []
  | value :: rest => value.numbers ++ numbersOfAll rest

/-- The numbers in the values of fields one after the other. -/
def numbersOfFields : List (Text × Value) → List NumberLiteral
  | [] => []
  | (_, value) :: rest => value.numbers ++ numbersOfFields rest

end

/-- What the first number that cannot be converted fails with. -/
def firstError (numbers : List NumberLiteral) : Option RangeError :=
  numbers.findSome? fun n => Success.error? n.toJson

theorem firstError_append (a b : List NumberLiteral) :
    firstError (a ++ b) = (firstError a).or (firstError b) :=
  List.findSome?_append

theorem firstError_singleton {n : NumberLiteral} {e : RangeError} :
    firstError [n] = some e ↔ n.toJson = .error e := by
  rw [firstError, List.findSome?_singleton, Success.error?_eq_some]

/-- What a computation in two steps fails with, if each fails with what is told of it. -/
theorem bind_eq_error {α β : Type} {x : Except RangeError α} {f : α → Except RangeError β}
    {a b : Option RangeError} (hx : ∀ e, x = .error e ↔ a = some e)
    (hf : ∀ r e, f r = .error e ↔ b = some e) (e : RangeError) :
    x >>= f = .error e ↔ a.or b = some e := by
  cases x with
  | error e' =>
    rw [(hx e').mp rfl, Option.some_or]
    exact ⟨fun h => congrArg some (Except.error.inj h), fun h => congrArg _ (Option.some.inj h)⟩
  | ok r =>
    have ha : a = none := by
      refine Option.eq_none_iff_forall_ne_some.mpr fun e' he => ?_
      cases (hx e').mpr he
    rw [ha, Option.none_or]
    exact hf r e

/-- A last step that cannot fail. -/
theorem bind_ok_eq_error {α β : Type} {x : Except RangeError α} {f : α → β} {e : RangeError} :
    (x >>= fun r => Except.ok (f r)) = .error e ↔ x = .error e := by
  cases x with
  | error e' =>
    exact ⟨fun h => congrArg _ (Except.error.inj h), fun h => congrArg _ (Except.error.inj h)⟩
  | ok r => exact ⟨fun h => (by cases h), fun h => (by cases h)⟩

mutual

/-- **A conversion fails with the first number that fails to be converted.** -/
theorem toJson_eq_error : ∀ (v : Value) (e : RangeError),
    v.toJson = .error e ↔ firstError v.numbers = some e
  | .variable _, _ | .string _, _ | .boolean _, _ | .null, _ | .enum _, _ =>
    ⟨fun h => (by cases h), fun h => (by cases h)⟩
  | .int literal, e => by
    rw [toJson, numbers]
    exact (firstError_singleton (n := ⟨false, literal⟩)).symm
  | .float literal, e => by
    rw [toJson, numbers]
    exact (firstError_singleton (n := ⟨true, literal⟩)).symm
  | .list values, e => by
    rw [toJson, numbers]
    exact bind_ok_eq_error.trans (toJsonList_eq_error values e)
  | .object fields, e => by
    rw [toJson, numbers]
    exact bind_ok_eq_error.trans (toJsonFields_eq_error fields e)

theorem toJsonList_eq_error : ∀ (values : List Value) (e : RangeError),
    toJsonList values = .error e ↔ firstError (numbersOfAll values) = some e
  | [], _ => ⟨fun h => (by cases h), fun h => (by cases h)⟩
  | value :: rest, e => by
    rw [toJsonList, numbersOfAll, firstError_append]
    exact bind_eq_error (toJson_eq_error value)
      (fun j e => bind_ok_eq_error.trans (toJsonList_eq_error rest e)) e

theorem toJsonFields_eq_error : ∀ (fields : List (Text × Value)) (e : RangeError),
    toJsonFields fields = .error e ↔ firstError (numbersOfFields fields) = some e
  | [], _ => ⟨fun h => (by cases h), fun h => (by cases h)⟩
  | (name, value) :: rest, e => by
    rw [toJsonFields, numbersOfFields, firstError_append]
    exact bind_eq_error (toJson_eq_error value)
      (fun j e => bind_ok_eq_error.trans (toJsonFields_eq_error rest e)) e

end

theorem exists_of_toJson_eq_error {v : Value} {e : RangeError} (h : v.toJson = .error e) :
    ∃ n ∈ v.numbers, n.toJson = .error e := by
  obtain ⟨n, hn, he⟩ := List.exists_of_findSome?_eq_some ((toJson_eq_error v e).mp h)
  exact ⟨n, hn, Success.error?_eq_some.mp he⟩

end Value

/-! ### Their tokens -/

/-- The token that spells a number. -/
def NumberLiteral.token (n : NumberLiteral) : Token :=
  if n.isFloat then .float n.text else .int n.text

theorem NumberLiteral.isSpelled_token {n : NumberLiteral} :
    n.token.IsSpelled ↔ n.text.IsNumber n.isFloat := by
  obtain ⟨isFloat, literal⟩ := n
  cases isFloat with
  | true => exact Iff.rfl
  | false => exact Iff.rfl

namespace Value

mutual

theorem token_mem_tokens : ∀ {v : Value} {n : NumberLiteral}, n ∈ v.numbers →
    n.token ∈ v.tokens id
  | .int literal, n, h => by
    obtain rfl := List.mem_singleton.mp h
    exact List.mem_singleton_self _
  | .float literal, n, h => by
    obtain rfl := List.mem_singleton.mp h
    exact List.mem_singleton_self _
  | .list values, n, h => by
    rw [tokens]
    exact List.mem_cons_of_mem _ (List.mem_append_left _ (token_mem_tokensOfAll h))
  | .object fields, n, h => by
    rw [tokens]
    exact List.mem_cons_of_mem _ (List.mem_append_left _ (token_mem_tokensOfFields h))
  | .variable _, _, h | .string _, _, h | .boolean _, _, h | .null, _, h | .enum _, _, h => by
    cases h

theorem token_mem_tokensOfAll : ∀ {values : List Value} {n : NumberLiteral},
    n ∈ numbersOfAll values → n.token ∈ tokensOfAll id values
  | [], _, h => by cases h
  | value :: rest, n, h => by
    rw [tokensOfAll, List.mem_append]
    exact (List.mem_append.mp h).imp token_mem_tokens token_mem_tokensOfAll

theorem token_mem_tokensOfFields : ∀ {fields : List (Text × Value)} {n : NumberLiteral},
    n ∈ numbersOfFields fields → n.token ∈ tokensOfFields id fields
  | [], _, h => by cases h
  | (name, value) :: rest, n, h => by
    rw [tokensOfFields, List.mem_append]
    refine (List.mem_append.mp h).imp (fun hv => ?_) token_mem_tokensOfFields
    exact List.mem_cons_of_mem _ (List.mem_cons_of_mem _ (token_mem_tokens hv))

end

end Value

/-! ### Documents -/

mutual

/-- The numbers in the arguments of the fields in a selection, at any depth. -/
def Selection.argumentNumbers : Selection → List NumberLiteral
  | .field head selections =>
    head.arguments.flatMap (fun a => a.value.numbers) ++ argumentNumbersOfAll selections
  | .spread _ => []
  | .inline _ selections => argumentNumbersOfAll selections

/-- Those in selections one after the other. -/
def argumentNumbersOfAll : List Selection → List NumberLiteral
  | [] => []
  | selection :: rest => selection.argumentNumbers ++ argumentNumbersOfAll rest

end

/-- The numbers in the arguments of all fields of a document. -/
def argumentNumbers (d : Document) : List NumberLiteral :=
  d.operations.flatMap (fun o => argumentNumbersOfAll o.selections) ++
    d.fragments.flatMap fun f => argumentNumbersOfAll f.selections

theorem mem_argumentNumbers {d : Document} {n : NumberLiteral} : n ∈ d.argumentNumbers ↔
    (∃ o ∈ d.operations, n ∈ argumentNumbersOfAll o.selections) ∨
      ∃ f ∈ d.fragments, n ∈ argumentNumbersOfAll f.selections := by
  rw [argumentNumbers, List.mem_append, List.mem_flatMap, List.mem_flatMap]

/-! ### Their tokens -/

theorem Field.token_mem_tokens {f : Field} {n : NumberLiteral}
    (h : n ∈ f.arguments.flatMap fun a => a.value.numbers) : n.token ∈ f.tokens id := by
  obtain ⟨a, ha, hn⟩ := List.mem_flatMap.mp h
  refine List.mem_append_right _ (List.mem_cons_of_mem _ (List.mem_append_left _ ?_))
  refine mem_parenthesised ha ?_
  exact List.mem_cons_of_mem _ (List.mem_cons_of_mem _ (Value.token_mem_tokens hn))

mutual

theorem Selection.token_mem_tokens : ∀ {s : Selection} {n : NumberLiteral},
    n ∈ s.argumentNumbers → n.token ∈ s.tokens id
  | .field head selections, n, h => by
    rw [Selection.tokens, List.mem_append]
    exact (List.mem_append.mp h).imp Field.token_mem_tokens token_mem_setTokens
  | .spread _, _, h => by cases h
  | .inline head selections, n, h => by
    rw [Selection.tokens]
    exact List.mem_append_right _ (token_mem_setTokens h)

theorem token_mem_setTokens : ∀ {selections : List Selection} {n : NumberLiteral},
    n ∈ argumentNumbersOfAll selections → n.token ∈ Selection.setTokens id selections
  | [], _, h => by cases h
  | selection :: rest, n, h => by
    rw [Selection.setTokens]
    refine List.mem_cons_of_mem _ (List.mem_append_left _ (List.mem_append.mpr ?_))
    exact (List.mem_append.mp h).imp Selection.token_mem_tokens token_mem_tokensOfAll

theorem token_mem_tokensOfAll : ∀ {selections : List Selection} {n : NumberLiteral},
    n ∈ argumentNumbersOfAll selections → n.token ∈ Selection.tokensOfAll id selections
  | [], _, h => by cases h
  | selection :: rest, n, h => by
    rw [Selection.tokensOfAll, List.mem_append]
    exact (List.mem_append.mp h).imp Selection.token_mem_tokens token_mem_tokensOfAll

end

/-- **The numbers in the arguments of a document that is parsed are spelled as numbers.** -/
theorem isNumber_of_parse {source : Text} {filePath : Option Text} {limit : Nat} {d : Document}
    (h : parse source filePath limit = .ok d) {n : NumberLiteral} (hn : n ∈ d.argumentNumbers) :
    n.text.IsNumber n.isFloat := by
  rw [← NumberLiteral.isSpelled_token]
  obtain ⟨hoperations, hfragments⟩ := setTokens_of_parse h
  obtain ⟨o, ho, hn⟩ | ⟨f, hf, hn⟩ := mem_argumentNumbers.mp hn
  · exact hoperations o ho _ (token_mem_setTokens hn)
  · exact hfragments f hf _ (token_mem_setTokens hn)

/-! ### Type names -/

mutual

theorem Selection.argumentNumbers_addTypename : ∀ s : Selection,
    s.addTypename.argumentNumbers ⊆ s.argumentNumbers
  | .field head [] => List.Subset.refl _
  | .field head (s :: rest) => by
    rw [Selection.addTypename, Selection.argumentNumbers, Selection.argumentNumbers,
      argumentNumbersOfAll, typenameField, Selection.argumentNumbers, argumentNumbersOfAll]
    exact append_subset_append (List.Subset.refl _) (argumentNumbersOfAll_addTypename (s :: rest))
  | .spread head => List.Subset.refl _
  | .inline head selections => by
    rw [Selection.addTypename, Selection.argumentNumbers, Selection.argumentNumbers]
    exact argumentNumbersOfAll_addTypename selections

theorem argumentNumbersOfAll_addTypename : ∀ selections : List Selection,
    argumentNumbersOfAll (addTypenameToAll selections) ⊆ argumentNumbersOfAll selections
  | [] => List.Subset.refl _
  | s :: rest => by
    rw [addTypenameToAll]
    split_ifs
    · rw [argumentNumbersOfAll]
      exact List.Subset.trans (argumentNumbersOfAll_addTypename rest) (List.subset_append_right _ _)
    · rw [argumentNumbersOfAll, argumentNumbersOfAll]
      exact append_subset_append s.argumentNumbers_addTypename (argumentNumbersOfAll_addTypename rest)

end

/-- **Putting type names in adds no number.** -/
theorem argumentNumbers_addTypename (d : Document) :
    d.addTypename.argumentNumbers ⊆ d.argumentNumbers := by
  intro n hn
  rcases mem_argumentNumbers.mp hn with ⟨o, ho, hn⟩ | ⟨f, hf, hn⟩
  · obtain ⟨o', ho', rfl⟩ := List.mem_map.mp ho
    exact mem_argumentNumbers.mpr (Or.inl ⟨o', ho', argumentNumbersOfAll_addTypename _ hn⟩)
  · obtain ⟨f', hf', rfl⟩ := List.mem_map.mp hf
    refine mem_argumentNumbers.mpr (Or.inr ⟨f', hf', argumentNumbersOfAll_addTypename _ ?_⟩)
    rwa [argumentNumbersOfAll, typenameField, Selection.argumentNumbers, argumentNumbersOfAll] at hn

end QueryCompiler.Document
