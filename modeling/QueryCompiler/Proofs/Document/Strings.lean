import QueryCompiler.Proofs.Document.Reprint
import QueryCompiler.Proofs.Source.Literals
import QueryCompiler.Proofs.Source.Values
import QueryCompiler.Proofs.Success

/-!
# String values of a document

The string values of a document are collected from its arguments and from the defaults of its
variables (`strings`). In a document that is parsed each is the value of a string of the source
(`exists_lexes_of_parse`), so if the source is well-formed it is well-formed unless a surrogate that
stands alone is escaped in it. A well-formed value is quoted as it is and read back.
-/

namespace QueryCompiler.Document

namespace Value

mutual

/-- The string values in a value, in order. -/
def strings : Value → List Text
  | .string t => [t]
  | .list values => stringsOfAll values
  | .object fields => stringsOfFields fields
  | .variable _ | .int _ | .float _ | .boolean _ | .null | .enum _ => []

/-- Those in values one after the other. -/
def stringsOfAll : List Value → List Text
  | [] => []
  | value :: rest => value.strings ++ stringsOfAll rest

/-- Those in the values of fields one after the other. -/
def stringsOfFields : List (Text × Value) → List Text
  | [] => []
  | (_, value) :: rest => value.strings ++ stringsOfFields rest

end

end Value

/-- The string values in arguments, one argument after the other. -/
def argumentStrings (arguments : List Argument) : List Text :=
  arguments.flatMap fun a => a.value.strings

/-- The string values in the arguments of directives. -/
def directiveStrings (directives : List Directive) : List Text :=
  directives.flatMap fun d => argumentStrings d.arguments

mutual

/-- The string values in the arguments and directives of a selection, at any depth. -/
def Selection.strings : Selection → List Text
  | .field head selections =>
    argumentStrings head.arguments ++ directiveStrings head.directives ++ selectionStrings selections
  | .spread head => directiveStrings head.directives
  | .inline head selections => directiveStrings head.directives ++ selectionStrings selections

/-- Those in selections one after the other. -/
def selectionStrings : List Selection → List Text
  | [] => []
  | selection :: rest => selection.strings ++ selectionStrings rest

end

/-- The string values in a definition. -/
def Definition.strings : Definition → List Text
  | .operation o =>
    (o.variableDefinitions.flatMap fun v => v.defaultValue.elim [] Value.strings) ++
      directiveStrings o.directives ++ selectionStrings o.selections
  | .fragment f => directiveStrings f.directives ++ selectionStrings f.selections

/-- The string values of a document. -/
def strings (d : Document) : List Text :=
  d.operations.flatMap (fun o => (Definition.operation o).strings) ++
    d.fragments.flatMap fun f => (Definition.fragment f).strings

/-! ### Their tokens -/

namespace Value

mutual

theorem string_mem_tokens {t : Text} : ∀ {v : Value}, t ∈ v.strings → .string t ∈ v.tokens id
  | .string _, h => by
    obtain rfl := List.mem_singleton.mp h
    exact List.mem_singleton_self _
  | .list values, h => by
    rw [tokens]
    exact List.mem_cons_of_mem _ (List.mem_append_left _ (string_mem_tokensOfAll h))
  | .object fields, h => by
    rw [tokens]
    exact List.mem_cons_of_mem _ (List.mem_append_left _ (string_mem_tokensOfFields h))
  | .variable _, h | .int _, h | .float _, h | .boolean _, h | .null, h | .enum _, h => by cases h

theorem string_mem_tokensOfAll {t : Text} : ∀ {values : List Value}, t ∈ stringsOfAll values →
    .string t ∈ tokensOfAll id values
  | [], h => by cases h
  | value :: rest, h => by
    rw [tokensOfAll, List.mem_append]
    exact (List.mem_append.mp h).imp string_mem_tokens string_mem_tokensOfAll

theorem string_mem_tokensOfFields {t : Text} : ∀ {fields : List (Text × Value)},
    t ∈ stringsOfFields fields → .string t ∈ tokensOfFields id fields
  | [], h => by cases h
  | (name, value) :: rest, h => by
    rw [tokensOfFields, List.mem_append]
    refine (List.mem_append.mp h).imp (fun hv => ?_) string_mem_tokensOfFields
    exact List.mem_cons_of_mem _ (List.mem_cons_of_mem _ (string_mem_tokens hv))

end

end Value

section
variable {t : Text}

theorem string_mem_argumentsTokens {arguments : List Argument} (h : t ∈ argumentStrings arguments) :
    .string t ∈ argumentsTokens id arguments := by
  obtain ⟨a, ha, ht⟩ := List.mem_flatMap.mp h
  refine mem_parenthesised ha ?_
  exact List.mem_cons_of_mem _ (List.mem_cons_of_mem _ (Value.string_mem_tokens ht))

theorem string_mem_directivesTokens {directives : List Directive}
    (h : t ∈ directiveStrings directives) : .string t ∈ directivesTokens id directives := by
  obtain ⟨d, hd, ht⟩ := List.mem_flatMap.mp h
  refine List.mem_flatten.mpr ⟨_, List.mem_map_of_mem hd, ?_⟩
  exact List.mem_cons_of_mem _ (List.mem_cons_of_mem _ (string_mem_argumentsTokens ht))

mutual

theorem Selection.string_mem_tokens : ∀ {s : Selection}, t ∈ s.strings → .string t ∈ s.tokens id
  | .field head selections, h => by
    rw [Selection.strings, List.mem_append, List.mem_append] at h
    rw [Selection.tokens, Field.tokens]
    obtain (h | h) | h := h
    · have := string_mem_argumentsTokens h
      simp [this]
    · have := string_mem_directivesTokens h
      simp [this]
    · exact List.mem_append_right _ (string_mem_setTokens h)
  | .spread head, h => by
    rw [Selection.tokens]
    exact List.mem_cons_of_mem _ (List.mem_cons_of_mem _ (string_mem_directivesTokens h))
  | .inline head selections, h => by
    rw [Selection.strings, List.mem_append] at h
    rw [Selection.tokens]
    refine List.mem_append.mpr (h.imp (fun h => ?_) string_mem_setTokens)
    exact List.mem_cons_of_mem _ (List.mem_append_right _ (string_mem_directivesTokens h))

theorem string_mem_setTokens : ∀ {selections : List Selection}, t ∈ selectionStrings selections →
    .string t ∈ Selection.setTokens id selections
  | [], h => by cases h
  | selection :: rest, h => by
    rw [Selection.setTokens]
    refine List.mem_cons_of_mem _ (List.mem_append_left _ (List.mem_append.mpr ?_))
    exact (List.mem_append.mp h).imp Selection.string_mem_tokens string_mem_tokensOfAll

theorem string_mem_tokensOfAll : ∀ {selections : List Selection},
    t ∈ selectionStrings selections → .string t ∈ Selection.tokensOfAll id selections
  | [], h => by cases h
  | selection :: rest, h => by
    rw [Selection.tokensOfAll, List.mem_append]
    exact (List.mem_append.mp h).imp Selection.string_mem_tokens string_mem_tokensOfAll

end

theorem Variable.string_mem_tokens {v : Variable} (h : t ∈ v.defaultValue.elim [] Value.strings) :
    .string t ∈ v.tokens id := by
  rw [Variable.tokens]
  cases hv : v.defaultValue with
  | none =>
    rw [hv] at h
    cases h
  | some value =>
    rw [hv] at h
    have := Value.string_mem_tokens h
    simp [this]

theorem Operation.string_mem_longTokens {o : Operation}
    (h : t ∈ (Definition.operation o).strings) :
    .string t ∈ o.longTokens id (o.variableDefinitions.map (Variable.tokens id)).flatten := by
  rw [Definition.strings, List.mem_append, List.mem_append] at h
  rw [Operation.longTokens]
  obtain (h | h) | h := h
  · obtain ⟨v, hv, ht⟩ := List.mem_flatMap.mp h
    have hvars := mem_parenthesised hv (Variable.string_mem_tokens ht)
    simp [hvars]
  · have := string_mem_directivesTokens h
    simp [this]
  · have := string_mem_setTokens h
    simp [this]

/-- **The string values of a definition are among its tokens.** -/
theorem Definition.string_mem_tokens {x : Definition} (h : t ∈ x.strings) :
    .string t ∈ x.tokens id := by
  cases x with
  | fragment f =>
    rw [Definition.strings, List.mem_append] at h
    rw [Definition.tokens, Fragment.tokens]
    have := h.imp string_mem_directivesTokens string_mem_setTokens
    simp [this]
  | operation o =>
    rw [Definition.tokens, Operation.tokens]
    split_ifs with hshort
    · obtain ⟨-, -, hvars, hdirectives⟩ := hshort
      rw [Definition.strings, hvars, hdirectives] at h
      exact string_mem_setTokens h
    · exact Operation.string_mem_longTokens h

end

/-! ### Sources -/

section
variable {source : Text} {filePath : Option Text} {limit : Nat} {d : Document}

/-- **Every string value of a document that is parsed is the value of a string of its source.** -/
theorem exists_lexes_of_parse (h : parse source filePath limit = .ok d) {t : Text}
    (ht : t ∈ d.strings) :
    ∃ left rest, Scan.Remains source left ∧ Scan.Lexes left (.string t) rest := by
  obtain ⟨x, hx, hmem⟩ : ∃ x, d.Defines x ∧ t ∈ x.strings := by
    rw [strings, List.mem_append, List.mem_flatMap, List.mem_flatMap] at ht
    obtain ⟨o, ho, ht⟩ | ⟨f, hf, ht⟩ := ht
    · exact ⟨.operation o, ho, ht⟩
    · exact ⟨.fragment f, hf, ht⟩
  have hsplits := Scan.splits_of_isComplete (spelledBy_of_parse h).1
  exact Scan.exists_lexes hsplits .all
    (tokens_subset_of_parse h hx (Definition.string_mem_tokens hmem))

/-- The text is quoted with no replacement, and what is quoted is read as the text. -/
def IsQuotedExactly (t : Text) : Prop :=
  t.quoted = Octet.quote :: (t.flatMap Text.escapeOctet ++ [Octet.quote]) ∧
    ∀ rest : Text, rest.head? ≠ some Octet.quote → Scan.IsRead (t.quoted ++ rest) (.string t) rest

theorem isQuotedExactly_of_isEncoded {t : Text} (h : Utf8.IsEncoded t) : IsQuotedExactly t := by
  have hsame : Utf8.sanitise t = t :=
    Utf8.sanitise_of_wellFormed (Utf8.wellFormed_iff_isEncoded.mpr h)
  refine ⟨by rw [Text.quoted, hsame], fun rest hrest => ?_⟩
  have hread := Scan.isRead_quoted t hrest
  rwa [hsame] at hread

/-- **Well-formed text in, well-formed text out**, but for surrogates that stand alone. Every string
value of a document that is parsed from well-formed text is the value of a string of the source, and
it is well-formed exactly if no surrogate that stands alone is escaped there; then it is quoted with
no replacement and read back. -/
theorem isEncoded_strings (hsource : Utf8.IsEncoded source)
    (h : parse source filePath limit = .ok d) : ∀ t ∈ d.strings,
      (∃ left rest, Scan.Remains source left ∧ Scan.Lexes left (.string t) rest ∧
        (Utf8.IsEncoded t ↔ ¬ Scan.HasLoneSurrogate left)) ∧
      (Utf8.IsEncoded t → IsQuotedExactly t) := by
  intro t ht
  obtain ⟨left, rest, hremains, hlexes⟩ := exists_lexes_of_parse h ht
  have hleft := hremains.wellFormed (Utf8.wellFormed_iff_isEncoded.mpr hsource)
  refine ⟨⟨left, rest, hremains, hlexes, ?_⟩, isQuotedExactly_of_isEncoded⟩
  rw [← Utf8.wellFormed_iff_isEncoded]
  exact hlexes.wellFormed_iff hleft

end

/-- A string of a raw character and a pair of surrogates, and one in a block. -/
def pairSource : Text :=
  Text.ofString "\x7ba(x:\"\u00E9\\uD83D\\uDE00\",y:[\"\"\"\n \u00E9\n\"\"\"])\x7d"

theorem isEncoded_strings_pair : ∃ d, Utf8.IsEncoded pairSource ∧
    parse pairSource none 8 = .ok d ∧ d.strings = (["é😀", "é"] : List Text) ∧
      ∀ t ∈ d.strings, Utf8.IsEncoded t ∧ IsQuotedExactly t := by
  have hsource : Utf8.IsEncoded pairSource := Utf8.wellFormed_iff_isEncoded.mp (by decide +kernel)
  have hstrings : (parse pairSource none 8).toOption.map strings =
      some (["é😀", "é"] : List Text) := by decide +kernel
  obtain ⟨d, hd, hvalues⟩ := Option.map_eq_some_iff.mp hstrings
  have h := Success.toOption_eq_some.mp hd
  refine ⟨d, hsource, h, hvalues, fun t ht => ?_⟩
  have hwell : ∀ t ∈ (["é😀", "é"] : List Text), Utf8.wellFormed t = true := by decide +kernel
  have ht' := Utf8.wellFormed_iff_isEncoded.mp (hwell t (hvalues ▸ ht))
  exact ⟨ht', (isEncoded_strings hsource h t ht).2 ht'⟩

/-- A string with an escaped surrogate that stands alone. -/
def loneSource : Text := "query Q \x7b a(x: \"\\uD800\") \x7d"

/-- Such a string is accepted in well-formed text, and its value is no well-formed text. -/
theorem isEncoded_strings_lone : ∃ d t, Utf8.IsEncoded loneSource ∧
    parse loneSource none 512 = .ok d ∧ t ∈ d.strings ∧ ¬ Utf8.IsEncoded t ∧
      t.quoted = "\"\uFFFD\uFFFD\uFFFD\"" := by
  have hsource : Utf8.IsEncoded loneSource := Utf8.wellFormed_iff_isEncoded.mp (by decide +kernel)
  have hstrings : (parse loneSource none 512).toOption.map strings = some [[0xED, 0xA0, 0x80]] := by
    decide +kernel
  obtain ⟨d, hd, hvalues⟩ := Option.map_eq_some_iff.mp hstrings
  refine ⟨d, [0xED, 0xA0, 0x80], hsource, Success.toOption_eq_some.mp hd, ?_, ?_, ?_⟩
  · rw [hvalues]
    exact List.mem_singleton_self _
  · rw [← Utf8.wellFormed_iff_isEncoded]
    decide +kernel
  · decide +kernel

end QueryCompiler.Document
