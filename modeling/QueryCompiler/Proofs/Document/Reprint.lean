import QueryCompiler.Proofs.Document.Printed
import QueryCompiler.Proofs.Document.Readable

/-!
# A printed document is parsed as the document

The tokens of a printed document spell the document it was printed from, and are among the tokens of
the source where that document was parsed (`Definition.tokens_subset`). Neither places nor the octets
that strings are sanitised of change a text (`text_plain`). So what is parsed can be printed and
parsed again, and prints to the same text (`parse_text`).
-/

namespace QueryCompiler

namespace Document

/-! ### The tokens that are printed -/

/-- The parts of the definition fit. -/
def Definition.Fits (limit : Nat) : Definition → Prop
  | .operation o => o.Fits limit
  | .fragment f => f.Fits limit

theorem append_subset_append {α : Type} {a b a' b' : List α} (h : a ⊆ a') (h' : b ⊆ b') :
    a ++ b ⊆ a' ++ b' :=
  List.append_subset.mpr ⟨List.subset_append_of_subset_left _ h,
    List.subset_append_of_subset_right _ h'⟩

theorem parenthesised_subset {tokens tokens' : List Token} (h : tokens ⊆ tokens') :
    parenthesised tokens ⊆ parenthesised tokens' := by
  cases tokens with
  | nil => exact List.nil_subset _
  | cons t rest =>
    cases tokens' with
    | nil => exact absurd (List.subset_nil.mp h) (List.cons_ne_nil _ _)
    | cons t' rest' => exact List.cons_subset_cons _ (append_subset_append h (List.Subset.refl _))

section
variable {string : Text → Text} {limit : Nat}

theorem flatten_map_subset {α : Type} {spell : α → List Token} {as : List α}
    {parts : List (List Token)} (h : List.Forall₂ (fun a tokens => spell a ⊆ tokens) as parts) :
    (as.map spell).flatten ⊆ parts.flatten := by
  induction h with
  | nil => exact List.nil_subset _
  | cons ha _ ih =>
    rw [List.map_cons, List.flatten_cons, List.flatten_cons]
    exact append_subset_append ha ih

theorem Variable.tokens_subset {v : Variable} {tokens : List Token}
    (h : v.SpelledBy string limit tokens) : v.tokens string ⊆ tokens := by
  obtain ⟨-, ds, -, rfl⟩ := h
  exact List.subset_append_left _ _

/-- **A definition is spelled by the tokens it is printed with.** -/
theorem Definition.spelledBy_tokens {d : Definition} (h : d.Fits limit) :
    d.SpelledBy string limit (d.tokens string) := by
  cases d with
  | fragment f => exact ⟨h, rfl⟩
  | operation o =>
    refine ⟨h, ?_⟩
    rw [Definition.tokens, Operation.tokens]
    split_ifs with hshort
    · exact Or.inl ⟨hshort, rfl⟩
    · refine Or.inr ⟨_, ?_, rfl⟩
      rw [List.forall₂_map_right_iff, List.forall₂_same]
      refine fun v hv => ⟨h.variableDefinitions v hv, [], List.forall_mem_nil _, ?_⟩
      rw [directivesTokens, List.map_nil, List.flatten_nil, List.append_nil]

/-- Other tokens that spell the definition have the same parts, and the directives of variables. -/
theorem Definition.tokens_subset {d : Definition} {tokens : List Token}
    (h : d.SpelledBy string limit tokens) : d.Fits limit ∧ d.tokens string ⊆ tokens := by
  cases d with
  | fragment f =>
    obtain ⟨hfits, rfl⟩ := h
    exact ⟨hfits, List.Subset.refl _⟩
  | operation o =>
    obtain ⟨hfits, h⟩ := h
    refine ⟨hfits, ?_⟩
    rw [Definition.tokens, Operation.tokens]
    rcases h with ⟨hshort, rfl⟩ | ⟨parts, hparts, rfl⟩
    · rw [if_pos hshort]
      exact List.Subset.refl _
    · have hset : Selection.setTokens string o.selections ⊆ o.longTokens string parts.flatten := by
        rw [Operation.longTokens, ← List.append_assoc, ← List.append_assoc, ← List.cons_append]
        exact List.subset_append_right _ _
      have hvars := parenthesised_subset (flatten_map_subset
        (hparts.imp fun _ _ hv => Variable.tokens_subset hv))
      split_ifs with hshort
      · exact hset
      · exact List.cons_subset_cons _ (append_subset_append (List.Subset.refl _)
          (append_subset_append hvars (List.Subset.refl _)))

end

/-! ### Texts without places -/

section
variable {string : Text → Text}

mutual

theorem Value.text_mapStrings (hstring : ∀ t, (string t).quoted = t.quoted) :
    ∀ v : Value, (v.mapStrings string).text = v.text
  | .string t => hstring t
  | .list values => by rw [mapStrings, text, text, texts_mapStrings hstring values]
  | .object fields => by rw [mapStrings, text, text, fieldTexts_mapStrings hstring fields]
  | .variable _ | .int _ | .float _ | .boolean _ | .null | .enum _ => rfl

theorem Value.texts_mapStrings (hstring : ∀ t, (string t).quoted = t.quoted) :
    ∀ values : List Value, texts (mapStringsOfAll string values) = texts values
  | [] => rfl
  | value :: rest => by
    rw [mapStringsOfAll, texts, texts, text_mapStrings hstring value,
      texts_mapStrings hstring rest]

theorem Value.fieldTexts_mapStrings (hstring : ∀ t, (string t).quoted = t.quoted) :
    ∀ fields : List (Text × Value),
      fieldTexts (mapStringsOfFields string fields) = fieldTexts fields
  | [] => rfl
  | (name, value) :: rest => by
    rw [mapStringsOfFields, fieldTexts, fieldTexts, text_mapStrings hstring value,
      fieldTexts_mapStrings hstring rest]

end

variable (hstring : ∀ t, (string t).quoted = t.quoted)
include hstring

theorem argumentsText_plain (as : List Argument) :
    argumentsText (as.map (Argument.plain string)) = argumentsText as := by
  rw [argumentsText, argumentsText, List.map_map]
  congr 2
  refine List.map_congr_left fun a _ => ?_
  rw [Function.comp, Argument.text, Argument.text, Argument.plain, Value.text_mapStrings hstring]

theorem directivesText_plain (ds : List Directive) :
    directivesText (ds.map (Directive.plain string)) = directivesText ds := by
  rw [directivesText, directivesText, List.map_map]
  congr 1
  refine List.map_congr_left fun d _ => ?_
  rw [Function.comp, Directive.text, Directive.text, Directive.plain, argumentsText_plain hstring]

theorem Field.parts_plain (f : Field) : (f.plain string).parts = f.parts := by
  rw [Field.parts, Field.parts, Field.plain, argumentsText_plain hstring,
    directivesText_plain hstring]

theorem Spread.text_plain (s : Spread) : (s.plain string).text = s.text := by
  rw [Spread.text, Spread.text, Spread.plain, directivesText_plain hstring]

theorem InlineFragment.parts_plain (i : InlineFragment) : (i.plain string).parts = i.parts := by
  rw [InlineFragment.parts, InlineFragment.parts, InlineFragment.plain, directivesText_plain hstring]

omit hstring in
mutual

theorem Selection.text_plain (hstring : ∀ t, (string t).quoted = t.quoted) :
    ∀ s : Selection, (s.plain string).text = s.text
  | .field head ss => by
    rw [Selection.plain, Selection.text, Selection.text, Field.parts_plain hstring,
      selectionTexts_plain hstring ss]
  | .spread head => Spread.text_plain hstring head
  | .inline head ss => by
    rw [Selection.plain, Selection.text, Selection.text, InlineFragment.parts_plain hstring,
      selectionTexts_plain hstring ss]

theorem selectionTexts_plain (hstring : ∀ t, (string t).quoted = t.quoted) :
    ∀ ss : List Selection, selectionTexts (Selection.plainOfAll string ss) = selectionTexts ss
  | [] => rfl
  | s :: rest => by
    rw [Selection.plainOfAll, selectionTexts, selectionTexts, Selection.text_plain hstring s,
      selectionTexts_plain hstring rest]

end

theorem selectionSetText_plain (ss : List Selection) :
    selectionSetText (ss.map (Selection.plain string)) = selectionSetText ss := by
  rw [← Selection.plainOfAll_eq, selectionSetText, selectionSetText, selectionTexts_plain hstring]

theorem variablesText_plain (vs : List Variable) :
    variablesText (vs.map (Variable.plain string)) = variablesText vs := by
  rw [variablesText, variablesText, List.map_map]
  congr 2
  refine List.map_congr_left fun v _ => ?_
  rw [Function.comp, Variable.text, Variable.text, Variable.plain]
  cases v.defaultValue with
  | none => rfl
  | some value => simp only [Option.map_some, Value.text_mapStrings hstring]

theorem Operation.text_plain (o : Operation) : (o.plain string).text = o.text := by
  rw [Operation.text, Operation.text, Operation.plain, variablesText_plain hstring,
    directivesText_plain hstring, selectionSetText_plain hstring]

theorem Fragment.text_plain (f : Fragment) : (f.plain string).text = f.text := by
  rw [Fragment.text, Fragment.text, Fragment.plain, directivesText_plain hstring,
    selectionSetText_plain hstring]

/-- **Without places the text is the same**, and with strings that are quoted in the same way. -/
theorem text_plain (d : Document) : (d.plain string).text = d.text := by
  have ho : Operation.text ∘ Operation.plain string = Operation.text :=
    funext (Operation.text_plain hstring)
  have hf : Fragment.text ∘ Fragment.plain string = Fragment.text :=
    funext (Fragment.text_plain hstring)
  rw [text, text, definitionTexts, definitionTexts, plain, List.map_map, List.map_map, ho, hf]

end

/-! ### The round trip -/

/-- What is parsed consists of definitions that can be written with tokens of the source. -/
theorem tokens_of_parse {source : Text} {filePath : Option Text} {limit : Nat} {d : Document}
    (h : parse source filePath limit = .ok d) : ∃ definitions, d = ofDefinitions definitions ∧
      definitions ≠ [] ∧
      ∀ x ∈ definitions, x.Fits limit ∧ x.tokens id ⊆ (Scan.scan source).tokens := by
  obtain ⟨-, definitions, parts, rfl, hne, hparts, htokens⟩ := spelledBy_of_parse h
  have hfits := Reader.forall_of_forall₂ hparts fun _ _ hd => (Definition.tokens_subset hd).1
  refine ⟨definitions, rfl, hne, fun x hx => ⟨hfits x hx, fun t ht => ?_⟩⟩
  have hprinted : t ∈ (definitions.map (Definition.tokens id)).flatten :=
    List.mem_flatten.mpr ⟨_, List.mem_map_of_mem hx, ht⟩
  have hsource := flatten_map_subset
    (hparts.imp fun _ _ hd => (Definition.tokens_subset hd).2) hprinted
  rwa [← htokens] at hsource

/-- The names and numbers of these definitions are spelled as such. -/
theorem definitions_of_parse {source : Text} {filePath : Option Text} {limit : Nat} {d : Document}
    (h : parse source filePath limit = .ok d) : ∃ definitions, d = ofDefinitions definitions ∧
      definitions ≠ [] ∧ ∀ x ∈ definitions, x.Fits limit ∧ AreSpelled (x.tokens id) := by
  obtain ⟨definitions, rfl, hne, hall⟩ := tokens_of_parse h
  exact ⟨definitions, rfl, hne, fun x hx =>
    ⟨(hall x hx).1, fun t ht => Scan.isSpelled_of_mem ((hall x hx).2 ht)⟩⟩

/-- The document has the definition. -/
def Defines (d : Document) : Definition → Prop
  | .operation o => o ∈ d.operations
  | .fragment f => f ∈ d.fragments

theorem mem_of_defines {definitions : List Definition} {x : Definition}
    (h : (ofDefinitions definitions).Defines x) : x ∈ definitions := by
  cases x with
  | operation o =>
    obtain ⟨d, hd, he⟩ := List.mem_filterMap.mp h
    cases d with
    | operation o' =>
      obtain rfl := Option.some.inj he
      exact hd
    | fragment f => cases he
  | fragment f =>
    obtain ⟨d, hd, he⟩ := List.mem_filterMap.mp h
    cases d with
    | operation o => cases he
    | fragment f' =>
      obtain rfl := Option.some.inj he
      exact hd

/-- The definitions of a document that is parsed fit, and their names and numbers are spelled as such. -/
theorem spelled_of_parse {source : Text} {filePath : Option Text} {limit : Nat} {d : Document}
    (h : parse source filePath limit = .ok d) {x : Definition} (hx : d.Defines x) :
    x.Fits limit ∧ AreSpelled (x.tokens id) := by
  obtain ⟨definitions, rfl, -, hall⟩ := definitions_of_parse h
  exact hall x (mem_of_defines hx)

theorem setTokens_of_parse {source : Text} {filePath : Option Text} {limit : Nat} {d : Document}
    (h : parse source filePath limit = .ok d) :
    (∀ o ∈ d.operations, AreSpelled (Selection.setTokens id o.selections)) ∧
      ∀ f ∈ d.fragments, AreSpelled (Selection.setTokens id f.selections) := by
  constructor
  · intro o ho t ht
    exact (spelled_of_parse h (x := .operation o) ho).2 t (Operation.setTokens_subset o ht)
  · intro f hf t ht
    exact (spelled_of_parse h (x := .fragment f) hf).2 t (Fragment.setTokens_subset f ht)

/-- The tokens that a definition is printed with are tokens of the source. -/
theorem tokens_subset_of_parse {source : Text} {filePath : Option Text} {limit : Nat}
    {d : Document} (h : parse source filePath limit = .ok d) {x : Definition} (hx : d.Defines x) :
    x.tokens id ⊆ (Scan.scan source).tokens := by
  obtain ⟨definitions, rfl, -, hall⟩ := tokens_of_parse h
  exact (hall x (mem_of_defines hx)).2

/-- Definitions that can be written are spelled by the tokens that they are printed with. -/
theorem spelledBy_tokens (string : Text → Text) {definitions : List Definition} {limit : Nat}
    (h : ∀ x ∈ definitions, x.Fits limit) : List.Forall₂ (Definition.SpelledBy string limit)
      definitions (definitions.map (Definition.tokens string)) := by
  rw [List.forall₂_map_right_iff, List.forall₂_same]
  exact fun x hx => Definition.spelledBy_tokens (h x hx)

/-- **The text of definitions that can be written is parsed as these definitions.** -/
theorem parse_text_of_fits {definitions : List Definition} {limit : Nat} (hne : definitions ≠ [])
    (h : ∀ x ∈ definitions, x.Fits limit ∧ AreSpelled (x.tokens id)) (filePath : Option Text) :
    ∃ d, parse (ofDefinitions definitions).text filePath limit = .ok d ∧
      d.plain id = (ofDefinitions definitions).plain Utf8.sanitise := by
  have hspelled : AreSpelled (definitions.map (Definition.tokens id)).flatten := by
    intro t ht
    obtain ⟨tokens, htokens, ht⟩ := List.mem_flatten.mp ht
    obtain ⟨x, hx, rfl⟩ := List.mem_map.mp htokens
    exact (h x hx).2 t ht
  exact parse_of_spelledBy ⟨definitions, _, rfl, hne, spelledBy_tokens _ fun x hx => (h x hx).1, rfl⟩
    (Scan.scan_holds (lex_text hspelled)) filePath

/-- **What is parsed is printed as a text that is parsed again**, up to places, with the values of
strings sanitised, which changes none that is well-formed; printing it again gives the same text. -/
theorem parse_text {source : Text} {filePath : Option Text} {limit : Nat} {d : Document}
    (h : parse source filePath limit = .ok d) (filePath' : Option Text) :
    (∃ d', parse d.text filePath' limit = .ok d' ∧ d'.plain id = d.plain Utf8.sanitise ∧
      d'.text = d.text) ∧ ∀ t, Utf8.wellFormed t = true → Utf8.sanitise t = t := by
  refine ⟨?_, fun t => Utf8.sanitise_of_wellFormed⟩
  obtain ⟨definitions, rfl, hne, hall⟩ := definitions_of_parse h
  obtain ⟨d', hd', hplain⟩ := parse_text_of_fits hne hall filePath'
  refine ⟨d', hd', hplain, ?_⟩
  have hid : (d'.plain id).text = d'.text := text_plain (fun _ => rfl) d'
  rw [← hid, hplain]
  exact text_plain Text.quoted_sanitise _

/-- A source with a string that is no UTF-8 and with a directive of a variable, which is dropped. -/
def strayOctet : Text :=
  Text.ofString "query Q($a:[Int!]=[1]@d)\x7b x:f(s:\"" ++ 0xFF ::
    Text.ofString "\",e:A)@i(b:true)\x7b...on T\x7bg\x7d\x7d ...F\x7d fragment F on T\x7bh\x7d"

theorem parse_text_strayOctet : ∃ d, parse strayOctet (some "queries") 3 = .ok d ∧
    (∃ d', parse d.text none 3 = .ok d' ∧ d'.plain id = d.plain Utf8.sanitise ∧
      d'.text = d.text) ∧ ∀ t, Utf8.wellFormed t = true → Utf8.sanitise t = t := by
  have hok : (parse strayOctet (some "queries") 3).isOk = true := by decide +kernel
  cases h : parse strayOctet (some "queries") 3 with
  | error e => rw [h] at hok; cases hok
  | ok d => exact ⟨d, rfl, parse_text h none⟩

end Document

end QueryCompiler
