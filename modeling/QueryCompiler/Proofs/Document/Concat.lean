import QueryCompiler.Proofs.Document.Reprint
import QueryCompiler.Proofs.Text.Blocks

/-!
# Documents put together

The order of a document may name more or fewer definitions than there are, and it is put together
with the orders of other documents all the same. What is printed is every definition, each once.

* `Follows`: what it means that definitions come in an order that may not fit them, and
  `follows_definitions`: those of a document do.
* `interleave_append`: where an order fits its definitions, those that come after are not touched, so
  the definitions of documents with orders that fit come document by document
  (`definitions_concat`).
* `text_concat`: printing loses and repeats nothing, and puts the texts of such documents together,
  if none is without definitions (`text_concat_empty`).
-/

namespace QueryCompiler.Document

/-! ### Definitions in order -/

/-- The kind of a definition. -/
def Definition.kind : Definition → DefinitionKind
  | .operation _ => .operation
  | .fragment _ => .fragment

/-- The definitions of a document in the order in which they are printed. -/
def definitions (d : Document) : List Definition :=
  interleave d.order (d.operations.map .operation) (d.fragments.map .fragment)

/-- The definitions come in the order: a kind names the next definition of its kind, and is passed
over if none is left. What the order does not name comes last, operations before fragments. -/
inductive Follows : List DefinitionKind → List Definition → Prop
  | unnamed (operations : List Operation) (fragments : List Fragment) :
      Follows [] (operations.map .operation ++ fragments.map .fragment)
  | named {x : Definition} {order : List DefinitionKind} {rest : List Definition} :
      Follows order rest → Follows (x.kind :: order) (x :: rest)
  | passed {kind : DefinitionKind} {order : List DefinitionKind} {rest : List Definition} :
      (∀ x ∈ rest, x.kind ≠ kind) → Follows order rest → Follows (kind :: order) rest

section Interleave
variable {α β : Type}

theorem map_interleave (f : α → β) (order : List DefinitionKind) (operations fragments : List α) :
    (interleave order operations fragments).map f =
      interleave order (operations.map f) (fragments.map f) := by
  fun_induction interleave order operations fragments with
  | case1 operations fragments => rw [List.map_append, interleave]
  | case2 order operation operations fragments ih => rw [List.map_cons, ih]; rfl
  | case3 order fragments ih => exact ih
  | case4 order operations fragment fragments ih => rw [List.map_cons, ih]; rfl
  | case5 order operations ih => exact ih

theorem mem_interleave {x : α} {order : List DefinitionKind} {operations fragments : List α} :
    x ∈ interleave order operations fragments ↔ x ∈ operations ∨ x ∈ fragments := by
  fun_induction interleave order operations fragments with
  | case1 operations fragments => exact List.mem_append
  | case2 order operation operations fragments ih => rw [List.mem_cons, ih, List.mem_cons, or_assoc]
  | case3 order fragments ih => exact ih
  | case4 order operations fragment fragments ih =>
    rw [List.mem_cons, ih, List.mem_cons, or_left_comm]
  | case5 order operations ih => exact ih

/-- What is picked out of operations only comes in their order. -/
theorem filterMap_operations {f : α → Option β} {order : List DefinitionKind}
    {operations fragments : List α} (h : ∀ x ∈ fragments, f x = none) :
    (interleave order operations fragments).filterMap f = operations.filterMap f := by
  fun_induction interleave order operations fragments with
  | case1 operations fragments =>
    rw [List.filterMap_append, List.filterMap_eq_nil_iff.mpr h, List.append_nil]
  | case2 order operation operations fragments ih =>
    rw [List.filterMap_cons, List.filterMap_cons, ih h]
  | case3 order fragments ih => exact ih h
  | case4 order operations fragment fragments ih =>
    obtain ⟨hfragment, hrest⟩ := List.forall_mem_cons.mp h
    rw [List.filterMap_cons_none hfragment, ih hrest]
  | case5 order operations ih => exact ih h

/-- What is picked out of fragments only comes in their order. -/
theorem filterMap_fragments {f : α → Option β} {order : List DefinitionKind}
    {operations fragments : List α} (h : ∀ x ∈ operations, f x = none) :
    (interleave order operations fragments).filterMap f = fragments.filterMap f := by
  fun_induction interleave order operations fragments with
  | case1 operations fragments =>
    rw [List.filterMap_append, List.filterMap_eq_nil_iff.mpr h, List.nil_append]
  | case2 order operation operations fragments ih =>
    obtain ⟨hoperation, hrest⟩ := List.forall_mem_cons.mp h
    rw [List.filterMap_cons_none hoperation, ih hrest]
  | case3 order fragments ih => exact ih h
  | case4 order operations fragment fragments ih =>
    rw [List.filterMap_cons, List.filterMap_cons, ih h]
  | case5 order operations ih => exact ih h

/-- **An order that fits leaves what comes after it alone.** -/
theorem interleave_append {order order' : List DefinitionKind}
    {operations operations' fragments fragments' : List α}
    (ho : order.count .operation = operations.length)
    (hf : order.count .fragment = fragments.length) :
    interleave (order ++ order') (operations ++ operations') (fragments ++ fragments') =
      interleave order operations fragments ++ interleave order' operations' fragments' := by
  fun_induction interleave order operations fragments with
  | case1 operations fragments =>
    rw [List.count_nil, eq_comm, List.length_eq_zero_iff] at ho hf
    subst ho hf
    rfl
  | case2 order operation operations fragments ih =>
    rw [List.count_cons_self, List.length_cons, Nat.add_right_cancel_iff] at ho
    rw [List.count_cons_of_ne (by decide)] at hf
    rw [List.cons_append, List.cons_append, interleave, ih ho hf, List.cons_append]
  | case3 order fragments ih =>
    rw [List.count_cons_self, List.length_nil] at ho
    omega
  | case4 order operations fragment fragments ih =>
    rw [List.count_cons_of_ne (by decide)] at ho
    rw [List.count_cons_self, List.length_cons, Nat.add_right_cancel_iff] at hf
    rw [List.cons_append, List.cons_append, interleave, ih ho hf, List.cons_append]
  | case5 order operations ih =>
    rw [List.count_cons_self, List.length_nil] at hf
    omega

end Interleave

theorem mem_definitions {d : Document} {x : Definition} : x ∈ d.definitions ↔ d.Defines x := by
  rw [definitions, mem_interleave, List.mem_map, List.mem_map]
  cases x with
  | operation o => simp [Defines]
  | fragment f => simp [Defines]

theorem definitionTexts_eq (d : Document) :
    d.definitionTexts = d.definitions.map Definition.text := by
  rw [definitionTexts, definitions, map_interleave, List.map_map, List.map_map]
  rfl

theorem operations_definitions (d : Document) :
    (ofDefinitions d.definitions).operations = d.operations := by
  refine (filterMap_operations fun x hx => ?_).trans ?_
  · obtain ⟨f, -, rfl⟩ := List.mem_map.mp hx
    rfl
  · rw [List.filterMap_map]
    exact List.filterMap_some

theorem fragments_definitions (d : Document) :
    (ofDefinitions d.definitions).fragments = d.fragments := by
  refine (filterMap_fragments fun x hx => ?_).trans ?_
  · obtain ⟨o, -, rfl⟩ := List.mem_map.mp hx
    rfl
  · rw [List.filterMap_map]
    exact List.filterMap_some

theorem follows_interleave (order : List DefinitionKind) (operations : List Operation)
    (fragments : List Fragment) :
    Follows order (interleave order (operations.map .operation) (fragments.map .fragment)) := by
  induction order generalizing operations fragments with
  | nil => exact .unnamed operations fragments
  | cons kind order ih =>
    cases kind with
    | operation =>
      cases operations with
      | nil =>
        refine .passed (fun x hx => ?_) (ih [] fragments)
        have hx := (mem_interleave.mp hx).resolve_left List.not_mem_nil
        obtain ⟨f, -, rfl⟩ := List.mem_map.mp hx
        nofun
      | cons o operations => exact Follows.named (x := .operation o) (ih operations fragments)
    | fragment =>
      cases fragments with
      | nil =>
        rw [List.map_nil, interleave]
        refine .passed (fun x hx => ?_) (ih operations [])
        have hx := (mem_interleave.mp hx).resolve_right List.not_mem_nil
        obtain ⟨o, -, rfl⟩ := List.mem_map.mp hx
        nofun
      | cons f fragments =>
        rw [List.map_cons, interleave]
        exact Follows.named (x := .fragment f) (ih operations fragments)

/-- **The definitions of a document come in its order**, whether the order fits them or not. -/
theorem follows_definitions (d : Document) : Follows d.order d.definitions :=
  follows_interleave d.order d.operations d.fragments

/-! ### Documents one after the other -/

/-- The order names every definition once, and no other. -/
def IsOrdered (d : Document) : Prop :=
  d.order.count .operation = d.operations.length ∧ d.order.count .fragment = d.fragments.length

instance (d : Document) : Decidable d.IsOrdered := by unfold IsOrdered; infer_instance

/-- The document of a list of definitions has them in their order. -/
theorem isOrdered_ofDefinitions (definitions : List Definition) :
    (ofDefinitions definitions).IsOrdered := by
  induction definitions with
  | nil => exact ⟨rfl, rfl⟩
  | cons x rest ih =>
    obtain ⟨ho, hf⟩ := ih
    cases x with
    | operation o => exact ⟨List.count_cons_self.trans (congrArg (· + 1) ho), hf⟩
    | fragment f => exact ⟨ho, List.count_cons_self.trans (congrArg (· + 1) hf)⟩

theorem definitions_ofDefinitions (definitions : List Definition) :
    (ofDefinitions definitions).definitions = definitions := by
  induction definitions with
  | nil => rfl
  | cons x rest ih => cases x <;> exact congrArg (_ :: ·) ih

theorem definitions_append {d d' : Document} (h : d.IsOrdered) :
    (d.append d').definitions = d.definitions ++ d'.definitions := by
  rw [definitions, append, List.map_append, List.map_append]
  refine interleave_append ?_ ?_
  · rw [List.length_map]; exact h.1
  · rw [List.length_map]; exact h.2

theorem foldl_append (documents : List Document) (start : Document) :
    documents.foldl append start = ⟨start.operations ++ documents.flatMap operations,
      start.fragments ++ documents.flatMap fragments, start.order ++ documents.flatMap order⟩ := by
  induction documents generalizing start with
  | nil => simp
  | cons d documents ih => simp [ih, append]

/-- The parts of documents that are put together are those of the documents. -/
theorem concat_eq (documents : List Document) : concat documents =
    ⟨documents.flatMap operations, documents.flatMap fragments, documents.flatMap order⟩ :=
  foldl_append documents empty

theorem concat_cons (d : Document) (documents : List Document) :
    concat (d :: documents) = d.append (concat documents) := by
  simp [concat_eq, append]

/-- **Documents with orders that fit are printed one after the other.** -/
theorem definitions_concat {documents : List Document} (h : ∀ d ∈ documents, d.IsOrdered) :
    (concat documents).definitions = documents.flatMap definitions := by
  induction documents with
  | nil => rfl
  | cons d documents ih =>
    obtain ⟨hd, hrest⟩ := List.forall_mem_cons.mp h
    rw [concat_cons, definitions_append hd, ih hrest, List.flatMap_cons]

/-! ### Texts -/

/-- Definitions of which none is printed as nothing are separated by blank lines. -/
theorem text_of_definitions {d : Document} (h : ∀ x ∈ d.definitions, x.text ≠ []) :
    d.text = Text.join "\n\n" (d.definitions.map Definition.text) ++ [Octet.lf] := by
  rw [text, definitionTexts_eq, Text.joinNonEmpty_eq_join]
  intro part hpart
  obtain ⟨x, hx, rfl⟩ := List.mem_map.mp hpart
  exact h x hx

theorem text_append {d d' : Document} (hd : d.IsOrdered)
    (h : ∀ x ∈ d.definitions, x.text ≠ []) (h' : ∀ x ∈ d'.definitions, x.text ≠ [])
    (hne : d.definitions ≠ []) (hne' : d'.definitions ≠ []) :
    (d.append d').text = d.text ++ ([Octet.lf] ++ d'.text) := by
  have hdefinitions : (d.append d').definitions = d.definitions ++ d'.definitions :=
    definitions_append hd
  have hall : ∀ x ∈ (d.append d').definitions, x.text ≠ [] := by
    intro x hx
    rw [hdefinitions] at hx
    exact (List.mem_append.mp hx).elim (h x) (h' x)
  have hblank : ("\n\n" : Text) = [Octet.lf] ++ [Octet.lf] := rfl
  rw [text_of_definitions hall, text_of_definitions h, text_of_definitions h', hdefinitions,
    List.map_append, Text.join_append (by simpa using hne) (by simpa using hne'), hblank]
  simp only [List.append_assoc]

/-- **The text of documents with orders that fit** is the texts of the documents. -/
theorem text_concat_of_isOrdered {documents : List Document} (hdocuments : documents ≠ [])
    (h : ∀ d ∈ documents, ∀ x ∈ d.definitions, x.text ≠ [])
    (hordered : ∀ d ∈ documents, d.IsOrdered) (hne : ∀ d ∈ documents, d.definitions ≠ []) :
    (concat documents).text = Text.join [Octet.lf] (documents.map text) := by
  obtain ⟨d, rest, rfl⟩ := List.exists_cons_of_ne_nil hdocuments
  induction rest generalizing d with
  | nil => simp [concat_eq, Text.join]
  | cons d' rest ih =>
    obtain ⟨hd, hrest⟩ := List.forall_mem_cons.mp h
    obtain ⟨hdOrdered, hrestOrdered⟩ := List.forall_mem_cons.mp hordered
    obtain ⟨hdNe, hrestNe⟩ := List.forall_mem_cons.mp hne
    have hafter := definitions_concat hrestOrdered
    have hafterText : ∀ x ∈ (concat (d' :: rest)).definitions, x.text ≠ [] := by
      intro x hx
      rw [hafter] at hx
      obtain ⟨e, he, hx⟩ := List.mem_flatMap.mp hx
      exact hrest e he x hx
    have hafterNe : (concat (d' :: rest)).definitions ≠ [] := by
      rw [hafter, List.flatMap_cons]
      exact List.append_ne_nil_of_left_ne_nil (hrestNe d' List.mem_cons_self) _
    rw [concat_cons, text_append hdOrdered hd hafterText hdNe hafterNe,
      ih d' (List.cons_ne_nil _ _) hrest hrestOrdered hrestNe]
    rfl

theorem text_eq_of_definitions_eq {d d' : Document} (h : d.definitions = d'.definitions) :
    d.text = d'.text := by
  rw [text, text, definitionTexts_eq, definitionTexts_eq, h]

/-- Documents without definitions add nothing. -/
theorem text_concat_filter {documents : List Document} (h : ∀ d ∈ documents, d.IsOrdered) :
    (concat (documents.filter fun d => !d.definitions.isEmpty)).text = (concat documents).text := by
  have hsome : ∀ d ∈ documents.filter fun d => !d.definitions.isEmpty, d.IsOrdered := fun d hd =>
    h d (List.mem_of_mem_filter hd)
  refine text_eq_of_definitions_eq ?_
  rw [definitions_concat h, definitions_concat hsome]
  clear h hsome
  induction documents with
  | nil => rfl
  | cons d documents ih =>
    cases hd : d.definitions with
    | nil => simp [hd, ih]
    | cons x xs => simp [hd, ih]

/-- A document that is parsed has at least one definition, and they come in their order. -/
theorem isOrdered_of_parse {source : Text} {filePath : Option Text} {limit : Nat} {d : Document}
    (h : parse source filePath limit = .ok d) : d.IsOrdered ∧ d.definitions ≠ [] := by
  obtain ⟨definitions, rfl, hne, -⟩ := definitions_of_parse h
  refine ⟨isOrdered_ofDefinitions definitions, ?_⟩
  rwa [definitions_ofDefinitions]

/-- **Putting documents together and printing them loses and repeats no definition.** Whatever their
orders are, all definitions are printed, separated by blank lines: the operations of all documents
as they follow one another, the fragments as they follow one another, and the two kinds in the order
that all the orders make. Where every order fits its document, as in all that is parsed, the text is
the texts of the documents, separated by line feeds; a document without definitions, whose own text
would be a line feed, adds nothing. -/
theorem text_concat {documents : List Document}
    (h : ∀ d ∈ documents, ∀ x, d.Defines x → x.text ≠ []) :
    (∃ definitions : List Definition,
      (concat documents).text =
        Text.join "\n\n" (definitions.map Definition.text) ++ [Octet.lf] ∧
      (ofDefinitions definitions).operations = documents.flatMap operations ∧
      (ofDefinitions definitions).fragments = documents.flatMap fragments ∧
      Follows (documents.flatMap order) definitions) ∧
    ((∀ d ∈ documents, d.IsOrdered) →
      (documents ≠ [] → (∀ d ∈ documents, d.definitions ≠ []) →
        (concat documents).text = Text.join [Octet.lf] (documents.map text)) ∧
      (concat (documents.filter fun d => !d.definitions.isEmpty)).text = (concat documents).text) ∧
    ∀ (source : Text) (filePath : Option Text) (limit : Nat) (d : Document),
      parse source filePath limit = .ok d → d.IsOrdered ∧ d.definitions ≠ [] := by
  have htexts : ∀ d ∈ documents, ∀ x ∈ d.definitions, x.text ≠ [] := fun d hd x hx =>
    h d hd x (mem_definitions.mp hx)
  refine ⟨⟨(concat documents).definitions, text_of_definitions fun x hx => ?_, ?_, ?_, ?_⟩,
    fun hordered => ⟨fun hne => text_concat_of_isOrdered hne htexts hordered,
      text_concat_filter hordered⟩, fun _ _ _ _ => isOrdered_of_parse⟩
  · have hdefines := mem_definitions.mp hx
    rw [concat_eq] at hdefines
    cases x with
    | operation o =>
      obtain ⟨d, hd, ho⟩ := List.mem_flatMap.mp hdefines
      exact h d hd (.operation o) ho
    | fragment f =>
      obtain ⟨d, hd, hf⟩ := List.mem_flatMap.mp hdefines
      exact h d hd (.fragment f) hf
  · rw [operations_definitions, concat_eq]
  · rw [fragments_definitions, concat_eq]
  · have hfollows := follows_definitions (concat documents)
    rwa [concat_eq] at hfollows ⊢

/-- A query and a fragment definition of two documents, with orders that fit neither: one names two
fragments too many, the other no operation. -/
def misordered : List Document :=
  let a : Selection := .field ⟨none, "a", [], [], {}⟩ []
  [⟨[⟨.query, some "A", [], [], [a], {}, none⟩], [], [.fragment, .operation, .fragment]⟩,
    ⟨[⟨.query, some "B", [], [], [a], {}, none⟩], [⟨"F", "T", [], [a], {}, none⟩], [.fragment]⟩]

/-- The fragment of the second document is printed first, as the order of the first one has it. -/
theorem text_concat_misordered : (∀ d ∈ misordered, ∀ x, d.Defines x → x.text ≠ []) ∧
    (concat misordered).text = Text.ofString ("fragment F on T \x7b\n  a\n\x7d\n\n" ++
      "query A \x7b\n  a\n\x7d\n\n" ++ "query B \x7b\n  a\n\x7d\n") ∧
    ∃ definitions : List Definition,
      (concat misordered).text =
        Text.join "\n\n" (definitions.map Definition.text) ++ [Octet.lf] ∧
      (ofDefinitions definitions).operations = misordered.flatMap operations ∧
      (ofDefinitions definitions).fragments = misordered.flatMap fragments ∧
      Follows (misordered.flatMap order) definitions := by
  have htexts : ∀ d ∈ misordered, ∀ x ∈ d.definitions, x.text ≠ [] := by decide +kernel
  have h : ∀ d ∈ misordered, ∀ x, d.Defines x → x.text ≠ [] := fun d hd x hx =>
    htexts d hd x (mem_definitions.mpr hx)
  exact ⟨h, by decide +kernel, (text_concat h).1⟩

/-- A document without definitions beside a query. -/
def besideEmpty : List Document :=
  [empty, ⟨[⟨.query, some "A", [], [], [.field ⟨none, "a", [], [], {}⟩ []], {}, none⟩], [],
    [.operation]⟩]

/-- The order of a document without definitions fits it, but its text, a line feed, is not part of
what is printed. -/
theorem text_concat_empty : besideEmpty ≠ [] ∧
    (∀ d ∈ besideEmpty, ∀ x, d.Defines x → x.text ≠ []) ∧ (∀ d ∈ besideEmpty, d.IsOrdered) ∧
    (concat besideEmpty).text = Text.ofString "query A \x7b\n  a\n\x7d\n" ∧
    Text.join [Octet.lf] (besideEmpty.map text) =
      Text.ofString "\n\nquery A \x7b\n  a\n\x7d\n" ∧
    (concat besideEmpty).text ≠ Text.join [Octet.lf] (besideEmpty.map text) := by
  have htexts : ∀ d ∈ besideEmpty, ∀ x ∈ d.definitions, x.text ≠ [] := by decide +kernel
  refine ⟨List.cons_ne_nil _ _, fun d hd x hx => htexts d hd x (mem_definitions.mpr hx), ?_, ?_, ?_,
    ?_⟩ <;> decide +kernel

end QueryCompiler.Document
