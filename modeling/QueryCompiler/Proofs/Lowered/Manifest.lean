import QueryCompiler.Lowered.Serial
import QueryCompiler.Proofs.Document.Concat
import QueryCompiler.Proofs.Json.Members
import QueryCompiler.Proofs.Lowered.SelfContained

/-!
# Manifests

A manifest lists operations by their ids, which are digests of their texts with fragments. It would
lose an operation if that had the text of another. It has not: whatever else is printed, the text
starts with a keyword and the name (`Document.Operation.names_text`), and the fragments only follow
(`names_withFragments`), so equal texts have equal names. If the digests of the texts are distinct
as well, the manifest has one entry for every operation (`Program.manifest_of_parsed`).
-/

namespace QueryCompiler

namespace Document

/-! ### Names of operations -/

theorem operationNames_addTypename (d : Document) :
    d.addTypename.operations.map Operation.name = d.operations.map Operation.name := by
  rw [addTypename, List.map_map]
  rfl

/-! ### Texts that name an operation -/

/-- The text starts with a keyword and a name, which ends there. -/
def Names (t name : Text) : Prop :=
  ∃ (type : OperationType) (rest : Text), rest.Breaks ∧
    t = type.text ++ Octet.space :: (name ++ rest)

theorem Names.append {t name after : Text} (h : Names t name) (hafter : after.Breaks) :
    Names (t ++ after) name := by
  obtain ⟨type, rest, hrest, rfl⟩ := h
  refine ⟨type, rest ++ after, hrest.append hafter, ?_⟩
  simp only [List.append_assoc, List.cons_append]

theorem isName_operationType (type : OperationType) : type.text.IsName := by
  cases type <;> decide +kernel

/-- A text names at most one operation. -/
theorem Names.unique {t name name' : Text} (h : Names t name) (h' : Names t name')
    (hname : name.IsName) (hname' : name'.IsName) : name = name' := by
  obtain ⟨type, rest, hrest, rfl⟩ := h
  obtain ⟨type', rest', hrest', heq⟩ := h'
  have hspace : ∀ t : Text, Number.Avoids Octet.isNameContinue (Octet.space :: t) :=
    fun t => (Text.breaks_cons rfl).avoids
  -- The keyword is the run of octets of names up to the space, the name the run after it.
  obtain ⟨-, hafter⟩ := Number.run_unique (isName_operationType type).forall_mem
    (isName_operationType type').forall_mem (hspace _) (hspace _) heq
  exact (Number.run_unique hname.forall_mem hname'.forall_mem hrest.avoids hrest'.avoids
    (List.cons.inj hafter).2).1

/-- The text of an operation with a name starts with the name, whatever else is printed. -/
theorem Operation.names_text {o : Operation} {name : Text} (hname : o.name = some name)
    (hisName : name.IsName) : Names o.text name := by
  have hne : name ≠ [] := hisName.ne_nil
  have hkeyword : o.operation.text ≠ [] := (isName_operationType _).ne_nil
  have hvars : (variablesText o.variableDefinitions).Breaks := Scan.breaks_parenthesised _
  obtain ⟨rest, hrest, hnamed⟩ : ∃ rest : Text, rest.Breaks ∧
      Text.joinNonEmpty " " [name ++ variablesText o.variableDefinitions,
        directivesText o.directives, selectionSetText o.selections] = name ++ rest := by
    have hpart : name ++ variablesText o.variableDefinitions ≠ [] :=
      List.append_ne_nil_of_left_ne_nil hne _
    rcases Scan.joinNonEmpty_cons hpart " "
        [directivesText o.directives, selectionSetText o.selections] with ⟨-, he⟩ | he
    · exact ⟨_, hvars, he⟩
    · exact ⟨_, hvars.append (Text.breaks_cons rfl), he.trans (List.append_assoc _ _ _)⟩
  refine ⟨o.operation, rest, hrest, ?_⟩
  have hlong : name.isEmpty = false := List.isEmpty_eq_false_iff.mpr hne
  rw [Operation.text, hname]
  simp only [Option.getD_some, hlong, Bool.false_and, Bool.false_eq_true, if_false]
  rcases Scan.joinNonEmpty_cons hkeyword " " [name ++ variablesText o.variableDefinitions,
      directivesText o.directives, selectionSetText o.selections] with ⟨hnil, -⟩ | he
  · rw [hnamed] at hnil
    exact absurd (List.append_eq_nil_iff.mp hnil).1 hne
  · rw [he, hnamed]
    rfl

/-- What a document that is parsed calls an operation is a name. -/
theorem isName_of_parse {source : Text} {filePath : Option Text} {limit : Nat} {d : Document}
    (h : parse source filePath limit = .ok d) {o : Operation} (ho : o ∈ d.operations) {name : Text}
    (hname : o.name = some name) : name.IsName := by
  have hspelled : AreSpelled (o.tokens id) := (spelled_of_parse h (x := .operation o) ho).2
  have hlong : ¬ o.IsShort := by
    rintro ⟨-, hnone, -⟩
    rw [hname] at hnone
    cases hnone
  have hmem : Token.name name ∈ o.tokens id := by
    rw [Operation.tokens, if_neg hlong, Operation.longTokens, hname]
    exact List.mem_cons_of_mem _ (List.mem_append_left _ (List.mem_singleton_self _))
  exact hspelled _ hmem

end Document

namespace Typed

theorem operationNames_prepared (d : Document) (options : CompilerOptions) :
    (prepared d options).operations.map Document.Operation.name =
      d.operations.map Document.Operation.name := by
  unfold prepared
  split_ifs
  · exact Document.operationNames_addTypename d
  · rfl

end Typed

namespace Lowered

open Document (parse Names)

/-! ### The operations of a program -/

/-- Fragments follow the text of an operation and leave its start as it is. -/
theorem names_withFragments {source name : Text} (h : Names source name) (fragments : List Text) :
    Names (withFragments source fragments) name := by
  induction fragments generalizing source with
  | nil => exact h
  | cons fragment fragments ih => exact ih (h.append (Text.breaks_cons rfl))

/-- An operation is listed under its name, with a text that starts with the name; its id, if there
is to be one, is that of the text. -/
structure Listed (options : CompilerOptions) (e : Text × Operation) : Prop where
  isName : e.1.IsName
  name : e.2.name = e.1
  names : Names e.2.sourceWithFragments e.1
  operationId : e.2.operationId =
    if options.generateOperationIds then some (operationIdOf e.2.sourceWithFragments) else none

variable {documents : List Document} {schema : Schema} {options : CompilerOptions}
  {program : Program}

theorem listed_of_parsed
    (hdocuments : ∀ x ∈ documents, ∃ source filePath limit, parse source filePath limit = .ok x)
    (h : Program.ofDocument schema (Document.concat documents) options = .ok program) :
    ∀ e ∈ program.operations.entries, Listed options e := by
  obtain ⟨p, hp, hoptions, hlower⟩ := Program.ofDocument_ok h
  have hcarries := Typed.Program.ofDocument_carriesAll hp
  obtain ⟨hoperations, -⟩ := Program.ofTyped_ok hlower
  intro e he
  obtain ⟨typed, htyped, hkey, hof⟩ := Success.exists_of_mem_right hoperations he
  obtain ⟨o, ho, hcarry⟩ := Success.exists_of_mem_right hcarries.operations htyped
  obtain ⟨s, sources, -, -, -, hname, -, -, htext, hid, -⟩ := Operation.ofTyped_ok hof
  have hnamed : o.name = some e.1 := hcarry.key.trans (congrArg some hkey.symm)
  have hisName : e.1.IsName := by
    have hmem : o.name ∈ (Document.concat documents).operations.map Document.Operation.name := by
      rw [← Typed.operationNames_prepared _ options]
      exact List.mem_map_of_mem ho
    obtain ⟨o', ho', hsame⟩ := List.mem_map.mp hmem
    rw [Document.concat_eq] at ho'
    obtain ⟨x, hx, hmem'⟩ := List.mem_flatMap.mp ho'
    obtain ⟨source, filePath, limit, hparse⟩ := hdocuments x hx
    exact Document.isName_of_parse hparse hmem' (hsame.trans hnamed)
  refine ⟨hisName, (hname.trans hcarry.name).trans hkey.symm, ?_, ?_⟩
  · rw [htext, hcarry.source]
    exact names_withFragments (Document.Operation.names_text hnamed hisName) sources
  · rw [hid, hoptions]

/-- Operations that are listed have different texts. -/
theorem nodup_sourceWithFragments (h : ∀ e ∈ program.operations.entries, Listed options e) :
    (program.operations.values.map Operation.sourceWithFragments).Nodup := by
  have hkeys : program.operations.entries.Pairwise fun e e' => e.1 ≠ e'.1 :=
    List.pairwise_map.mp program.operations.nodup_keys
  rw [OrderedMap.values, List.map_map]
  refine List.pairwise_map.mpr (hkeys.imp_of_mem fun {e e'} he he' hne heq => hne ?_)
  have hsame : e.2.sourceWithFragments = e'.2.sourceWithFragments := heq
  have hnames := (h e he).names
  rw [hsame] at hnames
  exact hnames.unique (h e' he').names (h e he).isName (h e' he').isName

/-! ### The manifest -/

/-- No two of the texts have one digest. -/
def NoCollision (texts : List Text) : Prop :=
  ∀ s ∈ texts, ∀ t ∈ texts, Sha256.digest s = Sha256.digest t → s = t

instance (texts : List Text) : Decidable (NoCollision texts) :=
  inferInstanceAs (Decidable (∀ s ∈ texts, ∀ t ∈ texts, _ → s = t))

/-- What a manifest says of an operation: its name and its text, under the digest of that. -/
def Operation.manifestMember (o : Operation) : Text × Json :=
  (operationIdOf o.sourceWithFragments,
    .ofMembers [("name", .string o.name), ("source", .string o.sourceWithFragments)])

theorem manifest_of_listed (hids : options.generateOperationIds = true)
    (h : ∀ e ∈ program.operations.entries, Listed options e) :
    program.manifest =
      .ok (.ofMembers (program.operations.values.map Operation.manifestMember)) := by
  have hentries : program.operations.entries.mapM Program.manifestEntry =
      .ok (program.operations.values.map Operation.manifestMember) := by
    rw [Success.mapM_eq_ok, OrderedMap.values, List.map_map, List.forall₂_map_right_iff,
      List.forall₂_same]
    intro e he
    have hid := (h e he).operationId
    rw [if_pos hids] at hid
    rw [Program.manifestEntry, hid, ← (h e he).name]
    rfl
  rw [Program.manifest, hentries]
  rfl

theorem nodup_operationIds {texts : List Text} (hdistinct : texts.Nodup)
    (hcollision : NoCollision texts) : (texts.map operationIdOf).Nodup := by
  refine List.pairwise_map.mpr (hdistinct.imp_of_mem fun {s t} hs ht hne hid => hne ?_)
  exact hcollision s hs t ht (Text.hex_injective hid)

/-- **A manifest loses no operation.** If documents that are parsed are put together and compiled,
no two operations have the same text with fragments. So if these texts have different digests, the
manifest has the members of all operations and no others, under distinct keys, which are the ids. -/
theorem Program.manifest_of_parsed
    (hdocuments : ∀ x ∈ documents, ∃ source filePath limit, parse source filePath limit = .ok x)
    (hids : options.generateOperationIds = true)
    (h : Program.ofDocument schema (Document.concat documents) options = .ok program) :
    (program.operations.values.map Operation.sourceWithFragments).Nodup ∧
      (NoCollision (program.operations.values.map Operation.sourceWithFragments) →
        ∃ members, program.manifest = .ok (.object members) ∧ (members.map Prod.fst).Nodup ∧
          members.Perm (program.operations.values.map Operation.manifestMember) ∧
          ∀ o ∈ program.operations.values, o.operationId = some o.manifestMember.1) := by
  have hlisted := listed_of_parsed hdocuments h
  have hdistinct := nodup_sourceWithFragments hlisted
  refine ⟨hdistinct, fun hcollision => ?_⟩
  have hkeys : ((program.operations.values.map Operation.manifestMember).map Prod.fst).Nodup := by
    have hnodup := nodup_operationIds hdistinct hcollision
    rwa [List.map_map] at hnodup ⊢
  have hperm := Json.members_ofMembers_perm hkeys
  refine ⟨_, manifest_of_listed hids hlisted, (hperm.map Prod.fst).nodup_iff.mpr hkeys, hperm,
    fun o ho => ?_⟩
  obtain ⟨e, he, rfl⟩ := List.mem_map.mp ho
  rw [(hlisted e he).operationId, if_pos hids]
  rfl

/-- A source of two operations that select the same field. -/
def twins : Text := Text.ofString "query Q { a } query QF { a ...F }"

/-- A source of a fragment that one of them spreads. -/
def spread : Text := Text.ofString "fragment F on Query { a }"

/-- The program of these sources, with ids. -/
def joined : Option (Schema × List Document × Program) := do
  let schema ← (Schema.ofDefinitions oneField).toOption
  let d ← (parse twins none 3).toOption
  let d' ← (parse spread none 3).toOption
  let program ← (Program.ofDocument schema (Document.concat [d, d'])
    { generateOperationIds := true }).toOption
  return (schema, [d, d'], program)

/-- The manifest of two operations with one selection has two members. -/
theorem Program.manifest_of_parsed_twins : ∃ schema documents program members,
    (∀ x ∈ documents, ∃ source filePath limit, parse source filePath limit = .ok x) ∧
    Program.ofDocument schema (Document.concat documents) { generateOperationIds := true } =
      .ok program ∧
    (program.operations.values.map Operation.sourceWithFragments).Nodup ∧
    program.manifest = .ok (.object members) ∧ (members.map Prod.fst).Nodup ∧
    members.Perm (program.operations.values.map Operation.manifestMember) ∧ members.length = 2 := by
  have hrun : (joined.any fun r => r.2.2.operations.values.length == 2 &&
      decide (NoCollision (r.2.2.operations.values.map Operation.sourceWithFragments))) = true := by
    decide +kernel
  obtain ⟨r, hr, hcheck⟩ := (Option.any_eq_true _ _).mp hrun
  obtain ⟨schema, -, hr⟩ := Option.bind_eq_some_iff.mp hr
  obtain ⟨d, hd, hr⟩ := Option.bind_eq_some_iff.mp hr
  obtain ⟨d', hd', hr⟩ := Option.bind_eq_some_iff.mp hr
  obtain ⟨program, hprogram, hr⟩ := Option.bind_eq_some_iff.mp hr
  obtain rfl := Option.some.inj hr
  rw [Bool.and_eq_true, beq_iff_eq, decide_eq_true_eq] at hcheck
  have hdocuments : ∀ x ∈ [d, d'],
      ∃ source filePath limit, parse source filePath limit = .ok x := by
    refine List.forall_mem_cons.mpr ⟨⟨_, _, _, Success.toOption_eq_some.mp hd⟩, ?_⟩
    exact List.forall_mem_singleton.mpr ⟨_, _, _, Success.toOption_eq_some.mp hd'⟩
  have hprogram := Success.toOption_eq_some.mp hprogram
  obtain ⟨hdistinct, hmanifest⟩ := Program.manifest_of_parsed hdocuments rfl hprogram
  obtain ⟨members, hmembers, hkeys, hperm, -⟩ := hmanifest hcheck.2
  refine ⟨schema, [d, d'], program, members, hdocuments, hprogram, hdistinct, hmembers, hkeys,
    hperm, ?_⟩
  rw [hperm.length_eq, List.length_map, hcheck.1]

end Lowered

end QueryCompiler
