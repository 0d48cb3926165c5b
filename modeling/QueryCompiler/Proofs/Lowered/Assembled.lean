import QueryCompiler.Lowered.Program
import QueryCompiler.Proofs.Success

/-!
# What a lowered program is made of

One lemma for each step of `Program.ofDocument` after its document is resolved: if the step succeeds,
what its result consists of.
-/

namespace QueryCompiler

namespace Lowered

/-- The entries of a map are lowered one by one, under their keys. -/
theorem lowerEntries_ok {α β : Type} {lower : α → Except LoweringError β} {m : OrderedMap Text α}
    {m' : OrderedMap Text β} (h : lowerEntries lower m = .ok m') :
    List.Forall₂ (fun e e' => e'.1 = e.1 ∧ lower e.2 = .ok e'.2) m.entries m'.entries := by
  obtain ⟨entries, hmap, h⟩ := Success.bind_eq_ok.mp h
  obtain rfl := Except.ok.inj h
  have hall : List.Forall₂ (fun (e : Text × α) (e' : Text × β) =>
      e'.1 = e.1 ∧ lower e.2 = .ok e'.2) m.entries entries := by
    refine (Success.mapM_eq_ok.mp hmap).imp fun e e' he => ?_
    obtain ⟨b, hb, he⟩ := Success.bind_eq_ok.mp he
    obtain rfl := Except.ok.inj he
    exact ⟨rfl, hb⟩
  have hkeys : entries.map Prod.fst = m.entries.map Prod.fst := by
    rw [← List.forall₂_eq_eq_eq, List.forall₂_map_left_iff, List.forall₂_map_right_iff]
    exact hall.flip.imp fun e' e he => he.1
  rwa [OrderedMap.entries_ofList (by rw [hkeys]; exact m.nodup_keys)]

section
variable {p : Typed.Program}

/-- The texts of fragments are those of the fragments that the program has for the names. -/
theorem fragmentSources_ok {operation : Text} {names sources : List Text}
    (h : fragmentSources p operation names = .ok sources) :
    List.Forall₂ (fun name source => ∃ f, p.fragments.find? name = some f ∧ source = f.source)
      names sources := by
  refine (Success.mapM_eq_ok.mp h).imp fun name source hs => ?_
  cases hf : p.fragments.find? name with
  | none => rw [hf] at hs; cases hs
  | some f =>
    rw [hf] at hs
    exact ⟨f, rfl, (Except.ok.inj hs).symm⟩

/-- A lowered operation says what the operation says; its text is put together from that of the
operation and those of the fragments that are collected. -/
theorem Operation.ofTyped_ok {steps : Steps} {o : Typed.Operation} {o' : Operation}
    (h : Operation.ofTyped steps p o = .ok o') :
    ∃ s sources, o.selectionSet = some s ∧
      fragmentSources p o.name o'.fragmentsReferenced = .ok sources ∧
      Lowered.body (.ofOptions steps p.options) s = .ok o'.body ∧
      o'.name = o.name ∧ o'.source = o.source ∧ o'.fragmentsReferenced = steps.collect s ∧
      o'.sourceWithFragments = withFragments o.source sources ∧
      o'.operationId =
        (if p.options.generateOperationIds then some (operationIdOf o'.sourceWithFragments) else none) ∧
      o'.variableDefinitions = o.variableDefinitions := by
  unfold Operation.ofTyped at h
  cases hs : o.selectionSet with
  | none => rw [hs] at h; cases h
  | some s =>
    rw [hs] at h
    obtain ⟨sources, hsources, h⟩ := Success.bind_eq_ok.mp h
    obtain ⟨body, hbody, h⟩ := Success.bind_eq_ok.mp h
    obtain rfl := Except.ok.inj h
    exact ⟨s, sources, rfl, hsources, hbody, rfl, rfl, rfl, rfl, rfl, rfl⟩

/-- A lowered fragment says what the fragment says. -/
theorem Fragment.ofTyped_ok {steps : Steps} {f : Typed.Fragment} {f' : Fragment}
    (h : Fragment.ofTyped steps p f = .ok f') : ∃ s, f.selectionSet = some s ∧
      Lowered.body (.ofOptions steps p.options) s = .ok f'.body ∧ f'.name = f.name := by
  unfold Fragment.ofTyped at h
  cases hs : f.selectionSet with
  | none => rw [hs] at h; cases h
  | some s =>
    rw [hs] at h
    obtain ⟨body, hbody, h⟩ := Success.bind_eq_ok.mp h
    obtain rfl := Except.ok.inj h
    exact ⟨s, rfl, hbody, rfl⟩

/-- A program is lowered operation by operation and fragment by fragment. -/
theorem Program.ofTyped_ok {p' : Program} (h : Program.ofTyped p = .ok p') :
    List.Forall₂ (fun e e' => e'.1 = e.1 ∧ Operation.ofTyped {} p e.2 = .ok e'.2)
        p.operations.entries p'.operations.entries ∧
      List.Forall₂ (fun e e' => e'.1 = e.1 ∧ Fragment.ofTyped {} p e.2 = .ok e'.2)
        p.fragments.entries p'.fragments.entries := by
  obtain ⟨operations, ho, h⟩ := Success.bind_eq_ok.mp h
  obtain ⟨fragments, hf, h⟩ := Success.bind_eq_ok.mp h
  obtain rfl := Except.ok.inj h
  exact ⟨lowerEntries_ok ho, lowerEntries_ok hf⟩

/-- A lowered program keeps the schema and the types used. -/
theorem Program.ofTyped_kept {p' : Program} (h : Program.ofTyped p = .ok p') :
    p'.schema = p.schema ∧ p'.typesUsed = p.typesUsed := by
  obtain ⟨operations, -, h⟩ := Success.bind_eq_ok.mp h
  obtain ⟨fragments, -, h⟩ := Success.bind_eq_ok.mp h
  obtain rfl := Except.ok.inj h
  exact ⟨rfl, rfl⟩

/-- A document that is compiled is resolved, and its program lowered. -/
theorem Program.ofDocument_ok {schema : Schema} {d : Document} {options : CompilerOptions}
    {program : Program} (h : Program.ofDocument schema d options = .ok program) :
    ∃ p, Typed.Program.ofDocument schema d options = .ok p ∧ p.options = options ∧
      Program.ofTyped p = .ok program := by
  obtain ⟨p, hp, h⟩ := Success.bind_eq_ok.mp h
  have hp' := Success.mapError_eq_ok.mp hp
  refine ⟨p, hp', ?_, Success.mapError_eq_ok.mp h⟩
  obtain ⟨result, -, he⟩ := Success.bind_eq_ok.mp hp'
  obtain rfl := Except.ok.inj he
  rfl

end

end Lowered

end QueryCompiler
