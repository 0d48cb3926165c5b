import QueryCompiler.Proofs.Lowered.Assembled
import QueryCompiler.Proofs.Typed.Places
import QueryCompiler.Proofs.Typed.Reorder

/-!
# Lowering with the definitions in another order

An operation is lowered from its own selections and from what the program has for the names of
fragments. So programs that are alike are lowered alike (`Program.ofTypedWith_alike`), and a document
with its fragments in another order is compiled to the same operations (`ofDocument_reordered`).
-/

namespace QueryCompiler

open Success (Agree)

namespace Lowered

/-! ### Maps -/

section Maps
variable {α β : Type} {lower : α → Except LoweringError β} {m m' : OrderedMap Text α}
  {r : OrderedMap Text β}

/-- A key of a lowered map has what the value of the key becomes. -/
theorem find?_lowerEntries (h : lowerEntries lower m = .ok r) (name : Text) :
    r.find? name = (m.find? name).bind fun a => (lower a).toOption := by
  have hall := lowerEntries_ok h
  cases hm : m.find? name with
  | some a =>
    obtain ⟨e, he, hkey, hb⟩ :=
      Success.exists_of_mem_right hall.flip (OrderedMap.mem_of_find? hm)
    rw [Option.bind_some, Success.toOption_eq_some.mpr hb, ← OrderedMap.find?_of_mem he, hkey]
  | none =>
    rw [Option.bind_none, OrderedMap.find?_eq_none]
    intro hname
    obtain ⟨e, he, rfl⟩ := List.mem_map.mp hname
    obtain ⟨e', he', hkey, -⟩ := Success.exists_of_mem_right hall he
    rw [hkey, OrderedMap.find?_of_mem he'] at hm
    cases hm

/-- Maps with the same values are lowered to maps with the same values. -/
theorem lowerEntries_alike (hfind : ∀ name, m'.find? name = m.find? name)
    (h : lowerEntries lower m = .ok r) :
    ∃ r', lowerEntries lower m' = .ok r' ∧ ∀ name, r'.find? name = r.find? name := by
  have hentry : ∀ e ∈ m'.entries, ∃ b,
      (do return (e.1, ← lower e.2) : Except LoweringError (Text × β)) = .ok b := by
    intro e he
    have hmem : (e.1, e.2) ∈ m.entries :=
      OrderedMap.mem_of_find? ((hfind e.1).symm.trans (OrderedMap.find?_of_mem he))
    obtain ⟨e', -, -, hb⟩ := Success.exists_of_mem_right (lowerEntries_ok h).flip hmem
    exact ⟨(e.1, e'.2), Success.bind_eq_ok.mpr ⟨e'.2, hb, rfl⟩⟩
  obtain ⟨entries, hentries⟩ := Success.exists_mapM_eq_ok hentry
  have h' : lowerEntries lower m' = .ok (.ofList entries) :=
    Success.bind_eq_ok.mpr ⟨entries, hentries, rfl⟩
  refine ⟨_, h', fun name => ?_⟩
  rw [find?_lowerEntries h', find?_lowerEntries h, hfind]

end Maps

/-! ### Programs -/

/-- The programs have the same operations in the same order, and the same fragments by name. -/
structure Program.Alike (q q' : Program) : Prop where
  schema : q'.schema = q.schema
  options : q'.options = q.options
  operations : q'.operations = q.operations
  fragments : ∀ name, q'.fragments.find? name = q.fragments.find? name

section Programs
variable {p p' : Typed.Program} (h : p.Alike p') (steps : Steps)

include h

theorem Operation.ofTyped_alike : Operation.ofTyped steps p' = Operation.ofTyped steps p := by
  have hsources : ∀ operation names,
      fragmentSources p' operation names = fragmentSources p operation names := by
    intro operation names
    unfold fragmentSources
    simp only [h.fragments]
  funext o
  unfold Operation.ofTyped
  simp only [hsources, h.options]

theorem Fragment.ofTyped_alike : Fragment.ofTyped steps p' = Fragment.ofTyped steps p := by
  funext f
  unfold Fragment.ofTyped
  simp only [h.options]

/-- **Programs that are alike are lowered alike.** -/
theorem Program.ofTypedWith_alike {q : Program} (hq : Program.ofTypedWith steps p = .ok q) :
    ∃ q', Program.ofTypedWith steps p' = .ok q' ∧ q.Alike q' := by
  obtain ⟨operations, hoperations, hq⟩ := Success.bind_eq_ok.mp hq
  obtain ⟨fragments, hfragments, hq⟩ := Success.bind_eq_ok.mp hq
  obtain rfl := Except.ok.inj hq
  rw [← h.operations, ← Operation.ofTyped_alike h] at hoperations
  rw [← Fragment.ofTyped_alike h] at hfragments
  obtain ⟨fragments', hfragments', hfind⟩ := lowerEntries_alike h.fragments hfragments
  refine ⟨_, Success.bind_eq_ok.mpr ⟨operations, hoperations,
    Success.bind_eq_ok.mpr ⟨fragments', hfragments', rfl⟩⟩, h.schema, h.options, rfl, hfind⟩

end Programs

end Lowered

/-! ### Documents -/

namespace Document

/-- The documents have the same operations in the same order, and the same fragment definitions in
some order, up to places. -/
structure Reorders (d d' : Document) : Prop where
  operations : d'.operations.map Operation.unplaced = d.operations.map Operation.unplaced
  fragments : (d.fragments.map Fragment.unplaced).Perm (d'.fragments.map Fragment.unplaced)

variable {d d' : Document}

theorem Reorders.symm (h : Reorders d d') : Reorders d' d := ⟨h.operations.symm, h.fragments.symm⟩

theorem Reorders.length (h : Reorders d d') : d'.fragments.length = d.fragments.length := by
  rw [← List.length_map Fragment.unplaced, ← h.fragments.length_eq, List.length_map]

end Document

section Documents
variable {schema : Schema} {d d' : Document} {options : CompilerOptions}

theorem Typed.Program.ofDocument_unplaced_ok {p : Program} :
    Program.ofDocument schema d.unplaced options = .ok p ↔
      Program.ofDocument schema d options = .ok p := by
  rcases Resolve.sameResult_cases (ofDocument_unplaced schema d options) with
    ⟨a, hx, hy⟩ | ⟨e, e', hx, hy, -⟩
  · rw [hx, hy]
  · rw [hx, hy]
    constructor
    · intro h; cases h
    · intro h; cases h

theorem Typed.Program.ofDocument_reorders (h : d.Reorders d')
    (hroom : d.fragments.length ≤ options.maxSelectionDepth.toNat) {p : Program}
    (hp : Program.ofDocument schema d options = .ok p) :
    ∃ p', Program.ofDocument schema d' options = .ok p' ∧ p.Alike p' := by
  have hlength : d.unplaced.fragments.length = d.fragments.length := List.length_map _
  obtain ⟨p', hp', halike⟩ := @ofDocument_perm schema d.unplaced d'.unplaced options h.operations
    h.fragments (by rw [hlength]; exact hroom) p (ofDocument_unplaced_ok.mpr hp)
  exact ⟨p', ofDocument_unplaced_ok.mp hp', halike⟩

theorem Lowered.Program.ofDocument_reorders (h : d.Reorders d')
    (hroom : d.fragments.length ≤ options.maxSelectionDepth.toNat) {q : Program}
    (hq : Program.ofDocument schema d options = .ok q) :
    ∃ q', Program.ofDocument schema d' options = .ok q' ∧ q.Alike q' := by
  obtain ⟨p, hp, -, hlower⟩ := Program.ofDocument_ok hq
  obtain ⟨p', hp', halike⟩ := Typed.Program.ofDocument_reorders h hroom hp
  obtain ⟨q', hq', halike'⟩ := Program.ofTypedWith_alike halike {} hlower
  refine ⟨q', Success.bind_eq_ok.mpr ⟨p', Success.mapError_eq_ok.mpr hp', ?_⟩, halike'⟩
  exact Success.mapError_eq_ok.mpr hq'

end Documents

/-- **The order of fragment definitions does not matter to operations**, if the limit leaves room for
all definitions. Of two documents with the same operations, and the same fragments in some order, both
are resolved or both are not, and then to the same operations and fragments; both are compiled or both
are not, and then to the same operations. -/
theorem Lowered.Program.ofDocument_reordered (schema : Schema) {d d' : Document}
    {options : CompilerOptions} (h : d.Reorders d')
    (hroom : d.fragments.length ≤ options.maxSelectionDepth.toNat) :
    Agree Typed.Program.Alike (Typed.Program.ofDocument schema d options)
        (Typed.Program.ofDocument schema d' options) ∧
      Agree Program.Alike (Program.ofDocument schema d options)
        (Program.ofDocument schema d' options) := by
  have hroom' : d'.fragments.length ≤ options.maxSelectionDepth.toNat := h.length ▸ hroom
  refine ⟨Success.agree_of (fun p hp => ?_) fun p' hp' => ?_,
    Success.agree_of (fun q hq => ?_) fun q' hq' => ?_⟩
  · exact Typed.Program.ofDocument_reorders h hroom hp
  · obtain ⟨p, hp, -⟩ := Typed.Program.ofDocument_reorders h.symm hroom' hp'
    exact ⟨p, hp⟩
  · exact Program.ofDocument_reorders h hroom hq
  · obtain ⟨q, hq, -⟩ := Program.ofDocument_reorders h.symm hroom' hq'
    exact ⟨q, hq⟩

/-- The document with its fragments the other way round. -/
def upsideDown : Document :=
  { Typed.nodeDocument with fragments := Typed.nodeDocument.fragments.reverse }

theorem Lowered.Program.ofDocument_reordered_nodes : ∃ q q',
    Program.ofDocument Typed.nodeSchema Typed.nodeDocument {} = .ok q ∧
    Program.ofDocument Typed.nodeSchema upsideDown {} = .ok q' ∧
    q'.fragments.keys = q.fragments.keys.reverse ∧ q'.operations = q.operations := by
  have hreorders : Typed.nodeDocument.Reorders upsideDown :=
    ⟨rfl, ((List.reverse_perm _).map _).symm⟩
  have hok : (Program.ofDocument Typed.nodeSchema Typed.nodeDocument {}).toOption.any (fun q =>
      (Program.ofDocument Typed.nodeSchema upsideDown {}).toOption.any fun q' =>
        q'.fragments.keys == q.fragments.keys.reverse) = true := by decide +kernel
  cases hq : Program.ofDocument Typed.nodeSchema Typed.nodeDocument {} with
  | error e => rw [hq] at hok; cases hok
  | ok q =>
    obtain ⟨q', hq', halike⟩ :=
      (ofDocument_reordered Typed.nodeSchema hreorders (by decide)).2.exists_of_ok hq
    rw [hq, hq'] at hok
    exact ⟨q, q', rfl, hq', eq_of_beq hok, halike.operations⟩

end QueryCompiler
