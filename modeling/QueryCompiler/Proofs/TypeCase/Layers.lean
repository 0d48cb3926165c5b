import QueryCompiler.Proofs.TypeCase.Insides

/-!
# The layers of a type case

The fields of the default record go to every other record: to the old ones when the field is added,
and to a new one when it is made. So a record never has less than the default record.

* `Includes`: the fields have the response keys of others, and are unconditional where those are.
  Adding one field to both keeps this (`Includes.addField`).
* `IsLayer`: the response keys are distinct, and the fields include those below. In a `Layered` case
  every record is a layer on top of the default one.
* `walkAll_keeps`: a walk keeps what registering and adding keep.
* `typeCaseOf_layered`: so the case of a set that is lowered is layered.
-/

namespace QueryCompiler

namespace Typed

/-! ### Response keys -/

/-- The response keys of fields, in order. -/
def keysOf (fields : List Field) : List Text := fields.map fun f => f.head.responseKey

/-- A field with a new key comes last, and any other changes no keys. -/
theorem keysOf_addField (fields : List Field) (field : Field) : keysOf (addField fields field) =
    if field.head.responseKey ∈ keysOf fields then keysOf fields
    else keysOf fields ++ [field.head.responseKey] := by
  induction fields with
  | nil => rfl
  | cons first rest ih =>
    rw [addField]
    by_cases hkey : first.head.responseKey = field.head.responseKey
    · rw [if_pos hkey, if_pos (hkey ▸ List.mem_cons_self)]
      rfl
    · have hmem : field.head.responseKey ∈ keysOf (first :: rest) ↔
          field.head.responseKey ∈ keysOf rest :=
        List.mem_cons.trans (or_iff_right fun h => hkey h.symm)
      rw [if_neg hkey, if_congr hmem rfl rfl]
      show first.head.responseKey :: keysOf (addField rest field) = _
      rw [ih]
      split_ifs <;> rfl

theorem nodup_keysOf_addField {fields : List Field} (h : (keysOf fields).Nodup) (field : Field) :
    (keysOf (addField fields field)).Nodup := by
  rw [keysOf_addField]
  split_ifs with hmem
  · exact h
  · exact OrderedMap.nodup_concat h hmem

/-! ### Fields that include others -/

/-- The field has the response key of the other one, and it is unconditional if that one is. -/
def Field.Provides (g f : Field) : Prop :=
  g.head.responseKey = f.head.responseKey ∧
    (f.head.isConditional = false → g.head.isConditional = false)

/-- Every field is provided by one of the others. -/
def Includes (fields others : List Field) : Prop := ∀ f ∈ fields, ∃ g ∈ others, g.Provides f

theorem Field.Provides.refl (f : Field) : f.Provides f := ⟨rfl, id⟩

theorem includes_refl (fields : List Field) : Includes fields fields :=
  fun f hf => ⟨f, hf, .refl f⟩

section Merge
variable {f g first : Field}

/-- A field that is merged into another one is conditional only if both are. -/
theorem provides_merge (hkey : first.head.responseKey = g.head.responseKey) :
    (first.merge g).Provides f ↔ first.Provides f ∨ g.Provides f := by
  have hflag : (first.merge g).head.isConditional = false ↔
      first.head.isConditional = false ∨ g.head.isConditional = false := Bool.and_eq_false_iff
  simp only [Field.Provides, hflag, ← hkey]
  show first.head.responseKey = f.head.responseKey ∧ _ ↔ _
  tauto

theorem merge_provided {h : Field} (hfirst : h.Provides first)
    (hg : g.head.isConditional = true) : h.Provides (first.merge g) := by
  refine ⟨hfirst.1, fun hflag => hfirst.2 ?_⟩
  have hflag : (first.head.isConditional && g.head.isConditional) = false := hflag
  rwa [hg, Bool.and_true] at hflag

theorem provided_addField {fields : List Field} :
    (∃ h ∈ addField fields g, h.Provides f) ↔ (∃ h ∈ fields, h.Provides f) ∨ g.Provides f := by
  induction fields with
  | nil => simp [addField]
  | cons first rest ih =>
    rw [addField]
    split_ifs with hkey
    · rw [List.exists_mem_cons_iff, List.exists_mem_cons_iff, provides_merge hkey, or_right_comm]
    · rw [List.exists_mem_cons_iff, List.exists_mem_cons_iff, ih, or_assoc]

theorem mem_addField {fields : List Field} (h : f ∈ addField fields g) :
    f ∈ fields ∨ f = g ∨
      ∃ first ∈ fields, first.head.responseKey = g.head.responseKey ∧ f = first.merge g := by
  induction fields with
  | nil => exact Or.inr (Or.inl (List.mem_singleton.mp h))
  | cons first rest ih =>
    rw [addField] at h
    split_ifs at h with hkey
    · rcases List.mem_cons.mp h with rfl | h
      · exact Or.inr (Or.inr ⟨first, List.mem_cons_self, hkey, rfl⟩)
      · exact Or.inl (List.mem_cons_of_mem _ h)
    · rcases List.mem_cons.mp h with rfl | h
      · exact Or.inl List.mem_cons_self
      · refine (ih h).imp (List.mem_cons_of_mem _) (Or.imp_right ?_)
        rintro ⟨first', hfirst, he⟩
        exact ⟨first', List.mem_cons_of_mem _ hfirst, he⟩

end Merge

section Includes
variable {fields others : List Field}

theorem Includes.addField_right (h : Includes fields others) (field : Field) :
    Includes fields (addField others field) :=
  fun f hf => provided_addField.mpr (Or.inl (h f hf))

/-- **What includes fields still does when one more is added to both.** -/
theorem Includes.addField (h : Includes fields others) (field : Field) :
    Includes (addField fields field) (addField others field) := by
  intro f hf
  rw [provided_addField]
  rcases mem_addField hf with hf | rfl | ⟨first, hfirst, hkey, rfl⟩
  · exact Or.inl (h f hf)
  · exact Or.inr (.refl f)
  · cases hflag : field.head.isConditional with
    | true =>
      obtain ⟨g, hg, hprovides⟩ := h first hfirst
      exact Or.inl ⟨g, hg, merge_provided hprovides hflag⟩
    | false => exact Or.inr ⟨hkey.symm, fun _ => hflag⟩

end Includes

/-! ### Layers -/

/-- The response keys of the fields are distinct, and the fields include those below. -/
structure IsLayer (below fields : List Field) : Prop where
  distinct : (keysOf fields).Nodup
  includes : Includes below fields

section IsLayer
variable {below fields : List Field}

theorem isLayer_self (h : (keysOf fields).Nodup) : IsLayer fields fields := ⟨h, includes_refl fields⟩

theorem IsLayer.addField (h : IsLayer below fields) (field : Field) :
    IsLayer (addField below field) (addField fields field) :=
  ⟨nodup_keysOf_addField h.distinct field, h.includes.addField field⟩

theorem IsLayer.addField_right (h : IsLayer below fields) (field : Field) :
    IsLayer below (Typed.addField fields field) :=
  ⟨nodup_keysOf_addField h.distinct field, h.includes.addField_right field⟩

end IsLayer

/-- The default record is a layer by itself, and every other record is one on top of it. -/
structure TypeCase.Layered (c : TypeCase) : Prop where
  default : (keysOf c.default.fields).Nodup
  records : ∀ r ∈ c.records, IsLayer c.default.fields r.fields

theorem TypeCase.layered_start (types : List Text) : (TypeCase.start types).Layered :=
  ⟨List.nodup_nil, fun _ h => absurd h List.not_mem_nil⟩

/-- **A new record starts with the fields of the default one.** -/
theorem TypeCase.Layered.register {c : TypeCase} (h : c.Layered) (subset : List Text) :
    (c.register subset).Layered := by
  refine ⟨by rw [default_register]; exact h.default, fun r hr => ?_⟩
  rw [default_register]
  rcases fields_register hr with ⟨r', hr', he⟩ | he
  · rw [he]
    exact h.records r' hr'
  · rw [he]
    exact isLayer_self h.default

/-- **A field of the default record goes to all others.** -/
theorem TypeCase.Layered.add {c : TypeCase} (h : c.Layered) (types : List Text) (field : Field) :
    (c.add types field).Layered := by
  rcases fields_add c types field with ⟨hdefault, hrecords⟩ | ⟨hdefault, hrecords⟩
  · refine ⟨by rw [hdefault]; exact nodup_keysOf_addField h.default field, fun r hr => ?_⟩
    obtain ⟨r', hr', he⟩ := hrecords r hr
    rw [hdefault, he]
    exact (h.records r' hr').addField field
  · refine ⟨by rw [hdefault]; exact h.default, fun r hr => ?_⟩
    have hregister := (h.register types).records
    rw [default_register] at hregister
    obtain ⟨r', hr', he | he⟩ := hrecords r hr
    · rw [hdefault, he]
      exact hregister r' hr'
    · rw [hdefault, he]
      exact (hregister r' hr').addField_right field

/-! ### The walk -/

/-- What holds of a case still does after a registration and after an addition. -/
structure TypeCase.IsKept (P : TypeCase → Prop) : Prop where
  register : ∀ c subset, P c → P (c.register subset)
  add : ∀ c types field, P c → P (c.add types field)

section Keeps
variable {P : TypeCase → Prop}

mutual

theorem Selection.walk_keeps (hP : TypeCase.IsKept P) {types : List Text} {conditional : Bool}
    {c c' : TypeCase} (hc : P c) : ∀ {s : Selection}, s.walk types conditional c = .ok c' → P c'
  | .field head nested, h => by
    obtain rfl := Except.ok.inj h
    exact hP.add c types _ hc
  | .typeCondition _ none, h => by cases h
  | .typeCondition _ (some (.mk possibleTypes selections)), h => by
    rw [Selection.walk] at h
    split_ifs at h
    · obtain rfl := Except.ok.inj h
      exact hc
    · exact walkAll_keeps hP (hP.register c _ hc) h
  | .booleanCondition _ _ none, h => by cases h
  | .booleanCondition _ _ (some (.mk _ selections)), h => walkAll_keeps hP hc h
  | .spread _ _ _, h => by
    obtain rfl := Except.ok.inj h
    exact hc

/-- **A walk keeps what holds of a case** if registering and adding do. -/
theorem walkAll_keeps (hP : TypeCase.IsKept P) {types : List Text} {conditional : Bool}
    {c c' : TypeCase} (hc : P c) : ∀ {selections : List Selection},
      walkAll types conditional c selections = .ok c' → P c'
  | [], h => by
    obtain rfl := Except.ok.inj h
    exact hc
  | s :: rest, h => by
    rw [walkAll] at h
    obtain ⟨c₁, h₁, h₂⟩ := Success.bind_eq_ok.mp h
    exact walkAll_keeps hP (s.walk_keeps hP hc h₁) h₂

end

end Keeps

theorem TypeCase.isKept_layered : TypeCase.IsKept TypeCase.Layered :=
  ⟨fun _ subset h => h.register subset, fun _ types field h => h.add types field⟩

theorem SelectionSet.typeCase_layered {s : SelectionSet} {c : TypeCase} (h : s.typeCase = .ok c) :
    c.Layered :=
  walkAll_keeps TypeCase.isKept_layered (TypeCase.layered_start _) h

end Typed

namespace Lowered

open Typed

/-- **The case of a set that is lowered is layered**, with spreads entered or not. -/
theorem typeCaseOf_layered {spreads : Bool} {limit : Nat} {s : SelectionSet} {c : TypeCase}
    (h : typeCaseOf ⟨{}, spreads, limit⟩ s = .ok c) : c.Layered := by
  cases spreads with
  | false => exact SelectionSet.typeCase_layered h
  | true => exact SelectionSet.typeCase_layered (s := s.inlined) h

end Lowered

end QueryCompiler
