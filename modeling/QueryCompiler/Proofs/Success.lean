import Mathlib.Data.List.Forall2

/-!
# Computations that succeed or fail

What the success of a computation in `Except` says about its parts: a sequence succeeds if both
steps do (`bind_eq_ok`), and a traversal succeeds if every item does (`mapM_eq_ok`). A computation
fails with errors of some kind only (`FailsOnly`) if all its parts do.
-/

namespace QueryCompiler.Success

variable {ε α β : Type}

theorem bind_eq_ok {x : Except ε α} {f : α → Except ε β} {b : β} :
    x >>= f = .ok b ↔ ∃ a, x = .ok a ∧ f a = .ok b := by
  cases x with
  | error e =>
    constructor
    · intro h; cases h
    · rintro ⟨a, h, -⟩; cases h
  | ok a =>
    refine ⟨fun h => ⟨a, rfl, h⟩, fun ⟨a', h, hf⟩ => ?_⟩
    cases h; exact hf

theorem mapError_eq_ok {ε' : Type} {f : ε → ε'} {x : Except ε α} {a : α} :
    x.mapError f = .ok a ↔ x = .ok a := by
  cases x with
  | error e =>
    constructor
    · intro h; cases h
    · intro h; cases h
  | ok b =>
    constructor
    · intro h; exact congrArg Except.ok (Except.ok.inj h)
    · intro h; exact congrArg Except.ok (Except.ok.inj h)

theorem toOption_eq_some {x : Except ε α} {a : α} : x.toOption = some a ↔ x = .ok a := by
  cases x with
  | error e =>
    constructor
    · intro h; cases h
    · intro h; cases h
  | ok b =>
    constructor
    · intro h; exact congrArg Except.ok (Option.some.inj h)
    · intro h; exact congrArg some (Except.ok.inj h)

theorem mapM_eq_ok {f : α → Except ε β} {as : List α} {bs : List β} :
    as.mapM f = .ok bs ↔ List.Forall₂ (fun a b => f a = .ok b) as bs := by
  induction as generalizing bs with
  | nil =>
    rw [List.mapM_nil, List.forall₂_nil_left_iff]
    exact ⟨fun h => (Except.ok.inj h).symm, fun h => congrArg Except.ok h.symm⟩
  | cons a as ih =>
    rw [List.mapM_cons, bind_eq_ok, List.forall₂_cons_left_iff]
    constructor
    · rintro ⟨b, hb, h⟩
      obtain ⟨bs', hbs, h⟩ := bind_eq_ok.mp h
      exact ⟨b, bs', hb, ih.mp hbs, (Except.ok.inj h).symm⟩
    · rintro ⟨b, bs', hb, hbs, rfl⟩
      exact ⟨b, hb, bind_eq_ok.mpr ⟨bs', ih.mpr hbs, rfl⟩⟩

/-- Relations of lists compose. -/
theorem forall₂_comp {γ : Type} {R : α → β → Prop} {S : β → γ → Prop} {as : List α} {bs : List β}
    {cs : List γ} (h : List.Forall₂ R as bs) (h' : List.Forall₂ S bs cs) :
    List.Forall₂ (fun a c => ∃ b, R a b ∧ S b c) as cs := by
  induction h generalizing cs with
  | nil =>
    cases h'
    exact .nil
  | cons hab _ ih =>
    cases h' with
    | cons hbc h' => exact .cons ⟨_, hab, hbc⟩ (ih h')

/-- What stands on the right of a relation of lists comes from the left. -/
theorem exists_of_mem_right {R : α → β → Prop} {as : List α} {bs : List β}
    (h : List.Forall₂ R as bs) {b : β} (hb : b ∈ bs) : ∃ a ∈ as, R a b := by
  induction h with
  | nil => cases hb
  | cons hab _ ih =>
    rcases List.mem_cons.mp hb with rfl | hb
    · exact ⟨_, List.mem_cons_self, hab⟩
    · obtain ⟨a, ha, hr⟩ := ih hb
      exact ⟨a, List.mem_cons_of_mem _ ha, hr⟩

/-- What is written item by item is read back item by item, in any monad. -/
theorem mapM_of_inverse {m : Type → Type} [Monad m] [LawfulMonad m] {encode : α → β}
    {decode : β → m α} : ∀ {as : List α}, (∀ a ∈ as, decode (encode a) = pure a) →
      (as.map encode).mapM decode = pure as
  | [], _ => List.mapM_nil
  | a :: as, h => by
    rw [List.map_cons, List.mapM_cons, h a List.mem_cons_self, pure_bind,
      mapM_of_inverse fun a' ha => h a' (List.mem_cons_of_mem _ ha), pure_bind]

theorem mem_of_mapM {f : α → Except ε β} {as : List α} {bs : List β} (h : as.mapM f = .ok bs)
    {b : β} (hb : b ∈ bs) : ∃ a ∈ as, f a = .ok b :=
  exists_of_mem_right (mapM_eq_ok.mp h) hb

theorem exists_mem_of_mapM {f : α → Except ε β} {as : List α} {bs : List β}
    (h : as.mapM f = .ok bs) {a : α} (ha : a ∈ as) : ∃ b ∈ bs, f a = .ok b :=
  exists_of_mem_right (mapM_eq_ok.mp h).flip ha

theorem exists_mapM_eq_ok {f : α → Except ε β} : ∀ {as : List α}, (∀ a ∈ as, ∃ b, f a = .ok b) →
    ∃ bs, as.mapM f = .ok bs
  | [], _ => ⟨[], List.mapM_nil⟩
  | a :: as, h => by
    obtain ⟨b, hb⟩ := h a List.mem_cons_self
    obtain ⟨bs, hbs⟩ := exists_mapM_eq_ok fun a' ha => h a' (List.mem_cons_of_mem _ ha)
    exact ⟨b :: bs, mapM_eq_ok.mpr (.cons hb (mapM_eq_ok.mp hbs))⟩

/-! ### Two computations -/

/-- What follows a computation matters only where the computation succeeds. -/
theorem bind_congr {x : Except ε α} {f g : α → Except ε β} (h : ∀ a, x = .ok a → f a = g a) :
    x >>= f = x >>= g := by
  cases x with
  | error e => rfl
  | ok a => exact h a rfl

theorem mapM_congr {f g : α → Except ε β} {as : List α} (h : ∀ a ∈ as, f a = g a) :
    as.mapM f = as.mapM g := by
  induction as with
  | nil => rfl
  | cons a as ih =>
    rw [List.forall_mem_cons] at h
    rw [List.mapM_cons, List.mapM_cons, h.1, ih h.2]

/-- Both computations fail, or both succeed with results that are related. -/
def Agree (R : α → β → Prop) : Except ε α → Except ε β → Prop
  | .ok a, .ok b => R a b
  | .error _, .error _ => True
  | _, _ => False

theorem agree_of {R : α → β → Prop} {x : Except ε α} {y : Except ε β}
    (h : ∀ a, x = .ok a → ∃ b, y = .ok b ∧ R a b) (h' : ∀ b, y = .ok b → ∃ a, x = .ok a) :
    Agree R x y := by
  cases x with
  | ok a =>
    obtain ⟨b, rfl, hab⟩ := h a rfl
    exact hab
  | error e =>
    cases y with
    | error e' => trivial
    | ok b =>
      obtain ⟨a, ha⟩ := h' b rfl
      cases ha

theorem Agree.exists_of_ok {R : α → β → Prop} {x : Except ε α} {y : Except ε β} (h : Agree R x y)
    {a : α} (ha : x = .ok a) : ∃ b, y = .ok b ∧ R a b := by
  subst ha
  cases y with
  | ok b => exact ⟨b, rfl, h⟩
  | error e => cases h

/-! ### Failure -/

/-- The error of a computation that fails. -/
def error? : Except ε α → Option ε
  | .ok _ => none
  | .error e => some e

theorem error?_eq_some {x : Except ε α} {e : ε} : error? x = some e ↔ x = .error e := by
  cases x <;> simp [error?]

/-- Whatever the computation fails with is such an error. -/
def FailsOnly (P : ε → Prop) (x : Except ε α) : Prop := ∀ e, x = .error e → P e

section FailsOnly
variable {P : ε → Prop}

theorem FailsOnly.mono {Q : ε → Prop} {x : Except ε α} (h : FailsOnly P x)
    (hi : ∀ e, P e → Q e) : FailsOnly Q x := fun e he => hi e (h e he)

theorem failsOnly_ok (a : α) : FailsOnly P (.ok a : Except ε α) := by
  intro e h
  cases h

theorem failsOnly_error {e : ε} (h : P e) : FailsOnly P (.error e : Except ε α) := by
  intro e' h'
  cases h'
  exact h

theorem FailsOnly.bind {x : Except ε α} {f : α → Except ε β} (hx : FailsOnly P x)
    (hf : ∀ a, x = .ok a → FailsOnly P (f a)) : FailsOnly P (x >>= f) := by
  cases x with
  | error e => exact failsOnly_error (hx e rfl)
  | ok a => exact hf a rfl

theorem FailsOnly.mapError {ε' : Type} {Q : ε' → Prop} {f : ε → ε'} {x : Except ε α}
    (hx : FailsOnly P x) (hf : ∀ e, P e → Q (f e)) : FailsOnly Q (x.mapError f) := by
  cases x with
  | error e => exact failsOnly_error (hf e (hx e rfl))
  | ok a => exact failsOnly_ok a

theorem FailsOnly.mapM {f : α → Except ε β} : ∀ {as : List α}, (∀ a ∈ as, FailsOnly P (f a)) →
    FailsOnly P (as.mapM f)
  | [], _ => by rw [List.mapM_nil]; exact failsOnly_ok _
  | a :: as, h => by
    rw [List.mapM_cons]
    exact (h a List.mem_cons_self).bind fun b _ =>
      (FailsOnly.mapM fun a' ha => h a' (List.mem_cons_of_mem _ ha)).bind fun bs _ => failsOnly_ok _

theorem FailsOnly.foldlM {f : β → α → Except ε β} : ∀ {as : List α} {b : β},
    (∀ b, ∀ a ∈ as, FailsOnly P (f b a)) → FailsOnly P (as.foldlM f b)
  | [], _, _ => failsOnly_ok _
  | a :: as, b, h => by
    rw [List.foldlM_cons]
    exact (h b a List.mem_cons_self).bind fun b' _ =>
      FailsOnly.foldlM fun b a' ha => h b a' (List.mem_cons_of_mem _ ha)

end FailsOnly

end QueryCompiler.Success
