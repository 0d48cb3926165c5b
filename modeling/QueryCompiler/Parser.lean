/-!
# Parsers that say whether they consume

A parser reads something from the front of an input and leaves the rest, or fails. Its type says
whether it always consumes: a `Parser σ ε true α` leaves strictly less than it was given, a
`Parser σ ε false α` leaves no more. A sequence consumes if one of its parts does. So a parser that
consumes can be repeated, and the repetition ends.

* `Parser.bind`, `Parser.map`: sequences.
* `Parser.whileM`: one parser again and again, as long as the input starts as asked.
* `run_whileM_stop`, `run_whileM_step`: what one round of the repetition does.
-/

namespace QueryCompiler

/-- Inputs whose length is known. -/
class Sized (σ : Type) where
  /-- How much is left. -/
  size : σ → Nat

/-- A parser on inputs `σ` with failures `ε`; `consumes` tells whether it always takes something. -/
structure Parser (σ ε : Type) [Sized σ] (consumes : Bool) (α : Type) where
  /-- What is read, and the rest of the input. -/
  run : σ → Except ε (α × σ)
  /-- The rest is smaller if the parser consumes, and no larger in any case. -/
  size_le : ∀ {s a r}, run s = .ok (a, r) → Sized.size r + consumes.toNat ≤ Sized.size s

namespace Parser

variable {σ ε : Type} [Sized σ] {b c : Bool} {α β : Type}

/-- Reads nothing and gives a value. -/
def pure (a : α) : Parser σ ε false α where
  run s := .ok (a, s)
  size_le h := by cases h; simp

/-- Fails, with a failure that may depend on the input. -/
def failWith (f : σ → ε) : Parser σ ε b α where
  run s := .error (f s)
  size_le h := by cases h

/-- Reads nothing and gives a value that depends on the input. -/
def look (f : σ → α) : Parser σ ε false α where
  run s := .ok (f s, s)
  size_le h := by cases h; simp

/-- One parser, then another that may depend on what the first has read. -/
def bind (p : Parser σ ε b α) (f : α → Parser σ ε c β) : Parser σ ε (b || c) β where
  run s := match p.run s with
    | .error e => .error e
    | .ok (a, r) => (f a).run r
  size_le {s x r} h := by
    split at h
    · cases h
    · rename_i a r' hp
      have h₁ := p.size_le hp
      have h₂ := (f a).size_le h
      cases b <;> cases c <;> simp at * <;> omega

/-- A parser and a function on what it reads. -/
def map (f : α → β) (p : Parser σ ε b α) : Parser σ ε b β where
  run s := match p.run s with
    | .error e => .error e
    | .ok (a, r) => .ok (f a, r)
  size_le {s x r} h := by
    split at h
    · cases h
    · rename_i a r' hp
      cases h
      exact p.size_le hp

/-- A parser of which nothing is known any more about what it consumes. -/
def relax (p : Parser σ ε b α) : Parser σ ε false α where
  run := p.run
  size_le h := by have := p.size_le h; simp; omega

/-- The rounds of a repetition, with the items of the rounds before, the last one first. -/
def loop (starts : σ → Bool) (item : Parser σ ε true α) (items : List α) (s : σ) :
    Except ε (List α × σ) :=
  if starts s then
    match _h : item.run s with
    | .error e => .error e
    | .ok (a, r) => loop starts item (a :: items) r
  else .ok (items.reverse, s)
termination_by Sized.size s
decreasing_by have := item.size_le ‹_›; simp at this; omega

theorem size_loop_le {starts : σ → Bool} {item : Parser σ ε true α} {items as : List α} {s r : σ}
    (h : loop starts item items s = .ok (as, r)) : Sized.size r ≤ Sized.size s := by
  fun_induction loop starts item items s with
  | case1 => cases h
  | case2 items s _ a r' hi ih =>
    have := item.size_le hi
    have := ih h
    simp at *; omega
  | case3 => cases h; exact Nat.le_refl _

/-- The items that follow one another as long as the input starts as asked. -/
def whileM (starts : σ → Bool) (item : Parser σ ε true α) : Parser σ ε false (List α) where
  run s := loop starts item [] s
  size_le h := by simpa using size_loop_le h

/-! ### Running -/

@[simp] theorem run_pure (a : α) (s : σ) : (pure a : Parser σ ε false α).run s = .ok (a, s) := rfl

@[simp] theorem run_failWith (f : σ → ε) (s : σ) :
    (failWith f : Parser σ ε b α).run s = .error (f s) := rfl

@[simp] theorem run_look (f : σ → α) (s : σ) :
    (look f : Parser σ ε false α).run s = .ok (f s, s) := rfl

theorem run_bind (p : Parser σ ε b α) (f : α → Parser σ ε c β) (s : σ) :
    (p.bind f).run s = (p.run s).bind fun x => (f x.1).run x.2 := by
  unfold bind Except.bind
  dsimp only
  cases p.run s <;> rfl

theorem run_map (f : α → β) (p : Parser σ ε b α) (s : σ) :
    (p.map f).run s = (p.run s).map fun x => (f x.1, x.2) := by
  unfold map Except.map
  dsimp only
  cases p.run s <;> rfl

@[simp] theorem run_relax (p : Parser σ ε b α) (s : σ) : p.relax.run s = p.run s := rfl

/-- One round of a repetition. -/
theorem loop_eq (starts : σ → Bool) (item : Parser σ ε true α) (items : List α) (s : σ) :
    loop starts item items s =
      if starts s then (item.run s).bind fun x => loop starts item (x.1 :: items) x.2
      else .ok (items.reverse, s) := by
  rw [loop]
  split
  · split <;> rename_i h <;> rw [h] <;> rfl
  · rfl

theorem loop_items (starts : σ → Bool) (item : Parser σ ε true α) (items : List α) (s : σ) :
    loop starts item items s =
      (loop starts item [] s).map fun x => (items.reverse ++ x.1, x.2) := by
  induction hn : Sized.size s using Nat.strongRecOn generalizing s items with
  | ind n ih =>
    rw [loop_eq, loop_eq starts item []]
    split
    · cases hi : item.run s with
      | error e => rfl
      | ok x =>
        have hlt := item.size_le hi
        simp only [Bool.toNat_true] at hlt
        simp only [Except.bind]
        rw [ih _ (by omega) (x.1 :: items) x.2 rfl, ih _ (by omega) [x.1] x.2 rfl]
        cases loop starts item [] x.2 <;> simp [Except.map]
    · simp [Except.map]

/-- **A repetition stops where the input does not start as asked.** -/
theorem run_whileM_stop {starts : σ → Bool} {item : Parser σ ε true α} {s : σ}
    (h : starts s = false) : (whileM starts item).run s = .ok ([], s) := by
  show loop starts item [] s = _
  rw [loop_eq, if_neg (by simp [h])]; rfl

/-- **Otherwise it reads an item and goes on.** -/
theorem run_whileM_step {starts : σ → Bool} {item : Parser σ ε true α} {s : σ}
    (h : starts s = true) :
    (whileM starts item).run s = (item.run s).bind fun x =>
      ((whileM starts item).run x.2).map fun y => (x.1 :: y.1, y.2) := by
  show loop starts item [] s = _
  rw [loop_eq, if_pos h]
  congr 1
  funext x
  exact loop_items starts item [x.1] x.2

end Parser

end QueryCompiler
