import QueryCompiler.Proofs.Source.Lexing

/-!
# What readers take and what they need

Two ways to speak about a reader. `Takes`: what the reader gives is related to the tokens that it has
taken. `Reads`: from a scan, the reader succeeds with a result that is as asked. Both follow the
reader through sequences and repetitions (`Takes.whileM`, `reads_whileM`).
-/

namespace QueryCompiler

namespace Parser

variable {σ ε : Type} [Sized σ] {b c : Bool} {α β : Type}

theorem bind_eq_ok {p : Parser σ ε b α} {f : α → Parser σ ε c β} {s r : σ} {y : β} :
    (p.bind f).run s = .ok (y, r) ↔ ∃ a m, p.run s = .ok (a, m) ∧ (f a).run m = .ok (y, r) := by
  rw [run_bind]
  constructor
  · intro h
    obtain ⟨⟨a, m⟩, hp, hf⟩ := Success.bind_eq_ok.mp h
    exact ⟨a, m, hp, hf⟩
  · rintro ⟨a, m, hp, hf⟩
    exact Success.bind_eq_ok.mpr ⟨(a, m), hp, hf⟩

theorem map_eq_ok {p : Parser σ ε b α} {f : α → β} {s r : σ} {y : β} :
    (p.map f).run s = .ok (y, r) ↔ ∃ a, p.run s = .ok (a, r) ∧ f a = y := by
  rw [run_map]
  cases p.run s with
  | error e =>
    constructor
    · intro h; cases h
    · rintro ⟨a, h, -⟩; cases h
  | ok x =>
    constructor
    · intro h; cases h; exact ⟨x.1, rfl, rfl⟩
    · rintro ⟨a, h, rfl⟩; cases h; rfl

theorem pure_eq_ok {a x : α} {s r : σ} :
    (pure a : Parser σ ε false α).run s = .ok (x, r) ↔ x = a ∧ r = s := by
  rw [run_pure]
  constructor
  · intro h; cases h; exact ⟨rfl, rfl⟩
  · rintro ⟨rfl, rfl⟩; rfl

/-- The parser succeeds with a result that is as asked. -/
def Reads (p : Parser σ ε b α) (s : σ) (post : α → σ → Prop) : Prop :=
  ∃ a r, p.run s = .ok (a, r) ∧ post a r

theorem Reads.imp {p : Parser σ ε b α} {s : σ} {post post' : α → σ → Prop} (h : p.Reads s post)
    (hi : ∀ a r, post a r → post' a r) : p.Reads s post' := by
  obtain ⟨a, r, hp, hpost⟩ := h
  exact ⟨a, r, hp, hi a r hpost⟩

theorem reads_bind {p : Parser σ ε b α} {f : α → Parser σ ε c β} {s : σ} {post : β → σ → Prop}
    (h : p.Reads s fun a m => (f a).Reads m post) : (p.bind f).Reads s post := by
  obtain ⟨a, m, hp, y, r, hf, hpost⟩ := h
  exact ⟨y, r, bind_eq_ok.mpr ⟨a, m, hp, hf⟩, hpost⟩

theorem reads_map {p : Parser σ ε b α} {f : α → β} {s : σ} {post : β → σ → Prop}
    (h : p.Reads s fun a r => post (f a) r) : (p.map f).Reads s post := by
  obtain ⟨a, r, hp, hpost⟩ := h
  exact ⟨f a, r, map_eq_ok.mpr ⟨a, hp, rfl⟩, hpost⟩

theorem reads_pure {a : α} {s : σ} {post : α → σ → Prop} (h : post a s) :
    (pure a : Parser σ ε false α).Reads s post := ⟨a, s, rfl, h⟩

theorem reads_look {f : σ → α} {s : σ} {post : α → σ → Prop} (h : post (f s) s) :
    (look f : Parser σ ε false α).Reads s post := ⟨f s, s, rfl, h⟩

theorem reads_relax {p : Parser σ ε b α} {s : σ} {post : α → σ → Prop} (h : p.Reads s post) :
    p.relax.Reads s post := h

end Parser

/-! ### Tokens that are taken -/

namespace Scan

/-- From one scan to a later one, the tokens are taken. -/
structure Leaves (s : Scan) (tokens : List Token) (r : Scan) : Prop where
  tokens_eq : s.tokens = tokens ++ r.tokens
  ending_eq : s.ending = r.ending

theorem Leaves.refl (s : Scan) : s.Leaves [] s := ⟨rfl, rfl⟩

theorem Leaves.trans {s m r : Scan} {tokens tokens' : List Token} (h : s.Leaves tokens m)
    (h' : m.Leaves tokens' r) : s.Leaves (tokens ++ tokens') r :=
  ⟨by rw [h.tokens_eq, h'.tokens_eq, List.append_assoc], h.ending_eq.trans h'.ending_eq⟩

theorem next?_eq (s : Scan) : s.next? = s.tokens.head? := by
  unfold next? tokens
  cases s.lexemes <;> rfl

theorem Leaves.next? {s r : Scan} {token : Token} {tokens : List Token}
    (h : s.Leaves (token :: tokens) r) : s.next? = some token := by
  rw [next?_eq, h.tokens_eq]; rfl

theorem isComplete_iff {s : Scan} : s.isComplete = true ↔ ∃ l, s.ending = .finished l := by
  unfold isComplete
  cases s.ending with
  | finished l => exact ⟨fun _ => ⟨l, rfl⟩, fun _ => rfl⟩
  | stuck c l e => exact ⟨fun h => (by cases h), fun ⟨_, h⟩ => (by cases h)⟩

theorem Holds.next? {s : Scan} {tokens : List Token} (h : s.Holds tokens) :
    s.next? = tokens.head? := by
  rw [next?_eq, h.tokens_eq]

theorem Holds.startsWith {s : Scan} {tokens : List Token} (h : s.Holds tokens) (p : Punctuator) :
    s.startsWith p = (tokens.head? == some (.punctuator p)) := by
  rw [Scan.startsWith, h.next?]

theorem Holds.atEnd {s : Scan} {tokens : List Token} (h : s.Holds tokens) :
    s.atEnd = tokens.isEmpty := by
  obtain ⟨l, hl⟩ := isComplete_iff.mp h.isComplete
  have ht := h.tokens_eq
  unfold Scan.atEnd
  unfold Scan.tokens at ht
  rw [hl]
  cases hs : s.lexemes with
  | nil => rw [hs] at ht; rw [← ht]; rfl
  | cons x xs => rw [hs] at ht; rw [← ht]; rfl

/-- A scan that is at its end has no tokens. -/
theorem tokens_of_atEnd {s : Scan} (h : s.atEnd = true) : s.tokens = [] := by
  unfold Scan.atEnd at h
  unfold Scan.tokens
  cases hs : s.lexemes with
  | nil => rfl
  | cons x xs => rw [hs] at h; cases h

theorem isComplete_of_atEnd {s : Scan} (h : s.atEnd = true) : s.isComplete = true := by
  unfold Scan.atEnd at h
  unfold Scan.isComplete
  cases hs : s.lexemes with
  | nil =>
    cases he : s.ending with
    | finished l => rfl
    | stuck c l e => rw [hs, he] at h; cases h
  | cons x xs => rw [hs] at h; cases h

end Scan

namespace Reader

open QueryCompiler.Parser

variable {b c : Bool} {α β : Type}

theorem token_ok {accept : Token → Option α} {otherwise : Scan → SyntaxError} {s r : Scan}
    {x : α × Lexeme} (h : (token accept otherwise).run s = .ok (x, r)) :
    accept x.2.token = some x.1 ∧ s.Leaves [x.2.token] r := by
  unfold token at h
  simp only at h
  split at h
  · cases h
  · rename_i lexeme rest hl
    split at h
    · rename_i a ha
      cases h
      refine ⟨ha, ?_, rfl⟩
      unfold Scan.tokens
      rw [hl]; rfl
    · cases h

theorem punctuator_ok {p : Punctuator} {s r : Scan} {l : Lexeme}
    (h : (punctuator p).run s = .ok (l, r)) : s.Leaves [.punctuator p] r := by
  obtain ⟨x, hx, -⟩ := map_eq_ok.mp h
  obtain ⟨ha, hl⟩ := token_ok hx
  split_ifs at ha with ht
  rwa [ht] at hl

theorem name_ok {s r : Scan} {n : Text} (h : name.run s = .ok (n, r)) :
    s.Leaves [.name n] r := by
  obtain ⟨x, hx, rfl⟩ := map_eq_ok.mp h
  obtain ⟨ha, hl⟩ := token_ok hx
  unfold nameText? at ha
  split at ha
  · rename_i t ht
    obtain rfl := Option.some.inj ha
    rwa [ht] at hl
  · cases ha

theorem keyword_ok {k : Text} {s r : Scan} {u : Unit} (h : (keyword k).run s = .ok (u, r)) :
    s.Leaves [.name k] r := by
  obtain ⟨x, h, -⟩ := map_eq_ok.mp h
  obtain ⟨ha, hl⟩ := token_ok h
  split_ifs at ha with ht
  rwa [ht] at hl

theorem optional_ok {p : Punctuator} {s r : Scan} {found : Bool}
    (h : (optional p).run s = .ok (found, r)) :
    (found = true ∧ s.Leaves [.punctuator p] r) ∨
      (found = false ∧ r = s ∧ s.startsWith p = false) := by
  obtain ⟨starts, m, hl, h⟩ := bind_eq_ok.mp h
  rw [run_look] at hl
  cases hl
  split_ifs at h with hs
  · rw [run_relax] at h
    obtain ⟨l, hp, rfl⟩ := map_eq_ok.mp h
    exact Or.inl ⟨rfl, punctuator_ok hp⟩
  · obtain ⟨rfl, rfl⟩ := pure_eq_ok.mp h
    exact Or.inr ⟨rfl, rfl, by simpa using hs⟩

/-- **What the reader gives is related to the tokens that it takes.** -/
def Takes (p : Reader b α) (related : α → List Token → Prop) : Prop :=
  ∀ s a r, p.run s = .ok (a, r) → ∃ tokens, s.Leaves tokens r ∧ related a tokens

/-- A repetition takes the tokens of its items, and stops at its end. -/
theorem whileM_ok {starts : Scan → Bool} {item : Reader true α} {related : α → List Token → Prop}
    (h : Takes item related) {s r : Scan} {as : List α}
    (hr : (whileM starts item).run s = .ok (as, r)) :
    starts r = false ∧ ∃ parts, s.Leaves parts.flatten r ∧ List.Forall₂ related as parts := by
  cases hs : starts s with
  | false =>
    rw [run_whileM_stop hs] at hr
    cases hr
    exact ⟨hs, [], .refl s, .nil⟩
  | true =>
    rw [run_whileM_step hs] at hr
    obtain ⟨⟨a, m⟩, hi, hr⟩ := Success.bind_eq_ok.mp hr
    -- Every item takes something, so the rest of the repetition starts from a shorter scan.
    have hlt : m.lexemes.length < s.lexemes.length := item.size_le hi
    cases hw : (whileM starts item).run m with
    | error e => rw [hw] at hr; cases hr
    | ok x =>
      rw [hw] at hr
      cases hr
      obtain ⟨hstop, parts, hl, hparts⟩ := whileM_ok h hw
      obtain ⟨tokens, ht, ha⟩ := h s a m hi
      exact ⟨hstop, tokens :: parts, ht.trans hl, .cons ha hparts⟩
termination_by s.lexemes.length
decreasing_by omega

theorem Takes.whileM {starts : Scan → Bool} {item : Reader true α}
    {related : α → List Token → Prop} (h : Takes item related) :
    Takes (whileM starts item) fun as tokens =>
      ∃ parts, List.Forall₂ related as parts ∧ tokens = parts.flatten := by
  intro s as r hr
  obtain ⟨-, parts, hl, hparts⟩ := whileM_ok h hr
  exact ⟨_, hl, parts, hparts, rfl⟩

theorem Takes.manyUntil {close : Punctuator} {item : Reader true α}
    {related : α → List Token → Prop} (h : Takes item related) :
    Takes (manyUntil close item) fun as tokens =>
      ∃ parts, List.Forall₂ related as parts ∧
        tokens = parts.flatten ++ [.punctuator close] := by
  intro s as r hr
  obtain ⟨items, m, hw, hr⟩ := bind_eq_ok.mp hr
  obtain ⟨l, hc, rfl⟩ := map_eq_ok.mp hr
  obtain ⟨_, hl, parts, hparts, rfl⟩ := h.whileM s items m hw
  exact ⟨_, hl.trans (punctuator_ok hc), parts, hparts, rfl⟩

theorem Takes.someUntil {close : Punctuator} {item : Reader true α}
    {related : α → List Token → Prop} (h : Takes item related) :
    Takes (someUntil close item) fun as tokens =>
      as ≠ [] ∧ ∃ parts, List.Forall₂ related as parts ∧
        tokens = parts.flatten ++ [.punctuator close] := by
  intro s as r hr
  obtain ⟨first, m, hf, hr⟩ := bind_eq_ok.mp hr
  obtain ⟨rest, hm, rfl⟩ := map_eq_ok.mp hr
  obtain ⟨tokens, hl, ha⟩ := h s first m hf
  obtain ⟨_, hl', parts, hparts, rfl⟩ := h.manyUntil m rest r hm
  refine ⟨_, hl.trans hl', List.cons_ne_nil _ _, tokens :: parts, .cons ha hparts, ?_⟩
  rw [List.flatten_cons, List.append_assoc]

/-! ### Tokens that are needed -/

theorem reads_token {accept : Token → Option α} {otherwise : Scan → SyntaxError} {s : Scan}
    {t : Token} {rest : List Token} {a : α} {post : α × Lexeme → Scan → Prop}
    (h : s.Holds (t :: rest)) (ha : accept t = some a)
    (hp : ∀ l r, r.Holds rest → post (a, l) r) : (token accept otherwise).Reads s post := by
  have ht := h.tokens_eq
  unfold Scan.tokens at ht
  cases hs : s.lexemes with
  | nil => rw [hs] at ht; cases ht
  | cons lexeme lexemes =>
    rw [hs, List.map_cons] at ht
    obtain rfl := (List.cons.inj ht).1
    have hrest : Scan.Holds { s with lexemes } rest := ⟨(List.cons.inj ht).2, h.isComplete⟩
    refine ⟨(a, lexeme), { s with lexemes }, ?_, hp _ _ hrest⟩
    unfold token
    simp only [hs, ha]

theorem reads_punctuator {p : Punctuator} {s : Scan} {rest : List Token}
    {post : Lexeme → Scan → Prop} (h : s.Holds (.punctuator p :: rest))
    (hp : ∀ l r, r.Holds rest → post l r) : (punctuator p).Reads s post :=
  reads_map (reads_token h (if_pos rfl) hp)

theorem reads_name {s : Scan} {n : Text} {rest : List Token} {post : Text → Scan → Prop}
    (h : s.Holds (.name n :: rest)) (hp : ∀ r, r.Holds rest → post n r) : name.Reads s post :=
  reads_map (reads_token h rfl fun _ r hr => hp r hr)

theorem reads_keyword {k : Text} {s : Scan} {rest : List Token} {post : Unit → Scan → Prop}
    (h : s.Holds (.name k :: rest)) (hp : ∀ r, r.Holds rest → post () r) :
    (keyword k).Reads s post :=
  reads_map (reads_token h (if_pos rfl) fun _ r hr => hp r hr)

theorem reads_optional_found {p : Punctuator} {s : Scan} {rest : List Token}
    {post : Bool → Scan → Prop} (h : s.Holds (.punctuator p :: rest))
    (hp : ∀ r, r.Holds rest → post true r) : (optional p).Reads s post := by
  refine reads_bind (reads_look ?_)
  rw [h.startsWith, List.head?_cons, beq_self_eq_true]
  exact reads_relax (reads_map (reads_punctuator h fun _ r hr => hp r hr))

theorem reads_optional_missing {p : Punctuator} {s : Scan} {rest : List Token}
    {post : Bool → Scan → Prop} (h : s.Holds rest) (hne : rest.head? ≠ some (.punctuator p))
    (hp : post false s) : (optional p).Reads s post := by
  refine reads_bind (reads_look ?_)
  rw [h.startsWith, beq_false_of_ne hne]
  exact reads_pure hp

/-- What may follow an item follows it: the next item, or the rest. -/
theorem follows_flatten {related : α → List Token → Prop} {follows : List Token → Prop}
    (h : ∀ a tokens rest, related a tokens → follows (tokens ++ rest)) {rest : List Token}
    (hrest : follows rest) {as : List α} {parts : List (List Token)}
    (has : List.Forall₂ related as parts) : follows (parts.flatten ++ rest) := by
  cases has with
  | nil => exact hrest
  | cons ha _ =>
    rw [List.flatten_cons, List.append_assoc]
    exact h _ _ _ ha

/-- **A repetition reads the items one after the other** if each of them is read in front of what
may follow it, and the next item or the rest may. -/
theorem reads_whileM {starts : Scan → Bool} {item : Reader true α}
    {related : α → List Token → Prop} {same : α → α → Prop} {follows : List Token → Prop}
    (hitem : ∀ a tokens rest s, related a tokens → follows rest → s.Holds (tokens ++ rest) →
      starts s = true ∧ item.Reads s fun a' r => same a' a ∧ r.Holds rest)
    (hfollows : ∀ a tokens rest, related a tokens → follows (tokens ++ rest)) {rest : List Token}
    (hrest : follows rest) (hstop : ∀ s : Scan, s.Holds rest → starts s = false) {as : List α}
    {parts : List (List Token)} (h : List.Forall₂ related as parts) {s : Scan}
    (hs : s.Holds (parts.flatten ++ rest)) :
    (whileM starts item).Reads s fun as' r => List.Forall₂ same as' as ∧ r.Holds rest := by
  induction h generalizing s with
  | nil => exact ⟨[], s, run_whileM_stop (hstop s hs), .nil, hs⟩
  | @cons a tokens as parts ha hparts ih =>
    rw [List.flatten_cons, List.append_assoc] at hs
    have hnext := follows_flatten hfollows hrest hparts
    obtain ⟨hstart, a', m, hrun, hsame, hm⟩ := hitem a tokens _ s ha hnext hs
    obtain ⟨as', r, hruns, hsames, hr⟩ := ih hm
    refine ⟨a' :: as', r, ?_, .cons hsame hsames, hr⟩
    rw [run_whileM_step hstart, hrun]
    show Except.map _ ((whileM starts item).run m) = _
    rw [hruns]
    rfl

/-- Items in front of a closing punctuator: each is read in front of what may follow it, which the
next item may, and none starts like the end. -/
structure ReadsItems (item : Reader true α) (close : Punctuator)
    (related : α → List Token → Prop) (same : α → α → Prop) (follows : List Token → Prop) : Prop where
  item : ∀ a tokens rest s, related a tokens → follows rest → s.Holds (tokens ++ rest) →
    item.Reads s fun a' r => same a' a ∧ r.Holds rest
  head : ∀ a tokens rest, related a tokens → ∃ t more, tokens ++ rest = t :: more ∧
    t ≠ .punctuator close
  next : ∀ a tokens rest, related a tokens → follows (tokens ++ rest)

section
variable {close : Punctuator} {item : Reader true α} {related : α → List Token → Prop}
  {same : α → α → Prop} {follows : List Token → Prop}

theorem reads_manyUntil (h : ReadsItems item close related same follows) {rest : List Token}
    (hrest : follows (.punctuator close :: rest)) {as : List α} {parts : List (List Token)}
    (has : List.Forall₂ related as parts) {s : Scan}
    (hs : s.Holds (parts.flatten ++ .punctuator close :: rest)) :
    (manyUntil close item).Reads s fun as' r => List.Forall₂ same as' as ∧ r.Holds rest := by
  have hwhile : (whileM (fun s => !s.startsWith close) item).Reads s fun as' r =>
      List.Forall₂ same as' as ∧ r.Holds (.punctuator close :: rest) := by
    refine reads_whileM (fun a tokens rest s ha hf hs => ?_) h.next hrest (fun s hs => ?_) has hs
    · obtain ⟨t, more, he, hne⟩ := h.head a tokens rest ha
      refine ⟨?_, h.item a tokens rest s ha hf hs⟩
      rw [hs.startsWith, he, List.head?_cons, beq_false_of_ne fun h => hne (Option.some.inj h)]
      rfl
    · rw [hs.startsWith, List.head?_cons, beq_self_eq_true]
      rfl
  refine reads_bind (hwhile.imp fun as' m ⟨hsame, hm⟩ => ?_)
  exact reads_map (reads_punctuator hm fun _ r hr => ⟨hsame, hr⟩)

theorem reads_someUntil (h : ReadsItems item close related same follows) {rest : List Token}
    (hrest : follows (.punctuator close :: rest)) {as : List α} {parts : List (List Token)}
    (has : List.Forall₂ related as parts) (hne : as ≠ []) {s : Scan}
    (hs : s.Holds (parts.flatten ++ .punctuator close :: rest)) :
    (someUntil close item).Reads s fun as' r => List.Forall₂ same as' as ∧ r.Holds rest := by
  cases has with
  | nil => exact absurd rfl hne
  | @cons a tokens as parts ha hparts =>
    rw [List.flatten_cons, List.append_assoc] at hs
    have hnext := follows_flatten h.next hrest hparts
    refine reads_bind ((h.item a tokens _ s ha hnext hs).imp fun a' m ⟨hsame, hm⟩ => ?_)
    refine reads_map ((reads_manyUntil h hrest hparts hm).imp ?_)
    exact fun as' r ⟨hsames, hr⟩ => ⟨.cons hsame hsames, hr⟩

end

end Reader

end QueryCompiler
