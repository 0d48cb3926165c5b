import QueryCompiler.Proofs.Source.Ahead

/-!
# Readings that agree

`Agree` says of a reading from a cursor and one of the tokens ahead of it that they give the same: both
succeed with the same result, and the tokens that are left are those ahead of the new cursor, or both
fail with the same fault, the one at a cursor and the other at its place. `Follows` says so of two
readers, from every cursor.

Agreement is kept by sequences (`Agree.bind`), by what is read from the next token on
(`follows_skipIgnored`) and by repetitions (`follows_untilM`, `Follows.manyUntil`, `follows_whileM`).
The readers of single tokens agree: `run_expect`, `optional_follows`, `name_follows`,
`keyword_follows`.
-/

namespace QueryCompiler

/-! ### Tokens in front -/

namespace Reader

open QueryCompiler.Parser

variable {α : Type}

theorem run_token_cons {accept : Token → Option α} {otherwise : Scan → SyntaxError} {l : Lexeme}
    {a : α} (h : accept l.token = some a) (s : Scan) :
    (token accept otherwise).run (s.cons l) = .ok ((a, l), s) := by
  unfold token
  simp only [Scan.cons, h]

theorem run_token_error {accept : Token → Option α} {otherwise : Scan → SyntaxError} {s : Scan}
    (h : ∀ t, s.next? = some t → accept t = none) :
    (token accept otherwise).run s = .error (otherwise s) := by
  unfold token
  cases hs : s.lexemes with
  | nil => simp only [hs]
  | cons l rest =>
    have hnone := h l.token (by rw [Scan.next?, hs]; rfl)
    simp only [hs, hnone]

theorem run_punctuator_cons {p : Punctuator} {l : Lexeme} (h : l.token = .punctuator p) (s : Scan) :
    (punctuator p).run (s.cons l) = .ok (l, s) := by
  rw [punctuator, run_map, run_token_cons (if_pos h)]
  rfl

theorem run_punctuator_error {p : Punctuator} {s : Scan} (h : s.startsWith p = false) :
    (punctuator p).run s = .error (s.errorHere (.expectedOctet p.octet s.octet?)) := by
  rw [punctuator, run_map, run_token_error]
  · rfl
  · intro t ht
    refine if_neg ?_
    rintro rfl
    rw [Scan.startsWith, ht, beq_self_eq_true] at h
    cases h

/-- One round of the items up to a punctuator. -/
theorem run_manyUntil (close : Punctuator) (item : Reader true α) (s : Scan) :
    (manyUntil close item).run s = if !s.startsWith close then
      (item.run s).bind fun x =>
        ((manyUntil close item).run x.2).map fun y => (x.1 :: y.1, y.2)
      else (((punctuator close).map fun _ => []).run s) := by
  have hmany : ∀ s, (manyUntil close item).run s =
      ((whileM (fun s => !s.startsWith close) item).run s).bind fun x =>
        ((punctuator close).map fun _ => x.1).run x.2 := fun s => run_bind _ _ s
  rw [hmany]
  cases hs : !s.startsWith close with
  | false =>
    rw [run_whileM_stop (s := s) hs, if_neg Bool.false_ne_true]
    rfl
  | true =>
    rw [run_whileM_step (s := s) hs, if_pos rfl]
    cases item.run s with
    | error e => rfl
    | ok x =>
      simp only [Except.bind]
      rw [hmany]
      cases (whileM (fun s => !s.startsWith close) item).run x.2 with
      | error e => rfl
      | ok y =>
        simp only [Except.bind, Except.map, run_map]
        cases (punctuator close).run y.2 <;> rfl

end Reader

namespace OctetReader

open QueryCompiler.Parser

variable {source : Text} {b b' d d' : Bool} {α β : Type}

/-! ### Readings that agree -/

/-- A reading from a cursor and a reading of tokens have given the same. -/
inductive Agree : Except (Halt source) (α × Cursor source) → Except SyntaxError (α × Scan) → Prop
  | ok (a : α) (c : Cursor source) : Agree (.ok (a, c)) (.ok (a, c.scan))
  | error (fault : SyntaxFault) (c : Cursor source) :
    Agree (.error (.fault fault c)) (.error ⟨fault, c.place⟩)

theorem Agree.bind {p : OctetReader source b α} {f : α → OctetReader source b' β} {q : Reader d α}
    {g : α → Reader d' β} {c : Cursor source} {s : Scan} (h : Agree (p.run c) (q.run s))
    (hf : ∀ a e, p.run c = .ok (a, e) → Agree ((f a).run e) ((g a).run e.scan)) :
    Agree ((p.bind f).run c) ((q.bind g).run s) := by
  rw [run_bind, run_bind]
  generalize hp : p.run c = x at h
  generalize q.run s = y at h
  cases h with
  | ok a e => exact hf a e hp
  | error fault e => exact .error fault e

theorem Agree.map {p : OctetReader source b α} {q : Reader d α} {c : Cursor source} {s : Scan}
    (h : Agree (p.run c) (q.run s)) (f : α → β) : Agree ((p.map f).run c) ((q.map f).run s) := by
  rw [run_map, run_map]
  generalize p.run c = x at h
  generalize q.run s = y at h
  cases h with
  | ok a e => exact .ok (f a) e
  | error fault e => exact .error fault e

theorem Agree.eq_ok {x : Except (Halt source) (α × Cursor source)} {a : α} {s : Scan}
    (h : Agree x (.ok (a, s))) : ∃ e, x = .ok (a, e) ∧ e.scan = s := by
  cases h with
  | ok a e => exact ⟨e, rfl, rfl⟩

theorem agree_ite {p p' : OctetReader source b α} {q q' : Reader d α} {c : Cursor source} {s : Scan}
    (x : Bool) (h : x = true → Agree (p.run c) (q.run s))
    (h' : x = false → Agree (p'.run c) (q'.run s)) :
    Agree ((if x then p else p').run c) ((if x then q else q').run s) := by
  cases x with
  | true => exact h rfl
  | false => exact h' rfl

/-- From every cursor, the octets and the tokens ahead are read alike. -/
def Follows (p : OctetReader source b α) (q : Reader d α) : Prop :=
  ∀ c, Agree (p.run c) (q.run c.scan)

/-- What is read from the next token on may be read after what stands in front of it. -/
theorem follows_skipIgnored {f : Unit → OctetReader source b α} {q : Reader d α}
    (h : ∀ c, c.Settled → Agree ((f ()).run c) (q.run c.scan)) :
    Follows (skipIgnored.bind f) q := by
  intro c
  obtain ⟨e, hrun, he, hscan⟩ := run_skipIgnored c
  rw [run_bind, hrun, ← hscan]
  exact h e he

/-- What both see at the next token. -/
theorem run_look_ahead {f : Cursor source → α} {g : Scan → α}
    (h : ∀ c, c.Settled → f c = g c.scan) (c : Cursor source) :
    ∃ e, (skipIgnored.bind fun _ => look f).run c = .ok (g e.scan, e) ∧ e.Settled ∧
      e.scan = c.scan := by
  obtain ⟨e, hrun, hs, hscan⟩ := run_skipIgnored c
  refine ⟨e, ?_, hs, hscan⟩
  rw [run_bind, hrun, ← h e hs]
  rfl

/-! ### Single tokens -/

/-- A punctuator is taken by both, or both fail alike. -/
theorem run_expect (p : Punctuator) (c : Cursor source) :
    (∃ l e, (expect p).run c = .ok ((), e) ∧ (Reader.punctuator p).run c.scan = .ok (l, e.scan)) ∨
    (∃ fault e, (expect p).run c = .error (.fault fault e) ∧
      (Reader.punctuator p).run c.scan = .error ⟨fault, e.place⟩) := by
  obtain ⟨e, hrun, hs, hscan⟩ := run_skipIgnored c
  rw [expect, run_bind, hrun, ← hscan]
  simp only [Except.bind, run_peeking]
  by_cases hp : e.peek 0 = p.octet
  · obtain ⟨t, hr⟩ := e.rest_of_peek (by cases p <;> decide) hp
    have htaken : (take.map fun _ => ()).run e = .ok ((), e.skip 1) := by
      rw [run_map, run_take hr]
      rfl
    rw [if_pos hp, htaken, hs.scan_punctuator hp, Reader.run_punctuator_cons rfl]
    exact .inl ⟨_, _, rfl, rfl⟩
  · have hstarts : e.scan.startsWith p = false := by
      rw [hs.startsWith_scan, beq_false_of_ne hp]
    rw [if_neg hp, run_failWith, Reader.run_punctuator_error hstarts, hs.octet?_scan,
      hs.errorHere_scan]
    exact .inr ⟨_, _, rfl, rfl⟩

theorem expect_map_follows (p : Punctuator) (a : α) :
    Follows ((expect p).map fun _ => a : OctetReader source true α)
      ((Reader.punctuator p).map fun _ => a) := by
  intro c
  rw [run_map, run_map]
  rcases run_expect p c with ⟨l, e, h, h'⟩ | ⟨fault, e, h, h'⟩
  · rw [h, h']
    exact .ok a e
  · rw [h, h']
    exact .error fault e

/-- **What follows a punctuator.** -/
theorem expect_bind_follows (p : Punctuator) {f : OctetReader source b α} {g : Reader d α}
    (h : Follows f g) :
    Follows ((expect p).bind fun _ => f) ((Reader.punctuator p).bind fun _ => g) := by
  intro c
  rw [run_bind, run_bind]
  rcases run_expect p c with ⟨l, e, hrun, hrun'⟩ | ⟨fault, e, hrun, hrun'⟩
  · rw [hrun, hrun']
    exact h e
  · rw [hrun, hrun']
    exact .error fault e

/-- A punctuator that may be missing is there for both or for none. -/
theorem run_optional (p : Punctuator) (c : Cursor source) :
    (∃ l e, (optional p).run c = .ok (true, e) ∧ c.scan = e.scan.cons l ∧
      l.token = .punctuator p ∧ l.stop = e.place) ∨
    (∃ e, (optional p).run c = .ok (false, e) ∧ e.Settled ∧ e.scan = c.scan ∧
      c.scan.startsWith p = false) := by
  obtain ⟨e, hrun, hs, hscan⟩ := run_skipIgnored c
  rw [optional, run_bind, hrun]
  simp only [Except.bind, run_peeking]
  by_cases hp : e.peek 0 = p.octet
  · obtain ⟨t, hr⟩ := e.rest_of_peek (by cases p <;> decide) hp
    have hfound : (take.map fun _ => true).run e = .ok (true, e.skip 1) := by
      rw [run_map, run_take hr]
      rfl
    rw [if_pos hp, run_relax, hfound, ← hscan, hs.scan_punctuator hp]
    exact .inl ⟨_, _, rfl, rfl, rfl, rfl⟩
  · have hstarts : e.scan.startsWith p = false := by
      rw [hs.startsWith_scan, beq_false_of_ne hp]
    rw [if_neg hp, run_pure]
    exact .inr ⟨e, rfl, hs, hscan, by rw [← hscan, hstarts]⟩

theorem optional_follows (p : Punctuator) :
    Follows (optional p : OctetReader source false Bool) (Reader.optional p) := by
  intro c
  rw [Reader.optional, run_bind, run_look]
  simp only [Except.bind]
  rcases run_optional p c with ⟨l, e, hrun, hscan, hl, -⟩ | ⟨e, hrun, -, hscan, hstarts⟩
  · have hstarts : c.scan.startsWith p = true := by
      rw [hscan, Scan.startsWith, Scan.next?_cons, hl, beq_self_eq_true]
    rw [hrun, hstarts, if_pos rfl, run_relax, run_map, hscan, Reader.run_punctuator_cons hl]
    exact .ok true e
  · rw [hrun, hstarts, if_neg Bool.false_ne_true, run_pure, ← hscan]
    exact .ok false e

/-- The octets of a name. -/
theorem run_word (c : Cursor source) (h : Octet.isNameStart (c.peek 0) = true) :
    (spanned (take.bind fun _ => skipWhile Octet.isNameContinue)).run c =
      .ok (((), c.word), c.skip c.word.length) := by
  rw [c.peek_isIn Octet.isNameStart (by decide)] at h
  cases hr : c.rest with
  | nil => rw [hr] at h; cases h
  | cons o t =>
    rw [hr] at h
    have hrest : (c.skip 1).rest = t := by rw [Cursor.rest_skip, hr]; rfl
    have hword : c.word = o :: t.takeWhile Octet.isNameContinue := by
      rw [Cursor.word, hr, List.takeWhile_cons_of_pos (Octet.isNameContinue_of_isNameStart h)]
    have hrun : (take.bind fun _ => skipWhile Octet.isNameContinue).run c =
        .ok ((), c.skip c.word.length) := by
      rw [run_bind, run_take hr]
      simp only [Except.bind, run_skipWhile, hrest, Cursor.skip_skip, hword, List.length_cons]
      rw [Nat.add_comm 1]
    rw [run_spanned hrun, ← List.prefix_iff_eq_take.mp c.word_prefix]

/-- **Names.** -/
theorem name_follows : Follows (name : OctetReader source true Text) Reader.name := by
  refine follows_skipIgnored fun c hs => ?_
  rw [run_peeking, Reader.name, Reader.nameLexeme, run_map]
  by_cases hstart : Octet.isNameStart (c.peek 0) = true
  · have haccept : Reader.nameText? (.name c.word) = some c.word := rfl
    rw [if_pos hstart, run_map, run_word c hstart, hs.scan_name hstart,
      Reader.run_token_cons haccept]
    exact .ok _ _
  · rw [if_neg hstart, run_failWith, Reader.run_token_error, hs.octet?_scan, hs.errorHere_scan]
    · exact .error _ _
    · intro t ht
      cases t with
      | name text => exact absurd (hs.next?_eq_name.mp ht).1 hstart
      | _ => rfl

/-- Both see whether a certain name comes next. -/
theorem run_startsName {k : Text} (hk : k.IsName) (c : Cursor source) :
    ∃ e, (startsName k).run c = .ok (e.scan.startsWithName k, e) ∧ e.Settled ∧
      e.scan = c.scan :=
  run_look_ahead (fun _ hs => (hs.startsWithName_scan hk).symm) c

/-- The mark of a spread is there for both or for none. -/
theorem run_spread (c : Cursor source) :
    (∃ l e, spread.run c = .ok (true, e) ∧ c.scan = e.scan.cons l ∧ l.token = .spread) ∨
    (∃ e, spread.run c = .ok (false, e) ∧ e.scan = c.scan ∧ c.scan.next? ≠ some .spread) := by
  obtain ⟨e, hrun, hs, hscan⟩ := run_skipIgnored c
  have hmark : (e.peek 0 == Octet.dot && e.peek 1 == Octet.dot && e.peek 2 == Octet.dot) =
      Scan.spreadMark.isPrefixOf e.rest := by
    rw [Scan.spreadMark, Cursor.isPrefixOf_cons (by decide), Cursor.isPrefixOf_cons (by decide),
      Cursor.isPrefixOf_cons (by decide), List.isPrefixOf_nil_left]
    simp only [Cursor.peek_skip, Cursor.skip_skip, Nat.add_zero, Bool.and_true, Bool.and_assoc]
  rw [spread, run_bind, hrun]
  simp only [Except.bind, run_bind, run_look, hmark]
  by_cases hp : Scan.spreadMark <+: e.rest
  · have hlength : 3 ≤ e.rest.length := hp.length_le
    have hfound : ((move 3).map fun _ => true).run e = .ok (true, e.skip 3) := by
      rw [run_map, run_move hlength]
      rfl
    rw [if_pos (List.isPrefixOf_iff_prefix.mpr hp), run_relax, hfound, ← hscan, hs.scan_spread hp]
    exact .inl ⟨_, _, rfl, rfl, rfl⟩
  · rw [if_neg (mt List.isPrefixOf_iff_prefix.mp hp), run_pure]
    exact .inr ⟨e, rfl, hscan, by rw [← hscan]; exact mt hs.next?_eq_spread.mp hp⟩

theorem keyword_follows {k : Text} (hk : k.IsName) :
    Follows (keyword k : OctetReader source false Unit) (Reader.keyword k) := by
  intro c
  obtain ⟨e, hrun, hs, hscan⟩ := run_startsName hk c
  rw [keyword, run_bind, hrun, Reader.keyword, run_map, ← hscan]
  simp only [Except.bind]
  cases hfound : e.scan.startsWithName k with
  | true =>
    obtain ⟨hstart, rfl⟩ := hs.next?_eq_name.mp (beq_iff_eq.mp hfound)
    have hlength : e.word.length ≤ e.rest.length := e.word_prefix.length_le
    rw [if_pos rfl, run_relax, run_move hlength, hs.scan_name hstart,
      Reader.run_token_cons (if_pos rfl)]
    exact .ok () _
  | false =>
    rw [if_neg Bool.false_ne_true, run_fail, Reader.run_token_error, hs.errorHere_scan]
    · exact .error _ _
    · intro t ht
      refine if_neg ?_
      rintro rfl
      rw [Scan.startsWithName, ht, beq_self_eq_true] at hfound
      cases hfound

/-! ### Readers that go to the next token -/

/-- After the reading the cursor is at the next token. -/
def Settles (p : OctetReader source b α) : Prop := ∀ c a e, p.run c = .ok (a, e) → e.Settled

theorem settles_skipIgnored (f : Cursor source → α) :
    Settles (skipIgnored.bind fun _ => look f) := by
  intro c a e h
  obtain ⟨e', hrun, hs, -⟩ := run_skipIgnored c
  rw [run_bind, hrun] at h
  obtain ⟨-, rfl⟩ := Prod.mk.inj (Except.ok.inj h)
  exact hs

theorem settles_untilM {stop : OctetReader source false Bool} {item : OctetReader source true α}
    (h : Settles stop) : Settles (untilM stop item) := by
  intro c as e hrun
  have hrun : untilFrom stop item c = .ok (as, e) := hrun
  fun_induction untilFrom stop item c generalizing as with
  | case1 => cases hrun
  | case2 c e' hs => cases hrun; exact h c true e hs
  | case3 => cases hrun
  | case4 => cases hrun
  | case5 c e₁ hs a e₂ hi as' e₃ hr ih =>
    cases hrun
    exact ih as' hr hr

/-! ### Repetitions -/

/-- **Repetitions.** Both end at the same places, and the items between are read alike. -/
theorem follows_untilM {stop : OctetReader source false Bool} {item : OctetReader source true α}
    {item' : Reader true α} {q : Reader d (List α)} {starts : Scan → Bool}
    {finish : Scan → Except SyntaxError (List α × Scan)}
    (hq : ∀ s, q.run s = if starts s then
      (item'.run s).bind fun x => (q.run x.2).map fun y => (x.1 :: y.1, y.2) else finish s)
    (hstop : ∀ c, (∃ e, stop.run c = .ok (false, e) ∧ e.Settled ∧ e.scan = c.scan ∧
        starts c.scan = true) ∨
      (∃ e, stop.run c = .ok (true, e) ∧ starts c.scan = false ∧ finish c.scan = .ok ([], e.scan)))
    (h : ∀ c, c.Settled → starts c.scan = true → Agree (item.run c) (item'.run c.scan)) :
    Follows (untilM stop item) q := by
  intro c
  -- On what is left of the source: every item takes something.
  induction hsize : c.rest.length using Nat.strongRecOn generalizing c with
  | ind size ih =>
    rw [run_untilM, hq]
    rcases hstop c with ⟨e, hrun, he, hscan, hstarts⟩ | ⟨e, hrun, hstarts, hfinish⟩
    · have hitem := h e he (by rw [hscan, hstarts])
      rw [hrun, hstarts, if_pos rfl, ← hscan]
      simp only [Except.bind, Bool.false_eq_true, if_false]
      generalize hi : item.run e = x at hitem
      generalize item'.run e.scan = y at hitem
      cases hitem with
      | error fault e' => exact .error fault e'
      | ok a e' =>
        have hlt : e'.rest.length < size := by
          have hstop : e.rest.length + 0 ≤ c.rest.length := stop.size_le hrun
          have hitem : e'.rest.length + 1 ≤ e.rest.length := item.size_le hi
          omega
        have hrest := ih _ hlt e' rfl
        simp only
        generalize (untilM stop item).run e' = x at hrest
        generalize q.run e'.scan = y at hrest
        cases hrest with
        | error fault e'' => exact .error fault e''
        | ok as e'' => exact .ok (a :: as) e''
    · rw [hrun, hstarts, if_neg Bool.false_ne_true, hfinish]
      exact .ok [] e

/-- Items up to a punctuator. -/
theorem Follows.manyUntil {item : OctetReader source true α} {item' : Reader true α}
    (h : Follows item item') (close : Punctuator) :
    Follows (manyUntil close item) (Reader.manyUntil close item') := by
  refine follows_untilM (Reader.run_manyUntil close item') (fun c => ?_) fun c _ _ => h c
  rcases run_optional close c with
    ⟨l, e, hrun, hscan, hl, -⟩ | ⟨e, hrun, hs, hscan, hstarts⟩
  · refine .inr ⟨e, hrun, ?_, ?_⟩
    · rw [hscan, Scan.startsWith, Scan.next?_cons, hl, beq_self_eq_true]
      rfl
    · rw [hscan, run_map, Reader.run_punctuator_cons hl]
      rfl
  · exact .inl ⟨e, hrun, hs, hscan, by rw [hstarts]; rfl⟩

/-- One item or more up to a punctuator. -/
theorem Follows.someUntil {item : OctetReader source true α} {item' : Reader true α}
    (h : Follows item item') (close : Punctuator) :
    Follows (someUntil close item) (Reader.someUntil close item') :=
  fun c => (h c).bind fun _ e _ => (h.manyUntil close e).map _

/-- Items as long as the tokens ahead start as asked. -/
theorem follows_whileM {stop : Cursor source → Bool} {starts : Scan → Bool}
    {item : OctetReader source true α} {item' : Reader true α}
    (hstop : ∀ c, c.Settled → stop c = !starts c.scan)
    (h : ∀ c, c.Settled → starts c.scan = true → Agree (item.run c) (item'.run c.scan)) :
    Follows (untilM (skipIgnored.bind fun _ => look stop) item)
      (whileM starts item') := by
  have hround : ∀ s, (whileM starts item').run s = if starts s then
      (item'.run s).bind fun x => ((whileM starts item').run x.2).map fun y => (x.1 :: y.1, y.2)
      else .ok ([], s) := by
    intro s
    cases hs : starts s with
    | true => rw [run_whileM_step hs, if_pos rfl]
    | false => rw [run_whileM_stop hs, if_neg Bool.false_ne_true]
  refine follows_untilM hround (fun c => ?_) h
  obtain ⟨e, hrun, hs, hscan⟩ := run_look_ahead (g := fun s => !starts s) hstop c
  rw [hscan] at hrun
  cases hstarts : starts c.scan with
  | true => exact .inl ⟨e, by rw [hrun, hstarts]; rfl, hs, hscan, rfl⟩
  | false => exact .inr ⟨e, by rw [hrun, hstarts]; rfl, rfl, by rw [hscan]⟩

end OctetReader

end QueryCompiler
