import QueryCompiler.Proofs.Document.Accepted

/-!
# The nesting limit

The limit is exceeded only by sources that have as many tokens (`le_of_reachesLimit`), the failure
names it (`parse_eq_of_reachesLimit`), and a limit that is not exceeded can be raised without a change
to what is parsed (`parse_raise`).

Both are followed through the parsers at once: `Deepens` compares a reader with one that is left more
levels. It holds of sequences and repetitions if it holds of their parts, and a token that is taken
makes up for a level (`Deepens.after`).
-/

namespace QueryCompiler

/-- The result is that constructs are nested too deeply. -/
def Exceeds {α : Type} (x : Except SyntaxError α) : Prop :=
  ∃ limit place, x = .error ⟨.nestingExceeded limit, place⟩

theorem not_exceeds_ok {α : Type} (a : α) : ¬ Exceeds (.ok a : Except SyntaxError α) := by
  rintro ⟨_, _, h⟩
  cases h

theorem exceeds_error {α β : Type} {e : SyntaxError} :
    Exceeds (.error e : Except SyntaxError α) ↔ Exceeds (.error e : Except SyntaxError β) := by
  constructor <;> rintro ⟨limit, place, h⟩ <;> exact ⟨limit, place, congrArg _ (Except.error.inj h)⟩

theorem not_exceeds_error {α : Type} {e : SyntaxError} (h : ∀ n, e.fault ≠ .nestingExceeded n) :
    ¬ Exceeds (.error e : Except SyntaxError α) := by
  rintro ⟨n, place, he⟩
  exact h n (congrArg SyntaxError.fault (Except.error.inj he))

/-- The scan does not end with that failure: cutting a source into tokens nests nothing. -/
def Scan.IsFlat (s : Scan) : Prop :=
  ∀ c place e, s.ending = .stuck c place e → ∀ n, e.fault ≠ .nestingExceeded n

theorem Scan.IsFlat.of_ending_eq {s r : Scan} (h : s.IsFlat) (he : r.ending = s.ending) :
    r.IsFlat := by
  intro c place e hr
  exact h c place e (he ▸ hr)

namespace Reader

open QueryCompiler.Parser QueryCompiler.Document

variable {b c : Bool} {α β : Type} {levels levels' limit limit' : Nat}

/-- From the scan, the reader `p` exceeds the limit only if as many tokens as levels are left, and then
names that limit; `q` does the same if it does not. -/
structure Deeper (limit levels : Nat) (s : Scan) (p q : Reader b α) : Prop where
  deep : Exceeds (p.run s) → levels ≤ s.lexemes.length
  named : ∀ n place, p.run s = .error ⟨.nestingExceeded n, place⟩ → n = limit
  same : ¬ Exceeds (p.run s) → q.run s = p.run s
  ending : ∀ a r, p.run s = .ok (a, r) → r.ending = s.ending

/-- **More levels make no difference**: the reader `q` does what `p` does except where `p` exceeds the
limit, which takes as many tokens as levels. -/
def Deepens (limit levels : Nat) (p q : Reader b α) : Prop :=
  ∀ s : Scan, s.IsFlat → Deeper limit levels s p q

/-! ### Sequences and repetitions -/

theorem Deeper.congr {p q : Reader b α} {p' q' : Reader c α} {s : Scan}
    (h : Deeper limit levels s p q) (hp : p'.run s = p.run s) (hq : q'.run s = q.run s) :
    Deeper limit levels s p' q' := by
  refine ⟨?_, ?_, ?_, ?_⟩
  · rw [hp]; exact h.deep
  · rw [hp]; exact h.named
  · rw [hp, hq]; exact h.same
  · rw [hp]; exact h.ending

/-- Reading on with fewer levels: tokens that are taken before make up for them. -/
theorem Deeper.bind {p q : Reader b α} {f g : α → Reader c β} {s : Scan} {k : Nat}
    (hk : k ≤ b.toNat) (h : Deeper limit (levels + k) s p q)
    (hf : ∀ a m, p.run s = .ok (a, m) → m.ending = s.ending → Deeper limit levels m (f a) (g a)) :
    Deeper limit (levels + k) s (p.bind f) (q.bind g) := by
  cases hx : p.run s with
  | error e =>
    have hp : (p.bind f).run s = .error e := by rw [run_bind, hx]; rfl
    refine ⟨fun he => h.deep ?_, fun n place he => ?_, fun hne => ?_, fun a r hr => ?_⟩
    · rw [hp] at he
      rw [hx]
      exact exceeds_error.mp he
    · have hfault : e = ⟨.nestingExceeded n, place⟩ := Except.error.inj (hp.symm.trans he)
      exact h.named n place (by rw [hx, hfault])
    · rw [hp] at hne ⊢
      rw [run_bind, h.same (by rw [hx]; exact fun he => hne (exceeds_error.mp he)), hx]
      rfl
    · rw [hp] at hr
      cases hr
  | ok x =>
    obtain ⟨a, m⟩ := x
    have hend := h.ending a m hx
    have hsize : m.lexemes.length + b.toNat ≤ s.lexemes.length := p.size_le hx
    have hp : (p.bind f).run s = (f a).run m := by rw [run_bind, hx]; rfl
    have hq : (q.bind g).run s = (g a).run m := by
      rw [run_bind, h.same (by rw [hx]; exact not_exceeds_ok _), hx]
      rfl
    obtain ⟨hdeep, hnamed, hsame, hending⟩ := hf a m hx hend
    refine ⟨fun he => ?_, ?_, ?_, fun x r hr => ?_⟩
    · rw [hp] at he
      have hle := hdeep he
      omega
    · rw [hp]
      exact hnamed
    · rw [hp, hq]
      exact hsame
    · rw [hp] at hr
      exact (hending x r hr).trans hend

theorem Deepens.bind {p q : Reader b α} {f g : α → Reader c β} (h : Deepens limit levels p q)
    (hf : ∀ a, Deepens limit levels (f a) (g a)) : Deepens limit levels (p.bind f) (q.bind g) :=
  fun s hs => Deeper.bind b.toNat.zero_le (h s hs) fun a m _ he => hf a m (hs.of_ending_eq he)

/-- What follows a token has one token less to take. -/
theorem Deepens.after {p q : Reader true α} {f g : α → Reader c β}
    (h : Deepens limit (levels + 1) p q) (hf : ∀ a, Deepens limit levels (f a) (g a)) :
    Deepens limit (levels + 1) (p.bind f) (q.bind g) :=
  fun s hs => Deeper.bind (Nat.le_refl 1) (h s hs) fun a m _ he => hf a m (hs.of_ending_eq he)

theorem deeper_pure (s : Scan) (a : α) : Deeper limit levels s (pure a : Reader false α) (pure a) :=
  ⟨fun he => absurd he (not_exceeds_ok _), nofun, fun _ => rfl,
    fun _ _ hr => by cases hr; rfl⟩

theorem deepens_pure (a : α) : Deepens limit levels (pure a : Reader false α) (pure a) :=
  fun s _ => deeper_pure s a

theorem deepens_look (f : Scan → α) : Deepens limit levels (look f : Reader false α) (look f) :=
  fun s _ => (deeper_pure s (f s)).congr rfl rfl

theorem run_map_eq_bind (p : Reader b α) (f : α → β) (s : Scan) :
    (p.map f).run s = (p.bind fun a => (pure (f a) : Reader false β)).run s := by
  rw [run_map, run_bind]
  cases p.run s <;> rfl

theorem Deeper.map {p q : Reader b α} {s : Scan} (h : Deeper limit levels s p q) (f : α → β) :
    Deeper limit levels s (p.map f) (q.map f) :=
  (Deeper.bind b.toNat.zero_le h fun a m _ _ => deeper_pure m (f a)).congr
    (run_map_eq_bind p f s) (run_map_eq_bind q f s)

theorem Deepens.map {p q : Reader b α} (h : Deepens limit levels p q) (f : α → β) :
    Deepens limit levels (p.map f) (q.map f) := fun s hs => (h s hs).map f

theorem Deepens.relax {p q : Reader b α} (h : Deepens limit levels p q) :
    Deepens limit levels p.relax q.relax := fun s hs => (h s hs).congr rfl rfl

theorem Deepens.peek {f g : Option Token → Reader b α} (h : ∀ t, Deepens limit levels (f t) (g t)) :
    Deepens limit levels (peek f) (peek g) := fun s hs => (h s.next? s hs).congr rfl rfl

theorem Deepens.ite {p q p' q' : Reader b α} {condition : Prop} [Decidable condition]
    (h : Deepens limit levels p q) (h' : Deepens limit levels p' q') :
    Deepens limit levels (if condition then p else p') (if condition then q else q') := by
  split_ifs
  · exact h
  · exact h'

/-- A failure for another reason. -/
theorem deepens_failWith {f : Scan → SyntaxError}
    (h : ∀ s : Scan, s.IsFlat → ∀ n, (f s).fault ≠ .nestingExceeded n) :
    Deepens limit levels (failWith f : Reader b α) (failWith f) :=
  fun s hs => ⟨fun he => absurd he (not_exceeds_error (h s hs)),
    fun n _ he => absurd (congrArg SyntaxError.fault (Except.error.inj he)) (h s hs n), fun _ => rfl,
    fun _ _ hr => by cases hr⟩

theorem deepens_fail {fault : SyntaxFault} (h : ∀ n, fault ≠ .nestingExceeded n) :
    Deepens limit levels (fail fault : Reader b α) (fail fault) :=
  deepens_failWith fun _ _ => h

/-- Where no level is left, the limit is exceeded, and named. -/
theorem deepens_exceeded {place : Scan → Location} {q : Reader b α} :
    Deepens limit 0 (failWith fun s => ⟨.nestingExceeded limit, place s⟩) q :=
  fun _ _ => ⟨fun _ => Nat.zero_le _, fun _ _ he => by cases he; rfl,
    fun hne => absurd ⟨_, _, rfl⟩ hne, fun _ _ hr => by cases hr⟩

theorem Deepens.inside {p q : Reader b α} {close : Punctuator} (h : Deepens limit levels p q) :
    Deepens limit levels (inside close p) (inside close q) :=
  (deepens_look Scan.atEnd).bind fun _ => .ite (deepens_fail fun _ he => by cases he) h

theorem run_whileM_eq_bind {starts : Scan → Bool} {p : Reader true α} {s : Scan}
    (h : starts s = true) :
    (whileM starts p).run s = (p.bind fun a => (whileM starts p).map (a :: ·)).run s := by
  rw [run_whileM_step h, run_bind]
  congr 1
  funext x
  exact (run_map _ _ _).symm

theorem Deepens.whileM {p q : Reader true α} {starts : Scan → Bool} (h : Deepens limit levels p q) :
    Deepens limit levels (whileM starts p) (whileM starts q) := by
  intro s hs
  -- Every item takes something, so the rest of the repetition starts from a shorter scan.
  induction hn : s.lexemes.length using Nat.strongRecOn generalizing s with
  | ind n ih =>
    subst hn
    cases hstart : starts s with
    | false => exact (deeper_pure s []).congr (run_whileM_stop hstart) (run_whileM_stop hstart)
    | true =>
      refine Deeper.congr (Deeper.bind (Nat.zero_le _) (h s hs) fun a m hm he => ?_)
        (run_whileM_eq_bind hstart) (run_whileM_eq_bind hstart)
      exact (ih _ (p.size_le hm) m (hs.of_ending_eq he) rfl).map _

/-! ### Tokens -/

theorem token_error {accept : Token → Option α} {otherwise : Scan → SyntaxError} {s : Scan}
    {e : SyntaxError} (h : (token accept otherwise).run s = .error e) : otherwise s = e := by
  unfold token at h
  simp only at h
  split at h
  · exact Except.error.inj h
  · split at h
    · cases h
    · exact Except.error.inj h

theorem deepens_token {accept : Token → Option α} {otherwise : Scan → SyntaxError}
    (h : ∀ s n, (otherwise s).fault ≠ .nestingExceeded n) :
    Deepens limit levels (token accept otherwise) (token accept otherwise) := by
  intro s _
  have hfault (n : Nat) (place : Location) :
      (token accept otherwise).run s ≠ .error ⟨.nestingExceeded n, place⟩ :=
    fun he => h s n (congrArg SyntaxError.fault (token_error he))
  refine ⟨?_, fun n place he => absurd he (hfault n place), fun _ => rfl,
    fun a r hr => (token_ok hr).2.ending_eq.symm⟩
  rintro ⟨n, place, he⟩
  exact absurd he (hfault n place)

theorem unexpected_fault (s : Scan) (n : Nat) : s.unexpected.fault ≠ .nestingExceeded n := by
  unfold Scan.unexpected
  split <;> exact fun h => by cases h

theorem unexpectedValue_fault {s : Scan} (h : s.IsFlat) (n : Nat) :
    s.unexpectedValue.fault ≠ .nestingExceeded n := by
  unfold Scan.unexpectedValue
  split
  case h_1 e _ he => exact h _ _ e he n
  case h_2 => exact unexpected_fault s n

theorem deepens_punctuator (p : Punctuator) : Deepens limit levels (punctuator p) (punctuator p) :=
  (deepens_token fun _ _ he => by cases he).map _

theorem deepens_name : Deepens limit levels name name :=
  Deepens.map (deepens_token fun _ _ he => by cases he) _

theorem deepens_keyword (k : Text) : Deepens limit levels (keyword k) (keyword k) :=
  (deepens_token fun _ _ he => by cases he).map _

theorem deepens_take : Deepens limit levels take take :=
  (deepens_token unexpected_fault).map _

theorem deepens_optional (p : Punctuator) : Deepens limit levels (optional p) (optional p) :=
  (deepens_look _).bind fun _ => .ite ((deepens_punctuator p).map _).relax (deepens_pure _)

theorem Deepens.manyUntil {p q : Reader true α} {close : Punctuator} (h : Deepens limit levels p q) :
    Deepens limit levels (manyUntil close p) (manyUntil close q) :=
  h.whileM.bind fun _ => (deepens_punctuator close).map _

theorem Deepens.someUntil {p q : Reader true α} {close : Punctuator} (h : Deepens limit levels p q) :
    Deepens limit levels (someUntil close p) (someUntil close q) :=
  h.bind fun _ => h.manyUntil.map _

/-! ### Types and values -/

/-- Two readers of nested items, of which the first is left so many levels, or is missing if none is
left. -/
inductive DeepensItem (limit : Nat) :
    Nat → Option (Reader true α) → Option (Reader true α) → Prop
  | none (q : Option (Reader true α)) : DeepensItem limit 0 none q
  | some {levels : Nat} {p q : Reader true α} : Deepens limit levels p q →
      DeepensItem limit (levels + 1) (some p) (some q)

theorem Deepens.marked {p q : Reader true TypeRef} (h : Deepens limit levels p q) :
    Deepens limit levels (marked p) (marked q) :=
  h.bind fun _ => (deepens_optional .bang).map _

theorem DeepensItem.typeWith {p q : Option (Reader true TypeRef)}
    (h : DeepensItem limit levels p q) (t : Option Token) :
    Deepens limit levels (typeWith limit p t) (typeWith limit' q t) := by
  unfold Reader.typeWith
  split
  · cases h with
    | none => exact (deepens_punctuator .openBracket).bind fun _ => deepens_exceeded
    | some h =>
      exact (deepens_punctuator .openBracket).after fun _ =>
        h.bind fun _ => (deepens_punctuator .closeBracket).map _
  · exact deepens_name.map _

theorem exists_typeRef_eq (limit levels : Nat) :
    ∃ inner, typeRef limit levels = marked (peek (typeWith limit inner)) := by
  cases levels with
  | zero => exact ⟨_, typeRef_zero limit⟩
  | succ levels => exact ⟨_, typeRef_succ limit levels⟩

theorem typeRef_deepens (h : levels ≤ levels') :
    Deepens limit levels (typeRef limit levels) (typeRef limit' levels') := by
  induction levels generalizing levels' with
  | zero =>
    obtain ⟨inner, he⟩ := exists_typeRef_eq limit' levels'
    rw [typeRef_zero, he]
    exact (Deepens.peek (DeepensItem.none inner).typeWith).marked
  | succ levels ih =>
    cases levels' with
    | zero => exact absurd h levels.not_succ_le_zero
    | succ levels' =>
      rw [typeRef_succ, typeRef_succ]
      exact (Deepens.peek (DeepensItem.some (ih (Nat.le_of_succ_le_succ h))).typeWith).marked

variable {constant : Bool}

theorem DeepensItem.valueWith {p q : Option (Reader true Value)}
    (h : DeepensItem limit levels p q) (t : Option Token) :
    Deepens limit levels (valueWith limit constant p t) (valueWith limit' constant q t) := by
  unfold Reader.valueWith
  split
  · exact .ite (deepens_fail fun _ he => by cases he)
      ((deepens_punctuator .dollar).bind fun _ => deepens_name.map _)
  · cases h with
    | none => exact deepens_exceeded
    | some h =>
      exact (deepens_punctuator .openBracket).after fun _ => h.inside.manyUntil.map _
  · cases h with
    | none => exact deepens_exceeded
    | some h =>
      refine (deepens_punctuator .openBrace).after fun _ => Deepens.map (Deepens.manyUntil ?_) _
      exact deepens_name.bind fun _ => (deepens_punctuator .colon).bind fun _ => h.map _
  · exact deepens_take.map _
  · exact deepens_take.map _
  · exact deepens_take.map _
  · exact deepens_take.map _
  · exact deepens_failWith fun _ => unexpectedValue_fault

theorem exists_value_eq (limit : Nat) (constant : Bool) (levels : Nat) :
    ∃ item, value limit constant levels = peek (valueWith limit constant item) := by
  cases levels with
  | zero => exact ⟨_, value_zero limit constant⟩
  | succ levels => exact ⟨_, value_succ limit constant levels⟩

theorem value_deepens (h : levels ≤ levels') :
    Deepens limit levels (value limit constant levels) (value limit' constant levels') := by
  induction levels generalizing levels' with
  | zero =>
    obtain ⟨item, he⟩ := exists_value_eq limit' constant levels'
    rw [value_zero, he]
    exact .peek (DeepensItem.none item).valueWith
  | succ levels ih =>
    cases levels' with
    | zero => exact absurd h levels.not_succ_le_zero
    | succ levels' =>
      rw [value_succ, value_succ]
      exact .peek (DeepensItem.some (ih (Nat.le_of_succ_le_succ h))).valueWith

/-! ### Arguments and directives -/

/-- Items in parentheses, or nothing. -/
theorem Deepens.parenthesised {p q : Reader true α} (h : Deepens limit levels p q) :
    Deepens limit levels
      ((optional .openParen).bind fun found =>
        if found then (Reader.someUntil .closeParen p).relax else Parser.pure [])
      ((optional .openParen).bind fun found =>
        if found then (Reader.someUntil .closeParen q).relax else Parser.pure []) :=
  (deepens_optional _).bind fun _ => .ite h.someUntil.relax (deepens_pure _)

section
variable (h : levels ≤ levels')
include h

theorem argument_deepens :
    Deepens limit levels (argument limit constant levels) (argument limit' constant levels') :=
  deepens_name.bind fun _ => (deepens_punctuator .colon).bind fun _ => (value_deepens h).map _

theorem arguments_deepens :
    Deepens limit levels (arguments limit constant levels) (arguments limit' constant levels') :=
  (argument_deepens h).parenthesised

theorem directive_deepens :
    Deepens limit levels (directive limit constant levels) (directive limit' constant levels') :=
  Deepens.bind (deepens_look _) fun _ => (deepens_punctuator .at).bind fun _ =>
    deepens_name.bind fun _ => (arguments_deepens h).map _

theorem directives_deepens :
    Deepens limit levels (directives limit constant levels) (directives limit' constant levels') :=
  (directive_deepens h).whileM

/-! ### Selections -/

variable {nested nested' : Reader true (List Selection)}
  (hnested : Deepens limit levels nested nested')
include hnested

theorem field_deepens :
    Deepens limit levels (field limit levels nested) (field limit' levels' nested') := by
  refine Deepens.bind (deepens_look _) fun _ => deepens_name.bind fun _ =>
    (deepens_optional _).bind fun _ =>
    Deepens.bind (.ite (deepens_name.map _).relax (deepens_pure _)) fun _ =>
    (arguments_deepens h).bind fun _ => (directives_deepens h).bind fun _ => .peek fun t => ?_
  split
  · exact (hnested.map _).relax
  · exact deepens_pure _

theorem inlineBody_deepens (location : Location) (type : Option Text) :
    Deepens limit levels (inlineBody limit levels nested location type)
      (inlineBody limit' levels' nested' location type) :=
  Deepens.bind (directives_deepens h) fun _ => hnested.map _

theorem selection_deepens :
    Deepens limit levels (selection limit levels nested) (selection limit' levels' nested') := by
  refine Deepens.bind (deepens_look _) fun location => .peek fun t => ?_
  split
  · refine deepens_take.bind fun _ => .peek fun t => ?_
    split
    · refine .ite ?_ ?_
      · exact deepens_take.bind fun _ => deepens_name.bind fun _ =>
          inlineBody_deepens h hnested location _
      · exact deepens_take.bind fun _ => (directives_deepens h).map _
    · exact inlineBody_deepens h hnested location none
  · exact field_deepens h hnested

end

theorem selectionSet_deepens (h : levels ≤ levels') :
    Deepens limit levels (selectionSet limit levels) (selectionSet limit' levels') := by
  induction levels generalizing levels' with
  | zero => exact deepens_exceeded
  | succ levels ih =>
    cases levels' with
    | zero => exact absurd h levels.not_succ_le_zero
    | succ levels' =>
      have hle := Nat.le_of_succ_le_succ h
      exact (deepens_punctuator .openBrace).after fun _ =>
        (selection_deepens hle (ih hle)).inside.someUntil

/-! ### Definitions -/

section
variable (h : limit ≤ limit') (filePath : Option Text)
include h

theorem variableDefinition_deepens :
    Deepens limit limit (variableDefinition limit) (variableDefinition limit') :=
  (deepens_punctuator .dollar).bind fun _ => deepens_name.bind fun _ =>
    (deepens_punctuator .colon).bind fun _ => (typeRef_deepens h).bind fun _ =>
    (deepens_optional .equals).bind fun _ =>
    Deepens.bind (.ite ((value_deepens h).map _).relax (deepens_pure _)) fun _ =>
    (directives_deepens h).map _

theorem operation_deepens (type : OperationType) :
    Deepens limit limit (operation limit filePath type) (operation limit' filePath type) := by
  refine Deepens.bind (deepens_look _) fun _ => deepens_take.bind fun _ =>
    Deepens.bind (.peek fun t => ?_) fun _ =>
    (variableDefinition_deepens h).parenthesised.bind fun _ =>
    (directives_deepens h).bind fun _ => (selectionSet_deepens h).map _
  split
  · exact (deepens_take.map _).relax
  · exact deepens_pure _

theorem shorthand_deepens :
    Deepens limit limit (shorthand limit filePath) (shorthand limit' filePath) :=
  Deepens.bind (deepens_look _) fun _ => (selectionSet_deepens h).map _

theorem fragment_deepens : Deepens limit limit (fragment limit filePath) (fragment limit' filePath) :=
  Deepens.bind (deepens_look _) fun _ => (deepens_keyword _).bind fun _ =>
    Deepens.bind (deepens_look _) fun _ => .ite (deepens_fail fun _ he => by cases he)
      (deepens_name.bind fun _ => (deepens_keyword _).bind fun _ => deepens_name.bind fun _ =>
        (directives_deepens h).bind fun _ => (selectionSet_deepens h).map _)

theorem definition_deepens :
    Deepens limit limit (definition limit filePath) (definition limit' filePath) := by
  have hoperation (type : OperationType) :=
    (operation_deepens h filePath type).map Definition.operation
  refine .peek fun t => ?_
  split
  · exact (shorthand_deepens h filePath).map _
  · exact .ite (hoperation _) (.ite (hoperation _) (.ite (hoperation _)
      (.ite ((fragment_deepens h filePath).map _) (deepens_fail fun _ he => by cases he))))
  · exact deepens_failWith fun s _ => unexpected_fault s

theorem document_deepens : Deepens limit limit (document limit filePath) (document limit' filePath) :=
  (definition_deepens h filePath).bind fun _ => (definition_deepens h filePath).whileM.map _

end

end Reader

/-! ### Scans of sources -/

namespace Scan

theorem readString_fault {t : Text} {fault : SyntaxFault} {k : Nat}
    (h : readString t = .fault fault k) (n : Nat) : fault ≠ .nestingExceeded n := by
  have htext (f : Text.LiteralFault) : faultOfText f ≠ .nestingExceeded n := by
    cases f <;> exact fun he => by cases he
  unfold readString at h
  split_ifs at h with hblock
  · split at h
    · cases h
    · cases h; exact htext _
  · split at h
    · cases h
    · cases h; exact htext _

theorem readNumber_fault {t : Text} {fault : SyntaxFault} {k : Nat}
    (h : readNumber t = .fault fault k) (n : Nat) : fault ≠ .nestingExceeded n := by
  unfold readNumber at h
  split at h
  · rename_i f _ _
    cases h
    cases f <;> exact fun he => by cases he
  · split_ifs at h
    cases h
    exact fun he => by cases he

theorem readToken_fault {c : UInt8} {rest : Text} {fault : SyntaxFault} {k : Nat}
    (h : readToken c rest = .fault fault k) (n : Nat) : fault ≠ .nestingExceeded n := by
  unfold readToken at h
  split at h
  · cases h
  · simp only at h
    split_ifs at h
    · exact readString_fault h n
    · exact readNumber_fault h n
    · cases h
      exact fun he => by cases he

theorem isFlat_scanFrom (place : Location) (lexemes : List Lexeme) (t : Text) :
    (scanFrom place lexemes t).IsFlat := by
  fun_induction scanFrom place lexemes t with
  | case1 => intro c place e he; cases he
  | case2 place lexemes c rest n hi ih => exact ih
  | case3 place lexemes c rest hi token n hr stop ih => exact ih
  | case4 place lexemes c rest hi fault n hr =>
    intro c place e he
    cases he
    exact readToken_fault hr

/-- No token is empty. -/
theorem length_scanFrom_le (place : Location) (lexemes : List Lexeme) (t : Text) :
    (scanFrom place lexemes t).lexemes.length ≤ lexemes.length + t.length := by
  fun_induction scanFrom place lexemes t with
  | case1 => simp
  | case2 place lexemes c rest n hi ih =>
    rw [List.length_drop] at ih
    rw [List.length_cons]
    omega
  | case3 place lexemes c rest hi token n hr stop ih =>
    rw [List.length_drop, List.length_cons] at ih
    rw [List.length_cons]
    omega
  | case4 => simp

end Scan

namespace Document

variable {source : Text} {filePath : Option Text} {limit limit' : Nat}

/-- The source is not parsed because its constructs nest deeper than the limit. -/
def ReachesLimit (source : Text) (filePath : Option Text) (limit : Nat) : Prop :=
  Exceeds (parse source filePath limit)

theorem parse_deepens (h : limit ≤ limit') : Reader.Deeper limit limit (Scan.scan source)
    (Reader.document limit filePath) (Reader.document limit' filePath) :=
  Reader.document_deepens h filePath _ (Scan.isFlat_scanFrom _ _ _)

theorem reachesLimit_iff :
    ReachesLimit source filePath limit ↔
      Exceeds ((Reader.document limit filePath).run (Scan.scan source)) := by
  unfold ReachesLimit parse
  cases (Reader.document limit filePath).run (Scan.scan source) with
  | error e => exact exceeds_error
  | ok x => exact iff_of_false (not_exceeds_ok _) (not_exceeds_ok x)

/-- **The limit is exceeded only by sources that are as long.** -/
theorem le_of_reachesLimit (h : ReachesLimit source filePath limit) : limit ≤ source.length := by
  have htokens := (parse_deepens (Nat.le_refl limit)).deep (reachesLimit_iff.mp h)
  have hlength := Scan.length_scanFrom_le {} [] source
  rw [List.length_nil, Nat.zero_add] at hlength
  exact Nat.le_trans htokens hlength

/-- The failure names the limit that is exceeded. -/
theorem parse_eq_of_reachesLimit (h : ReachesLimit source filePath limit) :
    ∃ place, parse source filePath limit = .error ⟨.nestingExceeded limit, place⟩ := by
  obtain ⟨n, place, hn⟩ := h
  have hread : (Reader.document limit filePath).run (Scan.scan source) =
      .error ⟨.nestingExceeded n, place⟩ := by
    unfold parse at hn
    revert hn
    cases (Reader.document limit filePath).run (Scan.scan source) with
    | error e => exact fun hn => congrArg Except.error (Except.error.inj hn)
    | ok x => exact fun hn => by cases hn
  have hlimit : n = limit := (parse_deepens (Nat.le_refl limit)).named n place hread
  exact ⟨place, hlimit ▸ hn⟩

/-- **A limit that is not exceeded can be raised**: nothing changes. -/
theorem parse_raise (h : limit ≤ limit') (hr : ¬ ReachesLimit source filePath limit) :
    parse source filePath limit' = parse source filePath limit := by
  unfold parse
  rw [(parse_deepens h).same fun he => hr (reachesLimit_iff.mpr he)]

end Document

end QueryCompiler
