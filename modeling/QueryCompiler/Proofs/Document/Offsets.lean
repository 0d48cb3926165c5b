import QueryCompiler.Proofs.Document.Accepted
import QueryCompiler.Proofs.Document.Octets
import QueryCompiler.Proofs.Source.Agreement
import QueryCompiler.Proofs.Source.Places

/-!
# The cursor stays inside the source

Read octet by octet, a source gives the document that its tokens give, or the same fault at a cursor
(`document_follows`). So no move of the cursor passes the end, and the place of every error is that of
an offset of the source, which it identifies (`places_identify_octets`).

Production by production both readings give the same and go on alike (`typeRef_follows`,
`value_follows`, `selection_follows`). Some productions look at the octet at the cursor without going
to the next token first. They agree where the cursor is settled (`selectionSet_agrees`,
`variableDefinitions_agrees`, `definition_agrees`), and what is read before them settles it
(`settles_directives`, `settles_name?`).
-/

namespace QueryCompiler

namespace Scan

theorem startsWithName_of_next? {s : Scan} {text : Text} (hnext : s.next? = some (.name text))
    (k : Text) : s.startsWithName k = decide (text = k) := by
  rw [startsWithName, hnext, Bool.eq_iff_iff, beq_iff_eq, decide_eq_true_iff,
    Option.some.injEq, Token.name.injEq]

theorem any_startsWithName {s : Scan} {text : Text} (hnext : s.next? = some (.name text))
    (ks : List Text) : ks.any s.startsWithName = decide (text ∈ ks) := by
  rw [Bool.eq_iff_iff, List.any_eq_true, decide_eq_true_iff]
  simp only [startsWithName_of_next? hnext, decide_eq_true_eq, exists_eq_right']

end Scan

namespace Reader

theorem run_take_cons (l : Lexeme) (s : Scan) : take.run (s.cons l) = .ok ((), s) := by
  rw [take, Parser.run_map, run_token_cons (a := ()) rfl]
  rfl

theorem run_name_cons {l : Lexeme} {text : Text} (h : l.token = .name text) (s : Scan) :
    name.run (s.cons l) = .ok (text, s) := by
  rw [name, Parser.run_map, nameLexeme, run_token_cons (a := text) (by rw [h]; rfl)]
  rfl

theorem run_keyword_cons {l : Lexeme} {k : Text} (h : l.token = .name k) (s : Scan) :
    (keyword k).run (s.cons l) = .ok ((), s) := by
  rw [keyword, Parser.run_map, run_token_cons (a := ()) (if_pos h)]
  rfl

theorem run_optional_bind {p : Punctuator} {s : Scan} {b : Bool} {α : Type} (f : Bool → Reader b α)
    (h : s.startsWith p = true) :
    ((optional p).bind f).run s = ((punctuator p).bind fun _ => f true).run s := by
  rw [Parser.run_bind, Parser.run_bind, optional, Parser.run_bind, Parser.run_look, h]
  simp only [Except.bind, if_true, Parser.run_relax, Parser.run_map]
  cases (punctuator p).run s <;> rfl

theorem run_optional_bind_of_not {p : Punctuator} {s : Scan} {b : Bool} {α : Type}
    (f : Bool → Reader b α) (h : s.startsWith p = false) :
    ((optional p).bind f).run s = (f false).run s := by
  rw [Parser.run_bind, optional, Parser.run_bind, Parser.run_look, h]
  rfl

/-- A type that starts with no bracket is a name. -/
theorem typeWith_eq_name (limit : Nat) (inner : Option (Reader true TypeRef)) {t : Option Token}
    (h : t ≠ some (.punctuator .openBracket)) : typeWith limit inner t = name.map .named := by
  unfold typeWith
  split
  · exact absurd rfl h
  · rfl

/-- What follows the mark of a spread. -/
def afterSpread (limit levels : Nat) (nested : Reader true (List Document.Selection))
    (location : Location) : Option Token → Reader true Document.Selection
  | some (.name text) =>
    if text = "on" then
      take.bind fun _ => name.bind fun type => inlineBody limit levels nested location (some type)
    else
      take.bind fun _ => (directives limit false levels).map fun ds =>
        .spread ⟨text, ds, location⟩
  | _ => inlineBody limit levels nested location none

theorem afterSpread_of_not_name {limit levels : Nat} {nested : Reader true (List Document.Selection)}
    {location : Location} {t : Option Token} (h : ∀ text, t ≠ some (.name text)) :
    afterSpread limit levels nested location t = inlineBody limit levels nested location none := by
  unfold afterSpread
  split
  · exact absurd rfl (h _)
  · rfl

end Reader

namespace OctetReader

open QueryCompiler.Parser QueryCompiler.Document

variable {source : Text} {b b' d d' : Bool} {α β : Type} {c : Cursor source}

theorem run_here (c : Cursor source) :
    ∃ e, here.run c = .ok (e.scan.here, e) ∧ e.Settled ∧ e.scan = c.scan :=
  run_look_ahead (fun _ hs => hs.here_scan.symm) c

theorem here_follows : Follows (here : OctetReader source false Location) Reader.here := by
  intro c
  obtain ⟨e, hrun, -, hscan⟩ := run_here c
  rw [hrun, Reader.here, run_look, ← hscan]
  exact .ok _ _

/-- Both fail at what comes next. -/
theorem agree_fail (hs : c.Settled) (fault : SyntaxFault) :
    Agree ((fail fault : OctetReader source b α).run c)
      ((Reader.fail fault : Reader d α).run c.scan) := by
  rw [Reader.fail, run_fail, run_failWith, hs.errorHere_scan]
  exact .error _ _

/-- Both fail with what comes next. -/
theorem agree_unexpected (hs : c.Settled) :
    Agree ((unexpected : OctetReader source b α).run c) (.error c.scan.unexpected) := by
  rw [unexpected, run_failWith, Scan.unexpected, hs.octet?_scan]
  cases c.octet? with
  | none =>
    rw [hs.errorHere_scan]
    exact .error _ _
  | some o =>
    simp only [hs.errorHere_scan]
    exact .error _ _

theorem run_ended (c : Cursor source) :
    ∃ e, ended.run c = .ok (e.scan.atEnd, e) ∧ e.Settled ∧ e.scan = c.scan :=
  run_look_ahead (fun _ hs => hs.atEnd_scan.symm) c

theorem inside_follows (close : Punctuator) {item : OctetReader source true α}
    {item' : Reader true α} (h : Follows item item') :
    Follows (inside close item) (Reader.inside close item') := by
  intro c
  obtain ⟨e, hrun, hs, hscan⟩ := run_ended c
  rw [inside, run_bind, hrun, Reader.run_inside, ← hscan]
  exact agree_ite _ (fun _ => agree_fail hs _) fun _ => h e

/-! ### Types -/

theorem typeFrom_follows (limit : Nat) {inner : Option (OctetReader source true TypeRef)}
    {inner' : Option (Reader true TypeRef)} (h : Option.Rel Follows inner inner') :
    Follows (typeFrom limit inner)
      (Reader.marked (Reader.peek (Reader.typeWith limit inner'))) := by
  intro c
  refine Agree.bind ?_ fun type e _ => (optional_follows .bang e).map _
  rw [run_bind, Reader.run_peek]
  rcases run_optional .openBracket c with
    ⟨l, e, hrun, hscan, hl, hstop⟩ | ⟨e, hrun, -, hscan, hstarts⟩
  · rw [hrun, hscan, Scan.next?_cons, hl]
    simp only [Reader.typeWith, Except.bind, if_true, run_bind, Reader.run_punctuator_cons hl]
    cases h with
    | none =>
      -- Nothing is skipped behind the bracket: the fault is where the bracket stops.
      rw [run_fail, Reader.failAt, run_failWith, hstop]
      exact .error _ e
    | some h =>
      exact (h e).bind fun type e' _ => expect_map_follows .closeBracket _ e'
  · rw [hrun, Reader.typeWith_eq_name, ← hscan]
    · exact (name_follows e).map _
    · intro hnext
      rw [Scan.startsWith, hnext] at hstarts
      cases hstarts

theorem typeRef_follows (limit levels : Nat) :
    Follows (typeRef limit levels : OctetReader source true TypeRef)
      (Reader.typeRef limit levels) := by
  induction levels with
  | zero =>
    rw [Reader.typeRef_zero]
    exact typeFrom_follows limit .none
  | succ levels ih =>
    rw [Reader.typeRef_succ]
    exact typeFrom_follows limit (.some ih)

/-! ### Values -/

/-- What follows a punctuator that stands at the cursor. -/
theorem agree_take_bind (hs : c.Settled) {p : Punctuator} (hp : c.peek 0 = p.octet)
    {f : OctetReader source b α} {g : Reader d α} (h : Follows f g) :
    Agree ((take.bind fun _ => f).run c) (((Reader.punctuator p).bind fun _ => g).run c.scan) := by
  obtain ⟨t, hr⟩ := c.rest_of_peek (by cases p <;> decide) hp
  rw [run_bind, run_bind, run_take hr, hs.scan_punctuator hp, Reader.run_punctuator_cons rfl]
  exact h _

/-- A token that is longer than its mark, where both read it alike. -/
theorem agree_literal {limit : Nat} {constant : Bool} {item : Option (Reader true Value)}
    (hs : c.Settled) {o : UInt8} {t : Text} (hr : c.rest = o :: t) {p : OctetReader source true α}
    {f : α → Token} {g : α → Value}
    (hp : (p.map f).run c = tokenOutcome c (Scan.readToken o t))
    (hg : ∀ a, Reader.valueWith limit constant item (some (f a)) = Reader.take.map fun _ => g a) :
    Agree ((p.map g).run c)
      ((Reader.valueWith limit constant item c.scan.next?).run c.scan) := by
  rw [run_map] at hp ⊢
  cases ht : Scan.readToken o t with
  | token token n =>
    rw [Cursor.scan_token hr (hs o t hr) ht, Scan.next?_cons]
    rw [ht] at hp
    cases hrun : p.run c with
    | error e => rw [hrun] at hp; cases hp
    | ok x =>
      obtain ⟨a, e⟩ := x
      rw [hrun] at hp
      obtain ⟨rfl, rfl⟩ : f a = token ∧ e = c.skip n := Prod.mk.inj (Except.ok.inj hp)
      rw [hg, run_map, Reader.run_take_cons]
      exact .ok _ _
  | fault fault n =>
    rw [Cursor.scan_fault hr (hs o t hr) ht]
    rw [ht] at hp
    cases hrun : p.run c with
    | ok x => rw [hrun] at hp; cases hp
    | error e =>
      rw [hrun] at hp
      cases hp
      exact .error _ _

/-- Where a value starts with nothing that it may start with, what comes next is at fault. -/
theorem run_valueWith_unexpected (limit : Nat) (constant : Bool) (item : Option (Reader true Value))
    (hs : c.Settled) (hdollar : c.peek 0 ≠ Punctuator.dollar.octet)
    (hbracket : c.peek 0 ≠ Punctuator.openBracket.octet)
    (hbrace : c.peek 0 ≠ Punctuator.openBrace.octet) (hquote : c.peek 0 ≠ Octet.quote)
    (hnumber : ¬ (c.peek 0 = Octet.minus ∨ Octet.isDigit (c.peek 0) = true))
    (hname : ¬ Octet.isNameStart (c.peek 0) = true) :
    (Reader.valueWith limit constant item c.scan.next?).run c.scan = .error c.scan.unexpected := by
  cases hr : c.rest with
  | nil =>
    rw [Cursor.scan_nil hr]
    rfl
  | cons o t =>
    rw [Cursor.peek_cons hr] at hdollar hbracket hbrace hquote hnumber hname
    rcases Scan.readToken_other t hname hquote hnumber with ⟨p, rfl, ht⟩ | ht | ht
    · rw [Cursor.scan_token hr (hs _ t hr) ht, Scan.next?_cons]
      cases p with
      | dollar => exact absurd rfl hdollar
      | openBracket => exact absurd rfl hbracket
      | openBrace => exact absurd rfl hbrace
      | _ => rfl
    · rw [Cursor.scan_token hr (hs _ t hr) ht]
      rfl
    · rw [Cursor.scan_fault hr (hs _ t hr) ht, Cursor.skip_zero]
      rfl

theorem valueFrom_follows (limit : Nat) (constant : Bool)
    {item : Option (OctetReader source true Value)} {item' : Option (Reader true Value)}
    (h : Option.Rel Follows item item') :
    Follows (valueFrom limit constant item)
      (Reader.peek (Reader.valueWith limit constant item')) := by
  refine follows_skipIgnored fun c hs => ?_
  rw [run_peeking, Reader.run_peek]
  by_cases hdollar : c.peek 0 = Punctuator.dollar.octet
  · rw [if_pos hdollar, hs.next?_eq_punctuator.mpr hdollar]
    exact agree_ite _ (fun _ => agree_fail hs _) fun _ =>
      agree_take_bind hs hdollar fun e => (name_follows e).map _
  rw [if_neg hdollar]
  by_cases hbracket : c.peek 0 = Punctuator.openBracket.octet
  · rw [if_pos hbracket, hs.next?_eq_punctuator.mpr hbracket]
    cases h with
    | none => exact agree_fail hs _
    | some h =>
      exact agree_take_bind hs hbracket fun e =>
        ((inside_follows .closeBracket h).manyUntil .closeBracket e).map _
  rw [if_neg hbracket]
  by_cases hbrace : c.peek 0 = Punctuator.openBrace.octet
  · rw [if_pos hbrace, hs.next?_eq_punctuator.mpr hbrace]
    cases h with
    | none => exact agree_fail hs _
    | some h =>
      have hfield : Follows (name.bind fun key => (expect .colon).bind fun _ =>
          Parser.map (fun v => (key, v)) _) (Reader.name.bind fun key =>
            (Reader.punctuator .colon).bind fun _ => Parser.map (fun v => (key, v)) _) :=
        fun e => (name_follows e).bind fun _ e _ =>
          expect_bind_follows .colon (fun e => (h e).map _) e
      exact agree_take_bind hs hbrace fun e => (hfield.manyUntil .closeBrace e).map _
  rw [if_neg hbrace]
  by_cases hquote : c.peek 0 = Octet.quote
  · obtain ⟨t, hr⟩ := c.rest_of_peek (by decide) hquote
    rw [if_pos hquote]
    exact agree_literal hs hr (by rw [run_string hr, Scan.readToken_quote, hr]) fun _ => rfl
  rw [if_neg hquote]
  by_cases hnumber : c.peek 0 = Octet.minus ∨ Octet.isDigit (c.peek 0)
  · obtain ⟨t, hr⟩ : ∃ t, c.rest = c.peek 0 :: t := by
      refine c.rest_of_peek (fun h0 => ?_) rfl
      rw [h0] at hnumber
      revert hnumber
      decide
    rw [if_pos hnumber]
    refine agree_literal hs hr (f := numberToken) ?_ fun x => ?_
    · rw [run_number, Scan.readToken_number hnumber, hr]
    · rw [numberToken]
      cases x.1 <;> rfl
  rw [if_neg hnumber]
  by_cases hname : Octet.isNameStart (c.peek 0) = true
  · have hvalue := (name_follows c).map Reader.valueOfName
    rw [hs.scan_name hname, run_map _ Reader.name, Reader.run_name_cons rfl] at hvalue
    rw [if_pos hname, hs.scan_name hname, Scan.next?_cons, Reader.valueWith,
      run_map _ Reader.take, Reader.run_take_cons]
    exact hvalue
  rw [if_neg hname, run_valueWith_unexpected limit constant item' hs hdollar hbracket hbrace hquote
    hnumber hname]
  exact agree_unexpected hs

theorem value_follows (limit : Nat) (constant : Bool) (levels : Nat) :
    Follows (value limit constant levels : OctetReader source true Value)
      (Reader.value limit constant levels) := by
  induction levels with
  | zero =>
    rw [Reader.value_zero]
    exact valueFrom_follows limit constant .none
  | succ levels ih =>
    rw [Reader.value_succ]
    exact valueFrom_follows limit constant (.some ih)

/-! ### Tokens that are known before they are taken -/

/-- A token is taken by both, after which the same tokens are ahead. -/
theorem exists_taken {p : OctetReader source b α} {q : Reader d α} (h : Follows p q) {a : α}
    {l : Lexeme} {s : Scan} (hscan : c.scan = s.cons l) (hq : q.run (s.cons l) = .ok (a, s)) :
    ∃ l e, p.run c = .ok (a, e) ∧ c.scan = e.scan.cons l := by
  have hagree := h c
  rw [hscan, hq] at hagree
  obtain ⟨e, hrun, rfl⟩ := hagree.eq_ok
  exact ⟨l, e, hrun, hscan⟩

theorem exists_name_taken (hs : c.Settled) {text : Text}
    (hnext : c.scan.next? = some (.name text)) :
    ∃ l e, name.run c = .ok (text, e) ∧ c.scan = e.scan.cons l := by
  obtain ⟨hstart, rfl⟩ := hs.next?_eq_name.mp hnext
  exact exists_taken name_follows (hs.scan_name hstart) (Reader.run_name_cons rfl _)

theorem exists_keyword_taken (hs : c.Settled) {k : Text} (hk : k.IsName)
    (hnext : c.scan.next? = some (.name k)) :
    ∃ l e, (keyword k).run c = .ok ((), e) ∧ c.scan = e.scan.cons l := by
  obtain ⟨hstart, rfl⟩ := hs.next?_eq_name.mp hnext
  exact exists_taken (keyword_follows hk) (hs.scan_name hstart) (Reader.run_keyword_cons rfl _)

/-- What follows a token that the one takes unseen and the other reads. -/
theorem agree_bind_take {p : OctetReader source b α} {f : α → OctetReader source b' β}
    {g : Reader d β} {a : α} (hp : ∃ l e, p.run c = .ok (a, e) ∧ c.scan = e.scan.cons l)
    (h : Follows (f a) g) :
    Agree ((p.bind f).run c) ((Reader.take.bind fun _ => g).run c.scan) := by
  obtain ⟨l, e, hrun, hscan⟩ := hp
  rw [run_bind, run_bind, hrun, hscan, Reader.run_take_cons]
  exact h e

/-! ### Arguments and directives -/

theorem argument_follows (limit : Nat) (constant : Bool) (levels : Nat) :
    Follows (argument limit constant levels : OctetReader source true Argument)
      (Reader.argument limit constant levels) :=
  fun c => (name_follows c).bind fun _ e _ =>
    expect_bind_follows .colon (fun e => (value_follows limit constant levels e).map _) e

theorem arguments_follows (limit : Nat) (constant : Bool) (levels : Nat) :
    Follows (arguments limit constant levels : OctetReader source false (List Argument))
      (Reader.arguments limit constant levels) :=
  fun c => (optional_follows .openParen c).bind fun found e _ =>
    agree_ite found (fun _ => (argument_follows limit constant levels).someUntil .closeParen e)
      fun _ => .ok [] e

/-- The place of the token at the cursor. -/
theorem agree_place (hs : c.Settled) :
    Agree ((look Cursor.place).run c) (Reader.here.run c.scan) := by
  rw [Reader.here, run_look, run_look, hs.here_scan]
  exact .ok _ _

theorem directive_agrees (limit : Nat) (constant : Bool) (levels : Nat) (hs : c.Settled)
    (hat : c.peek 0 = Punctuator.at.octet) :
    Agree ((directive limit constant levels).run c)
      ((Reader.directive limit constant levels).run c.scan) := by
  refine (agree_place hs).bind fun location e he => ?_
  obtain ⟨-, rfl⟩ := Prod.mk.inj (Except.ok.inj he)
  refine agree_take_bind hs hat fun e => (name_follows e).bind fun directiveName e _ => ?_
  exact (arguments_follows limit constant levels e).map _

theorem directives_follows (limit : Nat) (constant : Bool) (levels : Nat) :
    Follows (directives limit constant levels : OctetReader source false (List Directive))
      (Reader.directives limit constant levels) := by
  refine follows_whileM (fun c hs => ?_) fun c hs hat =>
    directive_agrees limit constant levels hs ?_
  · rw [hs.startsWith_scan]
    rfl
  · rwa [hs.startsWith_scan, beq_iff_eq] at hat

theorem settles_directives (limit : Nat) (constant : Bool) (levels : Nat) :
    Settles (directives limit constant levels : OctetReader source false (List Directive)) :=
  settles_untilM (settles_skipIgnored _)

/-! ### Selections -/

section Selections
variable {limit levels : Nat} {nested : OctetReader source true (List Selection)}
  {nested' : Reader true (List Selection)}
  (h : ∀ c, c.Settled → Agree (nested.run c) (nested'.run c.scan))
include h

theorem inlineBody_follows (location : Location) (typeCondition : Option Text) :
    Follows (inlineBody limit levels nested location typeCondition)
      (Reader.inlineBody limit levels nested' location typeCondition) :=
  fun c => (directives_follows limit false levels c).bind fun _ e he =>
    (h e (settles_directives limit false levels c _ e he)).map _

theorem field_follows :
    Follows (field limit levels nested) (Reader.field limit levels nested') := by
  intro c
  refine (here_follows c).bind fun location e _ => ?_
  refine (name_follows e).bind fun first e _ => ?_
  refine (optional_follows .colon e).bind fun aliased e _ => ?_
  refine Agree.bind ?_ fun (fieldAlias, fieldName) e _ => ?_
  · exact agree_ite aliased (fun _ => (name_follows e).map _) fun _ => .ok _ e
  refine (arguments_follows limit false levels e).bind fun args e _ => ?_
  refine (directives_follows limit false levels e).bind fun ds e _ => ?_
  refine follows_skipIgnored (fun e hs => ?_) e
  rw [run_peeking, Reader.run_peek]
  by_cases hbrace : e.peek 0 = Punctuator.openBrace.octet
  · rw [if_pos hbrace, hs.next?_eq_punctuator.mpr hbrace]
    exact (h e hs).map _
  · rw [if_neg hbrace]
    split
    · rename_i hnext
      exact absurd (hs.next?_eq_punctuator.mp hnext) hbrace
    · exact .ok _ e

theorem afterSpread_follows (location : Location) :
    Follows (afterSpread limit levels nested location)
      (Reader.peek (Reader.afterSpread limit levels nested' location)) := by
  intro c
  obtain ⟨e, hrun, hs, hscan⟩ := run_startsName (k := "on") (by decide) c
  rw [afterSpread, run_bind, hrun, Reader.run_peek, ← hscan]
  simp only [Except.bind]
  cases hon : e.scan.startsWithName "on" with
  | true =>
    have hnext : e.scan.next? = some (.name "on") := beq_iff_eq.mp hon
    rw [if_pos rfl, hnext, Reader.afterSpread, if_pos rfl]
    exact agree_bind_take (exists_keyword_taken hs (by decide) hnext) fun e =>
      (name_follows e).bind fun type e _ => inlineBody_follows h location (some type) e
  | false =>
    rw [if_neg Bool.false_ne_true, run_peeking]
    by_cases hname : Octet.isNameStart (e.peek 0) = true
    · have hnext := hs.next?_eq_name.mpr ⟨hname, rfl⟩
      rw [Scan.startsWithName_of_next? hnext, decide_eq_false_iff_not] at hon
      rw [if_pos hname, hnext, Reader.afterSpread, if_neg hon]
      exact agree_bind_take (exists_name_taken hs hnext) fun e =>
        (directives_follows limit false levels e).map _
    · rw [if_neg hname, Reader.afterSpread_of_not_name fun text hnext =>
        hname (hs.next?_eq_name.mp hnext).1]
      exact inlineBody_follows h location none e

theorem selection_follows :
    Follows (selection limit levels nested) (Reader.selection limit levels nested') := by
  intro c
  refine (here_follows c).bind fun location e _ => ?_
  rw [run_bind, Reader.run_peek]
  rcases run_spread e with ⟨l, e', hrun, hscan, hl⟩ | ⟨e', hrun, hscan, hnext⟩
  · rw [hrun, hscan, Scan.next?_cons, hl]
    simp only [Except.bind, if_true, run_bind, Reader.run_take_cons]
    exact afterSpread_follows h location e'
  · rw [hrun, ← hscan]
    split
    · rename_i hspread
      exact absurd (hscan ▸ hspread) hnext
    · exact field_follows h e'

end Selections

/-- At a token a selection set is read alike; the level that is missing is missed there. -/
theorem selectionSet_agrees (limit levels : Nat) (c : Cursor source) (hs : c.Settled) :
    Agree ((selectionSet limit levels).run c) ((Reader.selectionSet limit levels).run c.scan) := by
  induction levels generalizing c with
  | zero => exact agree_fail hs _
  | succ levels ih =>
    exact expect_bind_follows .openBrace
      ((inside_follows .closeBrace (selection_follows ih)).someUntil .closeBrace) c

/-! ### Definitions -/

theorem variableDefinition_follows (limit : Nat) :
    Follows (variableDefinition limit : OctetReader source true Variable)
      (Reader.variableDefinition limit) := by
  refine expect_bind_follows .dollar fun e => (name_follows e).bind fun variableName e _ => ?_
  refine expect_bind_follows .colon (fun e => ?_) e
  refine (typeRef_follows limit limit e).bind fun type e _ => ?_
  refine (optional_follows .equals e).bind fun hasDefault e _ => ?_
  refine Agree.bind ?_ fun default e _ => (directives_follows limit true limit e).map _
  exact agree_ite hasDefault (fun _ => (value_follows limit true limit e).map _) fun _ => .ok _ e

theorem variableDefinitions_agrees (limit : Nat) (hs : c.Settled) :
    Agree ((variableDefinitions limit).run c) ((Reader.variableDefinitions limit).run c.scan) := by
  have hstarts := hs.startsWith_scan .openParen
  rw [variableDefinitions, run_peeking, Reader.variableDefinitions]
  by_cases hopen : c.peek 0 = Punctuator.openParen.octet
  · rw [hopen, beq_self_eq_true] at hstarts
    rw [if_pos hopen, run_relax, Reader.run_optional_bind _ hstarts]
    exact expect_bind_follows .openParen
      ((variableDefinition_follows limit).someUntil .closeParen) c
  · rw [beq_false_of_ne hopen] at hstarts
    rw [if_neg hopen, Reader.run_optional_bind_of_not _ hstarts]
    exact .ok [] c

theorem name?_follows :
    Follows (name? : OctetReader source false (Option Text)) Reader.name? := by
  refine follows_skipIgnored fun c hs => ?_
  rw [run_peeking, Reader.name?, Reader.run_peek]
  by_cases hname : Octet.isNameStart (c.peek 0) = true
  · have hnext := hs.next?_eq_name.mpr ⟨hname, rfl⟩
    obtain ⟨l, e, hrun, hscan⟩ := exists_name_taken hs hnext
    obtain ⟨e', hrun', -, hscan'⟩ := run_skipIgnored e
    rw [if_pos hname, hnext, run_relax, run_bind, hrun, hscan]
    simp only [Except.bind, run_map, hrun', run_relax, Reader.run_take_cons, ← hscan']
    exact .ok _ e'
  · rw [if_neg hname]
    split
    · rename_i hnext
      exact absurd (hs.next?_eq_name.mp hnext).1 hname
    · exact .ok none c

theorem settles_name? : Settles (name? : OctetReader source false (Option Text)) := by
  intro c n e h
  obtain ⟨e₁, hrun, hs, -⟩ := run_skipIgnored c
  rw [name?, run_bind, hrun] at h
  simp only [Except.bind, run_peeking] at h
  split_ifs at h
  · obtain ⟨text, e₂, -, h⟩ := bind_eq_ok.mp h
    obtain ⟨e₃, hrun₃, hs₃, -⟩ := run_skipIgnored e₂
    rw [run_map, hrun₃] at h
    cases h
    exact hs₃
  · obtain ⟨-, rfl⟩ := pure_eq_ok.mp h
    exact hs

/-- An operation with its keyword. -/
theorem operation_agrees (limit : Nat) (filePath : Option Text) {text : Text}
    (hnext : c.scan.next? = some (.name text)) :
    Agree ((operation limit filePath).run c)
      ((Reader.operation limit filePath (operationOfKeyword text)).run c.scan) := by
  obtain ⟨e, hrun, hs, hscan⟩ := run_here c
  rw [← hscan] at hnext
  have hbrace : e.peek 0 ≠ Punctuator.openBrace.octet := by
    intro hbrace
    rw [hs.next?_eq_punctuator.mpr hbrace] at hnext
    cases hnext
  rw [operation, run_bind, hrun, Reader.operation, run_bind, Reader.here, run_look, ← hscan]
  simp only [Except.bind, run_peeking, if_neg hbrace]
  refine agree_bind_take (exists_name_taken hs hnext) fun e => ?_
  refine (name?_follows e).bind fun operationName e he => ?_
  refine (variableDefinitions_agrees limit (settles_name? _ _ e he)).bind fun vars e _ => ?_
  refine (directives_follows limit false limit e).bind fun ds e he => ?_
  exact (selectionSet_agrees limit limit e (settles_directives limit false limit _ ds e he)).map _

/-- An operation that is a selection set. -/
theorem shorthand_agrees (limit : Nat) (filePath : Option Text)
    (hnext : c.scan.next? = some (.punctuator .openBrace)) :
    Agree ((operation limit filePath).run c) ((Reader.shorthand limit filePath).run c.scan) := by
  obtain ⟨e, hrun, hs, hscan⟩ := run_here c
  rw [← hscan] at hnext
  rw [operation, run_bind, hrun, Reader.shorthand, run_bind, Reader.here, run_look, ← hscan]
  simp only [Except.bind, run_peeking, if_pos (hs.next?_eq_punctuator.mp hnext)]
  exact (selectionSet_agrees limit limit e hs).map _

theorem fragment_follows (limit : Nat) (filePath : Option Text) :
    Follows (fragment limit filePath : OctetReader source true Fragment)
      (Reader.fragment limit filePath) := by
  intro c
  refine (here_follows c).bind fun location e _ => ?_
  refine (keyword_follows (by decide) e).bind fun _ e _ => ?_
  obtain ⟨e', hrun, hs, hscan⟩ := run_startsName (k := "on") (by decide) e
  rw [run_bind, hrun, run_bind, run_look, ← hscan]
  refine agree_ite _ (fun _ => agree_fail hs _) fun _ => ?_
  refine (name_follows e').bind fun fragmentName e _ => ?_
  refine (keyword_follows (by decide) e).bind fun _ e _ => ?_
  refine (name_follows e).bind fun type e _ => ?_
  refine (directives_follows limit false limit e).bind fun ds e he => ?_
  exact (selectionSet_agrees limit limit e (settles_directives limit false limit _ ds e he)).map _

theorem run_startsAny {ks : List Text} (hks : ∀ k ∈ ks, k.IsName) (hs : c.Settled) :
    ∃ e, (startsAny ks).run c = .ok (ks.any c.scan.startsWithName, e) ∧ e.Settled ∧
      e.scan = c.scan := by
  induction ks generalizing c with
  | nil => exact ⟨c, rfl, hs, rfl⟩
  | cons k ks ih =>
    obtain ⟨e, hrun, hs, hscan⟩ := run_startsName (hks k List.mem_cons_self) c
    rw [startsAny, run_bind, hrun, List.any_cons, ← hscan]
    cases hfound : e.scan.startsWithName k with
    | true => exact ⟨e, rfl, hs, rfl⟩
    | false => exact ih (fun k hk => hks k (List.mem_cons_of_mem _ hk)) hs

theorem run_startsOperation (hs : c.Settled) :
    ∃ e, startsOperation.run c = .ok (c.scan.startsWith .openBrace ||
      operationKeywords.any c.scan.startsWithName, e) ∧ e.Settled ∧ e.scan = c.scan := by
  rw [startsOperation, run_peeking, hs.startsWith_scan]
  by_cases hbrace : c.peek 0 = Punctuator.openBrace.octet
  · rw [if_pos hbrace, hbrace, beq_self_eq_true]
    exact ⟨c, rfl, hs, rfl⟩
  · rw [if_neg hbrace, beq_false_of_ne hbrace]
    exact run_startsAny (by decide) hs

/-- A definition that starts with a name. -/
theorem definition_agrees_of_name (limit : Nat) (filePath : Option Text) (hs : c.Settled)
    {text : Text} (hnext : c.scan.next? = some (.name text)) :
    Agree ((definition limit filePath).run c) ((Reader.definition limit filePath).run c.scan) := by
  obtain ⟨e, hrun, hs, hscan⟩ := run_startsOperation hs
  have hbrace : c.scan.startsWith .openBrace = false := by
    rw [Scan.startsWith, hnext]
    rfl
  rw [hbrace, Scan.any_startsWithName hnext, Bool.false_or] at hrun
  rw [definition, run_bind, hrun, Reader.definition, Reader.run_peek, hnext, ← hscan]
  rw [← hscan] at hnext
  show Agree _ (Parser.run (if text = "query" then _ else if text = "mutation" then _ else
    if text = "subscription" then _ else if text = "fragment" then _ else _) _)
  simp only [Except.bind]
  by_cases hkeyword : text ∈ operationKeywords
  · have hagree := (operation_agrees limit filePath hnext).map Document.Definition.operation
    rw [decide_eq_true hkeyword, if_pos rfl]
    simp only [operationKeywords, List.mem_cons, List.not_mem_nil, or_false] at hkeyword
    rcases hkeyword with rfl | rfl | rfl
    · rw [if_pos rfl]
      exact hagree
    · rw [if_neg (by decide), if_pos rfl]
      exact hagree
    · rw [if_neg (by decide), if_neg (by decide), if_pos rfl]
      exact hagree
  · obtain ⟨e', hrun', hs', hscan'⟩ := run_startsName (k := "fragment") (by decide) e
    rw [decide_eq_false hkeyword, if_neg Bool.false_ne_true, run_bind, hrun', ← hscan']
    rw [← hscan'] at hnext
    simp only [operationKeywords, List.mem_cons, List.not_mem_nil, or_false, not_or] at hkeyword
    obtain ⟨hq, hm, hsub⟩ := hkeyword
    rw [if_neg hq, if_neg hm, if_neg hsub, Scan.startsWithName_of_next? hnext]
    simp only [Except.bind]
    by_cases hf : text = "fragment"
    · rw [decide_eq_true hf, if_pos rfl, if_pos hf]
      exact (fragment_follows limit filePath e').map _
    · obtain ⟨l, e'', hname, -⟩ := exists_name_taken hs' hnext
      rw [decide_eq_false hf, if_neg Bool.false_ne_true, if_neg hf, run_peeking,
        if_pos (hs'.next?_eq_name.mp hnext).1, unexpectedName, run_failWith, hname]
      rw [Reader.fail, run_failWith, hs'.errorHere_scan]
      exact .error _ e'

/-- Nothing that a definition may start with. -/
theorem definition_agrees_of_other (limit : Nat) (filePath : Option Text) (hs : c.Settled)
    (hbrace : c.scan.next? ≠ some (.punctuator .openBrace))
    (hname : ∀ text, c.scan.next? ≠ some (.name text)) :
    Agree ((definition limit filePath).run c) ((Reader.definition limit filePath).run c.scan) := by
  obtain ⟨e, hrun, hs, hscan⟩ := run_startsOperation hs
  obtain ⟨e', hrun', hs', hscan'⟩ := run_startsName (k := "fragment") (by decide) e
  have hstarts : ∀ k, c.scan.startsWithName k = false := fun k => beq_false_of_ne (hname k)
  have hany : operationKeywords.any c.scan.startsWithName = false := by
    simp only [List.any_eq_false, hstarts, Bool.false_eq_true, not_false_iff, implies_true]
  have hpeek : ¬ Octet.isNameStart (e'.peek 0) = true := fun h =>
    hname e'.word (by rw [← hscan, ← hscan']; exact hs'.next?_eq_name.mpr ⟨h, rfl⟩)
  have hbrace' : c.scan.startsWith .openBrace = false := beq_false_of_ne hbrace
  rw [hbrace', hany, Bool.or_false] at hrun
  rw [definition, run_bind, hrun, Reader.definition, Reader.run_peek]
  simp only [Except.bind, Bool.false_eq_true, if_false, run_bind, hrun', hscan', hscan, hstarts,
    run_peeking, if_neg hpeek]
  rw [run_failWith, ← hscan, ← hscan']
  exact agree_unexpected hs'

theorem definition_agrees (limit : Nat) (filePath : Option Text) (hs : c.Settled) :
    Agree ((definition limit filePath).run c) ((Reader.definition limit filePath).run c.scan) := by
  by_cases hbrace : c.scan.next? = some (.punctuator .openBrace)
  · obtain ⟨e, hrun, hs, hscan⟩ := run_startsOperation hs
    rw [Scan.startsWith, hbrace, beq_self_eq_true, Bool.true_or] at hrun
    rw [definition, run_bind, hrun, Reader.definition, Reader.run_peek, hbrace, ← hscan]
    exact (shorthand_agrees limit filePath (by rw [hscan, hbrace])).map _
  · by_cases hname : ∃ text, c.scan.next? = some (.name text)
    · obtain ⟨text, hnext⟩ := hname
      exact definition_agrees_of_name limit filePath hs hnext
    · exact definition_agrees_of_other limit filePath hs hbrace (not_exists.mp hname)

/-- Without a first definition there is no document. -/
theorem run_document_of_not_atEnd (limit : Nat) (filePath : Option Text) {s : Scan}
    (h : s.atEnd = false) : (Reader.document limit filePath).run s =
      ((whileM (fun s => !s.atEnd) (Reader.definition limit filePath)).map
        Document.ofDefinitions).run s := by
  have hstarts : (!s.atEnd) = true := by rw [h]; rfl
  rw [Reader.document, run_bind, run_map, run_whileM_step (s := s) hstarts]
  cases (Reader.definition limit filePath).run s with
  | error e => rfl
  | ok x =>
    simp only [Except.bind, run_map]
    cases (whileM (fun s => !s.atEnd) (Reader.definition limit filePath)).run x.2 <;> rfl

/-- **Documents.** -/
theorem document_follows (limit : Nat) (filePath : Option Text) :
    Follows (document limit filePath : OctetReader source false Document)
      (Reader.document limit filePath) := by
  intro c
  obtain ⟨e, hrun, hs, hscan⟩ := run_ended c
  rw [document, run_bind, hrun, ← hscan]
  simp only [Except.bind]
  cases hend : e.scan.atEnd with
  | true =>
    have hr : e.rest = [] := by
      rwa [hs.atEnd_scan, Cursor.atEnd_eq, List.isEmpty_iff] at hend
    rw [if_pos rfl, run_fail, Cursor.scan_nil hr]
    exact .error _ e
  | false =>
    rw [if_neg Bool.false_ne_true, run_document_of_not_atEnd limit filePath hend]
    have hdefinitions : Follows
        (untilM ended (definition limit filePath) : OctetReader source false (List Definition))
        (whileM (fun s => !s.atEnd) (Reader.definition limit filePath)) :=
      follows_whileM (fun c hs => by rw [hs.atEnd_scan, Bool.not_not])
        fun c hs _ => definition_agrees limit filePath hs
    exact (hdefinitions e).map _

/-- Both read the same document, or fail with the same fault, the one at a cursor and the other at
its place. -/
theorem exists_outcome (source : Text) (filePath : Option Text) (limit : Nat) :
    ∃ outcome : Except (SyntaxFault × Cursor source) Document,
      parse source filePath limit = outcome.mapError (fun (fault, c) => .fault fault c) ∧
      Document.parse source filePath limit =
        outcome.mapError fun (fault, c) => ⟨fault, Location.ofOffset source c.offset⟩ := by
  have hagree := document_follows limit filePath (Cursor.start source)
  rw [Cursor.scan_start] at hagree
  rw [parse, Document.parse]
  generalize (document limit filePath).run (Cursor.start source) = x at hagree
  generalize (Reader.document limit filePath).run (Scan.scan source) = y at hagree
  cases hagree with
  | ok d c => exact ⟨.ok d, rfl, rfl⟩
  | error fault c => exact ⟨.error (fault, c), rfl, rfl⟩

end OctetReader

namespace Document

/-- **The place of an error identifies an octet of the source.** From the start of a source to its end
places go up strictly, lines first, so that no two offsets have one place; the line counts the line
feeds, carriage returns and pairs of the two that end before the offset, and the column the octets
since the last of them. Every error of a parser has the place of an offset that is not behind the end:
read octet by octet, the source gives the same document, or the same fault at a cursor with this place,
and no move of the cursor would have passed the end. -/
theorem places_identify_octets (source : Text) (filePath : Option Text) (limit : Nat) :
    StrictMonoOn (fun p => (Location.ofOffset source p).position) (Set.Iic source.length) ∧
    Set.InjOn (Location.ofOffset source) (Set.Iic source.length) ∧
    (∀ p ≤ source.length, Location.lineStart source p ≤ p ∧ Location.ofOffset source p =
      ⟨1 + Location.linesEnded source p, p - Location.lineStart source p + 1⟩) ∧
    (∀ e, parse source filePath limit = .error e →
      ∃ p ≤ source.length, e.location = Location.ofOffset source p) ∧
    OctetReader.parse source filePath limit ≠ .error .overrun ∧
    ∃ outcome : Except (SyntaxFault × Cursor source) Document,
      OctetReader.parse source filePath limit = outcome.mapError (fun (fault, c) => .fault fault c) ∧
      parse source filePath limit =
        outcome.mapError fun (fault, c) => ⟨fault, Location.ofOffset source c.offset⟩ := by
  have hmono := Location.strictMonoOn_ofOffset source
  obtain ⟨outcome, hoctets, htokens⟩ := OctetReader.exists_outcome source filePath limit
  refine ⟨hmono, ?_, ?_, ?_, ?_, outcome, hoctets, htokens⟩
  · exact fun m hm n hn h => hmono.injOn hm hn (congrArg Location.position h)
  · exact fun p hp => ⟨Location.lineStart_le source p, Location.ofOffset_eq hp⟩
  · intro e he
    rw [htokens] at he
    cases outcome with
    | ok d => cases he
    | error x =>
      cases he
      exact ⟨x.2.offset, x.2.offset_le, rfl⟩
  · intro h
    rw [hoctets] at h
    cases outcome with
    | ok d => cases h
    | error x => cases h

end Document

end QueryCompiler
