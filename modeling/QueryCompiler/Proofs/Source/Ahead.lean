import QueryCompiler.Proofs.Source.Octets
import QueryCompiler.Proofs.Source.Splitting

/-!
# The tokens ahead of a cursor

From every cursor on, what is left of a source is cut into tokens: the tokens ahead. Moving the cursor
to the next token does not change them (`run_skipIgnored`). There the cursor is `Settled`: its octets
tell which token comes next, and where (`Settled.here_scan`, `Settled.next?_eq_punctuator`,
`Settled.next?_eq_name`, `Settled.next?_eq_spread`).
-/

namespace QueryCompiler

namespace Scan

/-- The scan with one lexeme more in front. -/
def cons (l : Lexeme) (s : Scan) : Scan := ⟨l :: s.lexemes, s.ending⟩

theorem next?_cons (l : Lexeme) (s : Scan) : (s.cons l).next? = some l.token := rfl

theorem scanFrom_append (place : Location) (lexemes before : List Lexeme) (t : Text) :
    scanFrom place (lexemes ++ before) t =
      ⟨before.reverse ++ (scanFrom place lexemes t).lexemes,
        (scanFrom place lexemes t).ending⟩ := by
  fun_induction scanFrom place lexemes t with
  | case1 => rw [scanFrom, List.reverse_append]
  | case2 place lexemes c rest n hi ih => rw [scanFrom, hi, ← ih]
  | case3 place lexemes c rest hi token n hr stop ih =>
    rw [scanFrom, hi, ← ih]
    simp only [hr]
    rfl
  | case4 place lexemes c rest hi fault n hr =>
    rw [scanFrom, hi, List.reverse_append]
    simp only [hr]

theorem scanFrom_singleton (place : Location) (l : Lexeme) (t : Text) :
    scanFrom place [l] t = (scanFrom place [] t).cons l :=
  scanFrom_append place [] [l] t

end Scan

namespace Cursor

variable {source : Text} {c : Cursor source} {o : UInt8} {t : Text} {n : Nat}

/-- The tokens ahead of a cursor. -/
def scan (c : Cursor source) : Scan := Scan.scanFrom c.place [] c.rest

theorem scan_start (source : Text) : (start source).scan = Scan.scan source := by
  rw [scan, place, start, Location.ofOffset, Location.advance_zero]
  rfl

theorem scan_nil (h : c.rest = []) : c.scan = ⟨[], .finished c.place⟩ := by
  rw [scan, h, Scan.scanFrom]
  rfl

theorem scan_ignored (h : c.rest = o :: t) (hi : Scan.ignored o t = n + 1) :
    c.scan = (c.skip (n + 1)).scan := by
  rw [scan, scan, h, Scan.scanFrom, hi, place_skip, rest_skip, h, List.drop_succ_cons]

theorem scan_token {token : Token} (h : c.rest = o :: t) (hi : Scan.ignored o t = 0)
    (hr : Scan.readToken o t = .token token n) :
    c.scan = (c.skip n).scan.cons ⟨token, c.place, (c.skip n).place⟩ := by
  obtain ⟨k, rfl⟩ := Nat.exists_eq_succ_of_ne_zero (Scan.lexes_of_readToken hr).length_ne_zero
  rw [scan, scan, h, Scan.scanFrom, hi, place_skip, rest_skip, h, List.drop_succ_cons]
  simp only [hr]
  exact Scan.scanFrom_singleton _ _ _

theorem scan_fault {fault : SyntaxFault} (h : c.rest = o :: t) (hi : Scan.ignored o t = 0)
    (hr : Scan.readToken o t = .fault fault n) :
    c.scan = ⟨[], .stuck o c.place ⟨fault, (c.skip n).place⟩⟩ := by
  rw [scan, h, Scan.scanFrom, hi, place_skip, h]
  simp only [hr]
  rfl

/-- The octets of a name from the cursor on. -/
def word (c : Cursor source) : Text := c.rest.takeWhile Octet.isNameContinue

theorem word_prefix (c : Cursor source) : c.word <+: c.rest := List.takeWhile_prefix _

/-- A token comes next, or the end, or something that is no token. -/
def Settled (c : Cursor source) : Prop := ∀ o t, c.rest = o :: t → Scan.ignored o t = 0

end Cursor

namespace OctetReader

open QueryCompiler.Parser

variable {source : Text} {c : Cursor source} {o : UInt8} {t : Text} {n : Nat}

theorem startsGap_eq (h : c.rest = o :: t) : startsGap c = (Scan.ignored o t != 0) := by
  rw [startsGap, Cursor.atEnd_cons h, Cursor.peek_cons h, Cursor.startsWith_eq, h, Scan.ignored]
  split_ifs with hs hh hm
  · rw [hs]
    rfl
  · have hne : (1 + (t.takeWhile fun d => !Octet.isLineTerminator d).length != 0) = true :=
      bne_iff_ne.mpr (by omega)
    rw [hh, hne, beq_self_eq_true, Bool.or_true, Bool.true_or]
    rfl
  · rw [hm, Bool.or_true]
    rfl
  · simp [hs, hh, hm]

theorem run_gap (h : c.rest = o :: t) (hi : Scan.ignored o t = n + 1) :
    gap.run c = .ok ((), c.skip (n + 1)) := by
  rw [gap, run_peeking, Cursor.peek_cons h]
  rw [Scan.ignored] at hi
  split_ifs at hi ⊢ with hs hh hm
  · obtain rfl := Nat.succ.inj hi
    rw [run_map, run_take h]
    rfl
  · have hrest : (c.skip 1).rest = t := by rw [Cursor.rest_skip, h]; rfl
    rw [comment, run_bind, run_take h]
    simp only [Except.bind, run_skipWhile, hrest, Cursor.skip_skip, hi]
  · have hlength : 3 ≤ c.rest.length := by
      rw [h]
      exact (List.isPrefixOf_iff_prefix.mp hm).length_le
    obtain rfl : 2 = n := by omega
    rw [run_move hlength]

/-- **A cursor is moved to the next token** without a change of the tokens ahead. -/
theorem run_skipIgnored (c : Cursor source) :
    ∃ d, skipIgnored.run c = .ok ((), d) ∧ d.Settled ∧ d.scan = c.scan := by
  have hwhile : ∃ us d, (whileM startsGap gap).run c = .ok (us, d) ∧ d.Settled ∧
      d.scan = c.scan := by
    induction hsize : c.rest.length using Nat.strongRecOn generalizing c with
    | ind size ih =>
      cases hr : c.rest with
      | nil =>
        refine ⟨[], c, run_whileM_stop ?_, fun o t h => ?_, rfl⟩
        · rw [startsGap, Cursor.atEnd_nil hr]
          rfl
        · rw [hr] at h
          cases h
      | cons o t =>
        have hstarts := startsGap_eq hr
        cases hi : Scan.ignored o t with
        | zero =>
          refine ⟨[], c, run_whileM_stop (by rw [hstarts, hi]; rfl), fun o' t' h => ?_, rfl⟩
          rw [hr] at h
          cases h
          exact hi
        | succ n =>
          have hlt : (c.skip (n + 1)).rest.length < size := by
            rw [Cursor.rest_skip, ← hsize, hr, List.length_drop, List.length_cons]
            omega
          obtain ⟨us, d, hrun, hd, hscan⟩ := ih _ hlt (c.skip (n + 1)) rfl
          refine ⟨() :: us, d, ?_, hd, hscan.trans (Cursor.scan_ignored hr hi).symm⟩
          rw [run_whileM_step (by rw [hstarts, hi]; rfl), run_gap hr hi]
          show Except.map _ ((whileM startsGap gap).run (c.skip (n + 1))) = _
          rw [hrun]
          rfl
  obtain ⟨us, d, hrun, hd⟩ := hwhile
  refine ⟨d, ?_, hd⟩
  rw [skipIgnored, run_map, hrun]
  rfl

end OctetReader

/-! ### What comes next -/

namespace Scan

theorem Lexes.first {o : UInt8} {t rest : Text} {token : Token} (h : Lexes (o :: t) token rest) :
    token.first = o := by
  generalize ht : o :: t = text at h
  cases h with
  | punctuator p => exact (List.cons.inj ht).1.symm
  | spread => exact (List.cons.inj ht).1.symm
  | name hn =>
    obtain ⟨c, more, rfl, -, -⟩ := hn
    exact (List.cons.inj ht).1.symm
  | int hl =>
    obtain ⟨c, more, rfl, -⟩ := hl.start
    exact (List.cons.inj ht).1.symm
  | float hl =>
    obtain ⟨c, more, rfl, -⟩ := hl.start
    exact (List.cons.inj ht).1.symm
  | quoted => exact (List.cons.inj ht).1.symm
  | block => exact (List.cons.inj ht).1.symm

theorem Lexes.isName {t rest text : Text} (h : Lexes t (.name text) rest) : text.IsName := by
  cases h with
  | name hn => exact hn

theorem Lexes.eq_spread {t rest : Text} (h : Lexes t .spread rest) : t = spreadMark ++ rest := by
  cases h with
  | spread => rfl

theorem readToken_punctuator (p : Punctuator) (t : Text) :
    readToken p.octet t = .token (.punctuator p) 1 := by
  rw [readToken, Punctuator.ofOctet?_octet]

theorem readToken_eq_punctuator {o : UInt8} {t : Text} {p : Punctuator} {n : Nat}
    (h : readToken o t = .token (.punctuator p) n) : o = p.octet := by
  have := (lexes_of_readToken h).first
  exact this.symm

theorem readToken_name {o : UInt8} (t : Text) (h : Octet.isNameStart o = true) :
    readToken o t = .token (.name (o :: t.takeWhile Octet.isNameContinue))
      (o :: t.takeWhile Octet.isNameContinue).length := by
  have hclass : ∀ c, Octet.isNameStart c = true → Punctuator.ofOctet? c = none :=
    Octet.forall_octet (by decide +kernel)
  rw [readToken, hclass o h]
  exact if_pos h

/-- Only punctuators and the mark of a spread start with other octets. -/
theorem readToken_other {o : UInt8} (t : Text) (hname : ¬ Octet.isNameStart o = true)
    (hquote : o ≠ Octet.quote) (hnumber : ¬ (o = Octet.minus ∨ Octet.isDigit o = true)) :
    (∃ p, o = Punctuator.octet p ∧ readToken o t = .token (.punctuator p) 1) ∨
      readToken o t = .token .spread 3 ∨ readToken o t = .fault (.unexpectedOctet o) 0 := by
  rw [readToken]
  cases hp : Punctuator.ofOctet? o with
  | some p => exact .inl ⟨p, (Punctuator.octet_of_ofOctet? hp).symm, rfl⟩
  | none =>
    simp only [if_neg hname, if_neg hquote, if_neg hnumber]
    split_ifs
    · exact .inr (.inl rfl)
    · exact .inr (.inr rfl)

end Scan

namespace Cursor.Settled

variable {source : Text} {c : Cursor source} {o : UInt8} {t : Text} {n : Nat}

theorem here_scan (hs : c.Settled) : c.scan.here = c.place := by
  cases hr : c.rest with
  | nil => rw [scan_nil hr]; rfl
  | cons o t =>
    cases ht : Scan.readToken o t with
    | token token n => rw [scan_token hr (hs o t hr) ht]; rfl
    | fault fault n => rw [scan_fault hr (hs o t hr) ht]; rfl

theorem errorHere_scan (hs : c.Settled) (fault : SyntaxFault) :
    c.scan.errorHere fault = ⟨fault, c.place⟩ := by
  rw [Scan.errorHere, hs.here_scan]

theorem octet?_scan (hs : c.Settled) : c.scan.octet? = c.octet? := by
  rw [octet?]
  cases hr : c.rest with
  | nil => rw [scan_nil hr]; rfl
  | cons o t =>
    cases ht : Scan.readToken o t with
    | token token n =>
      rw [scan_token hr (hs o t hr) ht]
      exact congrArg some (Scan.lexes_of_readToken ht).first
    | fault fault n => rw [scan_fault hr (hs o t hr) ht]; rfl

theorem atEnd_scan (hs : c.Settled) : c.scan.atEnd = c.atEnd := by
  cases hr : c.rest with
  | nil => rw [scan_nil hr, atEnd_nil hr]; rfl
  | cons o t =>
    rw [atEnd_cons hr]
    cases ht : Scan.readToken o t with
    | token token n => rw [scan_token hr (hs o t hr) ht]; rfl
    | fault fault n => rw [scan_fault hr (hs o t hr) ht]; rfl

/-- The next token was read at the cursor. -/
theorem readToken_of_next? {token : Token} (hs : c.Settled) (h : c.scan.next? = some token) :
    ∃ o t n, c.rest = o :: t ∧ Scan.readToken o t = .token token n ∧
      c.scan = (c.skip n).scan.cons ⟨token, c.place, (c.skip n).place⟩ := by
  cases hr : c.rest with
  | nil => rw [scan_nil hr] at h; cases h
  | cons o t =>
    cases ht : Scan.readToken o t with
    | token token' n =>
      have hscan := scan_token hr (hs o t hr) ht
      rw [hscan] at h
      obtain rfl := Option.some.inj h
      exact ⟨o, t, n, rfl, ht, hscan⟩
    | fault fault n => rw [scan_fault hr (hs o t hr) ht] at h; cases h

theorem scan_punctuator {p : Punctuator} (hs : c.Settled) (h : c.peek 0 = p.octet) :
    c.scan = (c.skip 1).scan.cons ⟨.punctuator p, c.place, (c.skip 1).place⟩ := by
  obtain ⟨t, hr⟩ := c.rest_of_peek (by cases p <;> decide) h
  exact scan_token hr (hs _ t hr) (Scan.readToken_punctuator p t)

theorem next?_eq_punctuator (hs : c.Settled) {p : Punctuator} :
    c.scan.next? = some (.punctuator p) ↔ c.peek 0 = p.octet := by
  constructor
  · intro h
    obtain ⟨o, t, n, hr, ht, -⟩ := hs.readToken_of_next? h
    rw [peek_cons hr]
    exact Scan.readToken_eq_punctuator ht
  · intro h
    rw [hs.scan_punctuator h]
    rfl

theorem startsWith_scan (hs : c.Settled) (p : Punctuator) :
    c.scan.startsWith p = (c.peek 0 == p.octet) := by
  rw [Bool.eq_iff_iff, beq_iff_eq, Scan.startsWith, beq_iff_eq, hs.next?_eq_punctuator]

theorem scan_name (hs : c.Settled) (h : Octet.isNameStart (c.peek 0) = true) :
    c.scan = (c.skip c.word.length).scan.cons
      ⟨.name c.word, c.place, (c.skip c.word.length).place⟩ := by
  rw [c.peek_isIn Octet.isNameStart (by decide)] at h
  cases hr : c.rest with
  | nil => rw [hr] at h; cases h
  | cons o t =>
    rw [hr] at h
    have hword : c.word = o :: t.takeWhile Octet.isNameContinue := by
      rw [word, hr, List.takeWhile_cons_of_pos (Octet.isNameContinue_of_isNameStart h)]
    rw [hword]
    exact scan_token hr (hs o t hr) (Scan.readToken_name t h)

theorem next?_eq_name (hs : c.Settled) {text : Text} :
    c.scan.next? = some (.name text) ↔ Octet.isNameStart (c.peek 0) = true ∧ text = c.word := by
  constructor
  · intro h
    obtain ⟨o, t, n, hr, ht, -⟩ := hs.readToken_of_next? h
    have hstart : Octet.isNameStart (c.peek 0) = true := by
      have hlexes := Scan.lexes_of_readToken ht
      obtain ⟨o', more, htext, ho, -⟩ := hlexes.isName
      have hfirst := hlexes.first
      rw [htext] at hfirst
      obtain rfl : o' = o := hfirst
      rw [peek_cons hr]
      exact ho
    refine ⟨hstart, ?_⟩
    rw [hs.scan_name hstart] at h
    cases h
    rfl
  · rintro ⟨h, rfl⟩
    rw [hs.scan_name h]
    rfl

theorem startsWithName_scan (hs : c.Settled) {k : Text} (hk : k.IsName) :
    c.scan.startsWithName k = (c.startsWith k && !Octet.isNameContinue (c.peek k.length)) := by
  have hnext : Octet.isNameContinue (c.peek k.length) =
      (c.rest.drop k.length).head?.any Octet.isNameContinue := by
    rw [← rest_skip, ← peek_isIn Octet.isNameContinue (by decide), peek_skip, Nat.add_zero]
  rw [startsWith_eq, hnext, Bool.eq_iff_iff, Scan.startsWithName, beq_iff_eq, hs.next?_eq_name,
    Bool.and_eq_true, List.isPrefixOf_iff_prefix, Bool.not_eq_true']
  constructor
  · rintro ⟨-, rfl⟩
    have hsplit : c.word ++ c.rest.dropWhile Octet.isNameContinue = c.rest :=
      List.takeWhile_append_dropWhile
    have hdrop : c.rest.drop c.word.length = c.rest.dropWhile Octet.isNameContinue := by
      conv_lhs => rw [← hsplit]
      rw [List.drop_left]
    have hends := List.head?_dropWhile_not Octet.isNameContinue c.rest
    refine ⟨⟨_, hsplit⟩, ?_⟩
    rw [hdrop]
    cases hd : (c.rest.dropWhile Octet.isNameContinue).head? with
    | none => rfl
    | some o =>
      rw [hd] at hends
      exact hends
  · rintro ⟨⟨after, hafter⟩, hends⟩
    rw [← hafter, List.drop_left] at hends
    have hword : c.word = k := by
      rw [word, ← hafter]
      refine Number.takeWhile_append hk.forall_mem fun o ho => ?_
      rw [ho] at hends
      exact hends
    refine ⟨?_, hword.symm⟩
    obtain ⟨o, more, rfl, ho, -⟩ := hk
    rw [peek_cons hafter.symm]
    exact ho

theorem scan_spread (hs : c.Settled) (h : Scan.spreadMark <+: c.rest) :
    c.scan = (c.skip 3).scan.cons ⟨.spread, c.place, (c.skip 3).place⟩ := by
  obtain ⟨after, hafter⟩ := h
  have hr : c.rest = Octet.dot :: ([Octet.dot, Octet.dot] ++ after) := hafter.symm
  exact scan_token hr (hs _ _ hr) (by cases after <;> rfl)

theorem next?_eq_spread (hs : c.Settled) :
    c.scan.next? = some .spread ↔ Scan.spreadMark <+: c.rest := by
  constructor
  · intro h
    obtain ⟨o, t, n, hr, ht, -⟩ := hs.readToken_of_next? h
    rw [hr]
    exact ⟨_, (Scan.lexes_of_readToken ht).eq_spread.symm⟩
  · intro h
    rw [hs.scan_spread h]
    rfl

end Cursor.Settled

end QueryCompiler
