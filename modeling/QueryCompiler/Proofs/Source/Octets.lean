import QueryCompiler.Proofs.Source.Cursor
import Mathlib.Data.List.Basic
import Mathlib.Tactic.SplitIfs

/-!
# What is read octet by octet

Strings and numbers are read octet by octet as they are read from the text that is left: with the same
meaning, over as many octets, and with the same faults at the same octets (`run_string`, `run_number`).
No move passes the end on the way: each of them goes over octets that were looked at before. Beyond the
end the octets count as zero, which is why none of the classes of octets that are asked for holds zero.
-/

namespace QueryCompiler

namespace Cursor

variable {source : Text} {c : Cursor source}

/-- The cursor so many octets further on, or at the end. -/
def skip (c : Cursor source) (n : Nat) : Cursor source :=
  ⟨min (c.offset + n) source.length, Nat.min_le_right _ _⟩

theorem offset_skip (c : Cursor source) (n : Nat) :
    (c.skip n).offset = min (c.offset + n) source.length := rfl

@[simp] theorem rest_skip (c : Cursor source) (n : Nat) : (c.skip n).rest = c.rest.drop n := by
  rw [rest, rest, List.drop_drop, offset_skip]
  by_cases h : c.offset + n ≤ source.length
  · rw [Nat.min_eq_left h]
  · rw [Nat.min_eq_right (by omega), List.drop_length, List.drop_eq_nil_of_le (by omega)]

@[simp] theorem skip_zero (c : Cursor source) : c.skip 0 = c :=
  Cursor.ext (Nat.min_eq_left c.offset_le)

@[simp] theorem skip_skip (c : Cursor source) (m n : Nat) : (c.skip m).skip n = c.skip (m + n) := by
  refine Cursor.ext ?_
  show min (min (c.offset + m) source.length + n) source.length =
    min (c.offset + (m + n)) source.length
  omega

/-- After the first of the octets that are left. -/
theorem rest_skip_succ {o : UInt8} {t : Text} {n : Nat} (h : (c.skip n).rest = o :: t) :
    (c.skip (n + 1)).rest = t := by
  rw [← skip_skip, rest_skip, h, List.drop_one, List.tail_cons]

theorem place_skip (c : Cursor source) (n : Nat) : (c.skip n).place = c.place.advance n c.rest := by
  rw [place, place, rest, Location.ofOffset, Location.ofOffset, ← Location.advance_add, offset_skip]
  by_cases h : c.offset + n ≤ source.length
  · rw [Nat.min_eq_left h]
  · obtain ⟨k, hk⟩ : ∃ k, c.offset + n = source.length + k := Nat.exists_eq_add_of_le (by omega)
    rw [Nat.min_eq_right (by omega), hk, Location.advance_add _ source.length k, List.drop_length,
      Location.advance_nil]

theorem peek_skip (c : Cursor source) (m n : Nat) : (c.skip m).peek n = c.peek (m + n) := by
  rw [peek, peek, rest_skip, List.getElem?_drop]

theorem atEnd_eq (c : Cursor source) : c.atEnd = c.rest.isEmpty := by
  have hlength := c.length_rest
  have hle := c.offset_le
  rw [atEnd, Bool.eq_iff_iff, beq_iff_eq, List.isEmpty_iff, ← List.length_eq_zero_iff]
  omega

theorem peek_nil (h : c.rest = []) (n : Nat) : c.peek n = 0 := by
  rw [peek, h]
  rfl

theorem peek_cons {o : UInt8} {t : Text} (h : c.rest = o :: t) : c.peek 0 = o := by
  rw [peek, h]
  rfl

theorem peek_of_head? {o : UInt8} (h : c.rest.head? = some o) : c.peek 0 = o := by
  rw [peek, ← List.head?_eq_getElem?, h]
  rfl

/-- An octet that is not zero was found in the source. -/
theorem rest_of_peek {o : UInt8} (c : Cursor source) (ho : o ≠ 0) (h : c.peek 0 = o) :
    ∃ t, c.rest = o :: t := by
  cases hr : c.rest with
  | nil => exact absurd ((c.peek_nil hr 0).symm.trans h).symm ho
  | cons d t => exact ⟨t, by rw [← h, c.peek_cons hr]⟩

theorem atEnd_nil (h : c.rest = []) : c.atEnd = true := by rw [atEnd_eq, h]; rfl

theorem atEnd_cons {o : UInt8} {t : Text} (h : c.rest = o :: t) : c.atEnd = false := by
  rw [atEnd_eq, h]; rfl

/-- An octet of a class to which zero does not belong. -/
theorem peek_isIn (isIn : UInt8 → Bool) (h : isIn 0 = false) (c : Cursor source) :
    isIn (c.peek 0) = c.rest.head?.any isIn := by
  cases hr : c.rest with
  | nil => rw [peek_nil hr, h]; rfl
  | cons o t => rw [peek_cons hr]; rfl

theorem isIn_eq (isIn : UInt8 → Bool) (c : Cursor source) :
    c.isIn isIn = c.rest.head?.any isIn := by
  cases hr : c.rest with
  | nil => rw [Cursor.isIn, atEnd_nil hr]; rfl
  | cons o t => rw [Cursor.isIn, atEnd_cons hr, peek_cons hr]; rfl

/-- A text without zeros is compared with the octets at the cursor one after the other. -/
theorem isPrefixOf_cons {o : UInt8} (h : o ≠ 0) (m : Text) (c : Cursor source) :
    (o :: m).isPrefixOf c.rest = (c.peek 0 == o && m.isPrefixOf (c.skip 1).rest) := by
  rw [rest_skip]
  cases hr : c.rest with
  | nil =>
    rw [peek_nil hr, beq_false_of_ne h.symm]
    rfl
  | cons d t =>
    rw [peek_cons hr, List.isPrefixOf_cons_cons, Bool.beq_comm, List.drop_one, List.tail_cons]

/-- The comparison with a text at the cursor. -/
theorem startsWith_eq (t : Text) (c : Cursor source) : c.startsWith t = t.isPrefixOf c.rest := by
  rw [startsWith, Bool.eq_iff_iff, beq_iff_eq, List.isPrefixOf_iff_prefix, List.prefix_iff_eq_take]
  exact eq_comm

theorem quotesAt_eq (c : Cursor source) (n : Nat) :
    c.quotesAt n = Text.blockQuote.isPrefixOf (c.skip n).rest := by
  rw [Text.blockQuote, isPrefixOf_cons (by decide), isPrefixOf_cons (by decide),
    isPrefixOf_cons (by decide), quotesAt, List.isPrefixOf_nil_left]
  simp only [peek_skip, Nat.add_zero, Bool.and_true, Bool.and_assoc, Nat.add_assoc, skip_skip]

end Cursor

namespace OctetReader

open QueryCompiler.Parser

variable {source : Text} {b : Bool} {α : Type} {c : Cursor source} {o : UInt8} {t : Text}

/-! ### Moves -/

theorem run_peeking (f : UInt8 → OctetReader source b α) (c : Cursor source) :
    (peeking f).run c = (f (c.peek 0)).run c := rfl

theorem run_fail (fault : SyntaxFault) (c : Cursor source) :
    (fail fault : OctetReader source b α).run c = .error (.fault fault c) := rfl

/-- A move over octets that are left. -/
theorem run_move {n : Nat} (h : n ≤ c.rest.length) : (move n).run c = .ok ((), c.skip n) := by
  rw [c.length_rest] at h
  have hle := c.offset_le
  have hn : c.offset + n ≤ source.length := by omega
  have hskip : (⟨c.offset + n, hn⟩ : Cursor source) = c.skip n :=
    Cursor.ext (Nat.min_eq_left hn).symm
  simp only [move, dif_pos hn, hskip]

theorem run_take (h : c.rest = o :: t) : take.run c = .ok (o, c.skip 1) := by
  rw [take, run_peeking, run_map, run_move (by rw [h]; exact Nat.succ_le_succ (Nat.zero_le _)),
    c.peek_cons h]
  rfl

theorem run_advance_nil (h : c.rest = []) : advance.run c = .ok (0, c) := by
  have hle : ¬ c.offset < source.length := by
    have hlength := c.length_rest
    rw [h, List.length_nil] at hlength
    omega
  simp only [advance, dif_neg hle]

theorem run_advance_cons (h : c.rest = o :: t) : advance.run c = .ok (o, c.skip 1) := by
  have hlt : c.offset < source.length := by
    have hlength := c.length_rest
    rw [h, List.length_cons] at hlength
    omega
  have hskip : (⟨c.offset + 1, hlt⟩ : Cursor source) = c.skip 1 :=
    Cursor.ext (Nat.min_eq_left hlt).symm
  simp only [advance, dif_pos hlt, hskip, c.peek_cons h]

theorem run_skipWhile (isIn : UInt8 → Bool) (c : Cursor source) :
    (skipWhile isIn).run c = .ok ((), c.skip (c.rest.takeWhile isIn).length) := by
  have hwhile : ∃ os, (whileM (Cursor.isIn isIn) take).run c =
      .ok (os, c.skip (c.rest.takeWhile isIn).length) := by
    generalize hr : c.rest = t
    induction t generalizing c with
    | nil =>
      refine ⟨[], ?_⟩
      rw [run_whileM_stop (by rw [c.isIn_eq, hr]; rfl), List.takeWhile_nil, List.length_nil,
        Cursor.skip_zero]
    | cons o t ih =>
      by_cases ho : isIn o = true
      · obtain ⟨os, hos⟩ := ih (c.skip 1) (by rw [Cursor.rest_skip, hr]; rfl)
        refine ⟨o :: os, ?_⟩
        rw [run_whileM_step (by rw [c.isIn_eq, hr]; exact ho), run_take hr,
          List.takeWhile_cons_of_pos ho, List.length_cons]
        show Except.map _ ((whileM (Cursor.isIn isIn) take).run (c.skip 1)) = _
        rw [hos, Cursor.skip_skip, Nat.add_comm]
        rfl
      · refine ⟨[], ?_⟩
        rw [run_whileM_stop (by rw [c.isIn_eq, hr]; exact (Bool.not_eq_true _).mp ho),
          List.takeWhile_cons_of_neg ho, List.length_nil, Cursor.skip_zero]
  obtain ⟨os, hos⟩ := hwhile
  rw [skipWhile, run_map, hos]
  rfl

theorem run_spanned {p : OctetReader source b α} {a : α} {n : Nat}
    (h : p.run c = .ok (a, c.skip n)) : (spanned p).run c = .ok ((a, c.rest.take n), c.skip n) := by
  have hoffset : (c.skip n).offset - c.offset = min n c.rest.length := by
    have hle := c.offset_le
    rw [c.length_rest, Cursor.offset_skip]
    omega
  have htake : c.rest.take (min n c.rest.length) = c.rest.take n := by
    rw [← List.take_take, List.take_length]
  unfold spanned
  simp only [h, hoffset, htake]

theorem run_spanned_error {p : OctetReader source b α} {e : Halt source} (h : p.run c = .error e) :
    (spanned p).run c = .error e := by
  unfold spanned
  simp only [h]

/-! ### Strings -/

/-- What is to be given at a cursor where the text that is left is read like this. -/
def outcome (c : Cursor source) :
    Except (Text.LiteralFault × Nat) Text.Read → Except (Halt source) (Text × Cursor source)
  | .ok r => .ok (r.meaning, c.skip r.length)
  | .error (fault, n) => .error (.fault (Scan.faultOfText fault) (c.skip n))

theorem run_codeUnit (c : Cursor source) (n value before : Nat) :
    (codeUnit n value).run (c.skip before) =
      match Text.codeUnitFrom n value before (c.skip before).rest with
      | .ok unit => .ok (unit, c.skip (before + n))
      | .error k => .error (.fault .badUnicodeEscape (c.skip k)) := by
  induction n generalizing value before with
  | zero => rfl
  | succ n ih =>
    rw [codeUnit, run_peeking]
    cases hr : (c.skip before).rest with
    | nil =>
      rw [Cursor.peek_nil hr]
      rfl
    | cons o t =>
      rw [Cursor.peek_cons hr, Text.codeUnitFrom]
      cases hd : Octet.hexValue? o with
      | none => rfl
      | some digit =>
        have hrest : (c.skip (before + 1)).rest = t := by
          rw [← Cursor.skip_skip, Cursor.rest_skip, hr]
          rfl
        simp only [run_relax, run_bind, run_take hr, Except.bind, Cursor.skip_skip]
        rw [ih, hrest, Nat.add_assoc, Nat.add_comm 1 n]

/-- The four digits of a code unit. -/
theorem run_codeUnit_four (c : Cursor source) :
    (codeUnit 4 0).run c =
      match Text.codeUnit c.rest with
      | .ok unit => .ok (unit, c.skip 4)
      | .error k => .error (.fault .badUnicodeEscape (c.skip k)) := by
  have h := run_codeUnit c 4 0 0
  rwa [Cursor.skip_zero, Nat.zero_add] at h

/-- **A Unicode escape** is read as it is from the text. -/
theorem run_unicodeEscape (c : Cursor source) :
    unicodeEscape.run c = outcome c (Text.readUnicodeEscape c.rest) := by
  rw [unicodeEscape, run_bind, run_codeUnit_four, Text.readUnicodeEscape]
  cases Text.codeUnit c.rest with
  | error k => rfl
  | ok unit =>
    have hmark : ("\\u" : Text).isPrefixOf (c.rest.drop 4) =
        ((c.skip 4).peek 0 == Octet.backslash && (c.skip 4).peek 1 == 0x75) := by
      have htext : ("\\u" : Text) = [Octet.backslash, 0x75] := by decide
      rw [htext, ← Cursor.rest_skip, Cursor.isPrefixOf_cons (by decide),
        Cursor.isPrefixOf_cons (by decide), Cursor.peek_skip (c.skip 4) 1 0]
      simp
    simp only [hmark, Except.bind, run_bind, run_look, ← Bool.and_assoc]
    split_ifs with hpaired
    · have hlength : 2 ≤ (c.skip 4).rest.length := by
        rw [Bool.and_assoc, Bool.and_eq_true, ← hmark, ← Cursor.rest_skip,
          List.isPrefixOf_iff_prefix] at hpaired
        exact hpaired.2.length_le
      have hlow := run_codeUnit_four (c.skip 6)
      rw [Cursor.rest_skip] at hlow
      rw [run_relax, run_bind, run_move hlength, Cursor.skip_skip]
      simp only [Except.bind, run_bind, hlow]
      cases Text.codeUnit (c.rest.drop 6) with
      | error k => simp only [Cursor.skip_skip]; rfl
      | ok low =>
        simp only [Cursor.skip_skip]
        split_ifs
        · rw [run_pure, outcome]
        · rw [run_fail, outcome]
          rfl
    · rfl

/-- **An escape** is read as it is from the text. -/
theorem run_escape (c : Cursor source) : escape.run c = outcome c (Text.readEscape c.rest) := by
  rw [escape, run_bind]
  cases hr : c.rest with
  | nil =>
    rw [run_advance_nil hr, Text.readEscape, outcome, Cursor.skip_zero]
    rfl
  | cons o t =>
    have hrest : (c.skip 1).rest = t := by rw [Cursor.rest_skip, hr]; rfl
    rw [run_advance_cons hr, Text.readEscape]
    simp only [Except.bind]
    cases Text.simpleEscape? o with
    | some octet => rfl
    | none =>
      split_ifs with hu
      · simp only [run_unicodeEscape, hrest]
        cases Text.readUnicodeEscape t with
        | ok r => rw [outcome, Cursor.skip_skip]; rfl
        | error e => rw [outcome, Cursor.skip_skip]; rfl
      · rfl

theorem run_closesQuoted_nil (h : c.rest = []) :
    closesQuoted.run c = .error (.fault .unterminatedString c) := by
  rw [closesQuoted, run_bind, run_look, Cursor.atEnd_nil h]
  rfl

theorem run_closesQuoted_cons (h : c.rest = o :: t) : closesQuoted.run c =
    if Octet.isLineTerminator o then .error (.fault .unterminatedString c)
    else if o = Octet.quote then .ok (true, c.skip 1)
    else .ok (false, c) := by
  rw [closesQuoted, run_bind, run_look, Cursor.atEnd_cons h, Cursor.peek_cons h]
  simp only [Except.bind, Bool.false_or]
  split_ifs with hbreak hquote
  · rfl
  · rw [run_peeking, Cursor.peek_cons h, if_pos hquote, run_relax, run_map, run_take h]
    rfl
  · rw [run_peeking, Cursor.peek_cons h, if_neg hquote, run_pure]

theorem run_closesQuoted_go (h : c.rest = o :: t) (hbreak : ¬ Octet.isLineTerminator o = true)
    (hquote : o ≠ Octet.quote) : closesQuoted.run c = .ok (false, c) := by
  rw [run_closesQuoted_cons h, if_neg hbreak, if_neg hquote]

theorem run_quotedPart_escape (h : c.rest = Octet.backslash :: t) :
    quotedPart.run c = outcome (c.skip 1) (Text.readEscape t) := by
  have hrest : (c.skip 1).rest = t := by rw [Cursor.rest_skip, h]; rfl
  rw [quotedPart, run_bind, run_take h, ← hrest, ← run_escape]
  rfl

theorem run_quotedPart_octet (h : c.rest = o :: t) (ho : o ≠ Octet.backslash) :
    quotedPart.run c = .ok ([o], c.skip 1) := by
  rw [quotedPart, run_bind, run_take h]
  simp only [Except.bind, if_neg ho, run_pure]

/-- The parts of a string up to its closing quote, after those that were read before. -/
theorem run_quotedFrom (c : Cursor source) (done : Text) (n : Nat) (t : Text)
    (h : (c.skip n).rest = t) :
    ((untilM closesQuoted quotedPart).map fun parts => done.reverse ++ parts.flatten).run
      (c.skip n) = outcome c (Text.readQuotedFrom Octet.isLineTerminator done n t) := by
  fun_induction Text.readQuotedFrom Octet.isLineTerminator done n t with
  | case1 done n => rw [run_map, run_untilM, run_closesQuoted_nil h]; rfl
  | case2 done n o t hbreak =>
    rw [run_map, run_untilM, run_closesQuoted_cons h, if_pos hbreak]; rfl
  | case3 done n t hbreak =>
    rw [run_map, run_untilM, run_closesQuoted_cons h, if_neg hbreak, if_pos rfl, Cursor.skip_skip]
    simp [Except.bind, Except.map, outcome]
  | case4 done n t fault k he hbreak hquote =>
    have hitem := run_quotedPart_escape h
    rw [he, Cursor.skip_skip, outcome, Cursor.skip_skip] at hitem
    rw [run_untilM_error (run_closesQuoted_go h hbreak hquote) hitem, outcome]
  | case5 done n t r he hbreak hquote ih =>
    have hitem := run_quotedPart_escape h
    rw [he, Cursor.skip_skip, outcome, Cursor.skip_skip] at hitem
    have hrest : (c.skip (n + 1 + r.length)).rest = t.drop r.length := by
      rw [← Cursor.skip_skip, Cursor.rest_skip, Cursor.rest_skip_succ h]
    rw [run_untilM_step (run_closesQuoted_go h hbreak hquote) hitem, ← ih hrest]
    simp only [List.reverse_append, List.reverse_reverse, List.append_assoc, List.flatten_cons]
  | case6 done n o t hbreak hquote hslash ih =>
    have hitem := run_quotedPart_octet h hslash
    rw [Cursor.skip_skip] at hitem
    rw [run_untilM_step (run_closesQuoted_go h hbreak hquote) hitem,
      ← ih (Cursor.rest_skip_succ h)]
    simp only [List.reverse_cons, List.append_assoc, List.flatten_cons]

theorem run_quoted (h : c.rest = Octet.quote :: t) :
    quoted.run c = outcome (c.skip 1) (Text.readQuoted Octet.isLineTerminator t) := by
  have hrest : ((c.skip 1).skip 0).rest = t := by rw [Cursor.skip_zero, Cursor.rest_skip, h]; rfl
  rw [quoted, run_bind, run_take h, Text.readQuoted, ← run_quotedFrom (c.skip 1) [] 0 t hrest,
    Cursor.skip_zero]
  rfl

theorem run_closesBlock_nil (h : c.rest = []) :
    closesBlock.run c = .error (.fault .unterminatedString c) := by
  rw [closesBlock, run_bind, run_look, Cursor.atEnd_nil h]
  rfl

theorem run_closesBlock_cons (h : c.rest = o :: t) : closesBlock.run c =
    if Text.blockQuote.isPrefixOf (o :: t) then .ok (true, c.skip 3) else .ok (false, c) := by
  rw [closesBlock, run_bind, run_look, Cursor.atEnd_cons h]
  simp only [Except.bind, run_bind, run_look, Bool.false_eq_true, if_false, Cursor.quotesAt_eq,
    Cursor.skip_zero, h]
  split_ifs with hquotes
  · have hlength : 3 ≤ c.rest.length := by
      rw [h]
      exact (List.isPrefixOf_iff_prefix.mp hquotes).length_le
    rw [run_relax, run_map, run_move hlength]
    rfl
  · rw [run_pure]

theorem run_blockPart (h : c.rest = o :: t) : blockPart.run c =
    if (Octet.backslash :: Text.blockQuote).isPrefixOf (o :: t) then
      .ok (Text.blockQuote, c.skip 4)
    else .ok ([o], c.skip 1) := by
  rw [blockPart, run_bind, run_look, Cursor.quotesAt_eq,
    ← Cursor.isPrefixOf_cons (by decide), h]
  simp only [Except.bind]
  split_ifs with hescaped
  · have hlength : 4 ≤ c.rest.length := by
      rw [h]
      exact (List.isPrefixOf_iff_prefix.mp hescaped).length_le
    rw [run_map, run_move hlength]
    rfl
  · rw [run_map, run_take h]
    rfl

/-- The parts of a block up to its closing quotes, after those that were read before. -/
theorem run_blockFrom (c : Cursor source) (done : Text) (n : Nat) (t : Text)
    (h : (c.skip n).rest = t) :
    ((untilM closesBlock blockPart).map fun parts => done.reverse ++ parts.flatten).run
      (c.skip n) = outcome c (Text.readBlockFrom done n t) := by
  fun_induction Text.readBlockFrom done n t with
  | case1 done n => rw [run_map, run_untilM, run_closesBlock_nil h]; rfl
  | case2 done n o t hquotes =>
    rw [run_map, run_untilM, run_closesBlock_cons h, if_pos hquotes, Cursor.skip_skip]
    simp [Except.bind, Except.map, outcome]
  | case3 done n o t hquotes hescaped ih =>
    have hgo := run_closesBlock_cons h
    have hitem := run_blockPart h
    rw [if_neg hquotes] at hgo
    rw [if_pos hescaped, Cursor.skip_skip] at hitem
    have hrest : (c.skip (n + 4)).rest = t.drop 3 := by
      rw [← Cursor.skip_skip, Cursor.rest_skip, h, List.drop_succ_cons]
    rw [run_untilM_step hgo hitem, ← ih hrest]
    have hreverse : Text.blockQuote.reverse = Text.blockQuote := by decide
    simp only [List.reverse_append, hreverse, List.append_assoc, List.flatten_cons]
  | case4 done n o t hquotes hescaped ih =>
    have hgo := run_closesBlock_cons h
    have hitem := run_blockPart h
    rw [if_neg hquotes] at hgo
    rw [if_neg hescaped, Cursor.skip_skip] at hitem
    rw [run_untilM_step hgo hitem, ← ih (Cursor.rest_skip_succ h)]
    simp only [List.reverse_cons, List.append_assoc, List.flatten_cons]

theorem run_block (h : Text.blockQuote.isPrefixOf c.rest = true) :
    block.run c = (outcome (c.skip 3) (Text.readBlock (c.rest.drop 3))).map
      fun x => (Text.dedent x.1, x.2) := by
  have hlength : 3 ≤ c.rest.length := (List.isPrefixOf_iff_prefix.mp h).length_le
  have hrest : ((c.skip 3).skip 0).rest = c.rest.drop 3 := by
    rw [Cursor.skip_zero, Cursor.rest_skip]
  rw [block, run_bind, run_move hlength, Text.readBlock, ← run_blockFrom (c.skip 3) [] 0 _ hrest,
    Cursor.skip_zero]
  simp only [Except.bind, run_map]
  cases (untilM closesBlock blockPart).run (c.skip 3) <;> rfl

/-- What is to be given at a cursor where a token is read like this. -/
def tokenOutcome (c : Cursor source) :
    Scan.Reading → Except (Halt source) (Token × Cursor source)
  | .token token n => .ok (token, c.skip n)
  | .fault fault n => .error (.fault fault (c.skip n))

/-- **Strings** are read as they are when the source is cut into tokens. -/
theorem run_string (h : c.rest = Octet.quote :: t) :
    (string.map Token.string).run c = tokenOutcome c (Scan.readString c.rest) := by
  rw [string, run_map, run_bind, run_look, Cursor.quotesAt_eq, Cursor.skip_zero, Scan.readString]
  simp only [Except.bind]
  split_ifs with hblock
  · rw [run_block hblock]
    cases Text.readBlock (c.rest.drop 3) with
    | ok r => simp [outcome, tokenOutcome, Except.map]
    | error e => simp [outcome, tokenOutcome, Except.map]
  · have htail : c.rest.drop 1 = t := by rw [h]; rfl
    rw [run_quoted h, htail]
    cases Text.readQuoted Octet.isLineTerminator t with
    | ok r => simp [outcome, tokenOutcome, Except.map]
    | error e => simp [outcome, tokenOutcome, Except.map]

/-! ### Numbers -/

theorem run_takeIf {isIn : UInt8 → Bool} (h : isIn 0 = false) (c : Cursor source) :
    (takeIf isIn).run c =
      .ok (Number.signLength isIn c.rest != 0, c.skip (Number.signLength isIn c.rest)) := by
  rw [takeIf, run_peeking, Number.signLength]
  cases hr : c.rest with
  | nil =>
    have hskip : c.skip (if ([] : Text).head?.any isIn then 1 else 0) = c := Cursor.skip_zero c
    rw [Cursor.peek_nil hr, h, if_neg Bool.false_ne_true, run_pure, hskip]
    rfl
  | cons o t =>
    rw [Cursor.peek_cons hr, List.head?_cons, Option.any_some]
    cases isIn o with
    | true => rw [if_pos rfl, if_pos rfl, run_relax, run_map, run_take hr]; rfl
    | false =>
      rw [if_neg Bool.false_ne_true, if_neg Bool.false_ne_true, run_pure, Cursor.skip_zero]
      rfl

theorem isDigit_peek (c : Cursor source) :
    Octet.isDigit (c.peek 0) = (Number.digitCount c.rest != 0) := by
  rw [c.peek_isIn Octet.isDigit (by decide), Number.digitCount]
  cases c.rest with
  | nil => rfl
  | cons o t =>
    rw [List.head?_cons, Option.any_some]
    by_cases ho : Octet.isDigit o = true
    · rw [List.takeWhile_cons_of_pos ho, ho]
      rfl
    · rw [List.takeWhile_cons_of_neg ho, (Bool.not_eq_true _).mp ho]
      rfl

theorem run_digits (c : Cursor source) : digits.run c =
    if Number.digitCount c.rest = 0 then .error (.fault .expectedDigit c)
    else .ok ((), c.skip (Number.digitCount c.rest)) := by
  rw [digits, run_peeking, Number.digitCount]
  cases hr : c.rest with
  | nil => rw [Cursor.peek_nil hr]; rfl
  | cons o t =>
    rw [Cursor.peek_cons hr]
    by_cases ho : Octet.isDigit o = true
    · have hrest : (c.skip 1).rest = t := by rw [Cursor.rest_skip, hr]; rfl
      rw [if_pos ho, List.takeWhile_cons_of_pos ho, if_neg (by simp), run_bind, run_take hr]
      simp only [Except.bind, run_skipWhile, hrest, Cursor.skip_skip, List.length_cons]
      rw [Nat.add_comm 1]
    · rw [if_neg ho, List.takeWhile_cons_of_neg ho, List.length_nil, if_pos rfl,
        run_fail]

theorem run_whole (c : Cursor source) : whole.run c =
    if Number.digitCount c.rest = 0 then .error (.fault .expectedDigit c)
    else if 1 < Number.digitCount c.rest ∧ c.rest.head? = some Octet.zero then
      .error (.fault .digitAfterZero (c.skip 1))
    else .ok ((), c.skip (Number.digitCount c.rest)) := by
  rw [whole, run_peeking]
  by_cases ho : c.peek 0 = Octet.zero
  · obtain ⟨t, hr⟩ : ∃ t, c.rest = Octet.zero :: t := c.rest_of_peek (by decide) ho
    have hrest : (c.skip 1).rest = t := by rw [Cursor.rest_skip, hr]; rfl
    have hcount : Number.digitCount c.rest = Number.digitCount t + 1 := by rw [hr]; rfl
    rw [if_pos ho, run_bind, run_take hr, hcount, if_neg (Nat.succ_ne_zero _)]
    simp only [Except.bind, run_peeking, isDigit_peek, hrest]
    by_cases hd : Number.digitCount t = 0
    · rw [if_neg (by simp [hd]), if_neg (by simp [hd]), hd, run_pure]
    · rw [if_pos (by simp [hd]), if_pos ⟨by omega, by rw [hr]; rfl⟩, run_fail]
  · have hhead : c.rest.head? ≠ some Octet.zero := fun h => ho (by rw [Cursor.peek_of_head? h])
    rw [if_neg ho, run_digits]
    simp [hhead]

/-- The mark, the sign and the digits of a part are measured one after the other. -/
theorem run_part (isMark isSign : UInt8 → Bool) (hmark : isMark 0 = false)
    (hsign : isSign 0 = false) (c : Cursor source) : (part isMark isSign).run c =
      match Number.partLength isMark isSign c.rest with
      | .ok n => .ok (n != 0, c.skip n)
      | .error (fault, n) => .error (.fault (Scan.faultOfNumber fault) (c.skip n)) := by
  rw [part, run_bind, run_takeIf hmark, Number.partLength, Number.signLength]
  simp only [Except.bind]
  cases c.rest.head?.any isMark with
  | false =>
    simp only [Bool.false_eq_true, if_false, Cursor.skip_zero]
    rfl
  | true =>
    have hrest : (c.skip 1).rest = c.rest.tail := by rw [Cursor.rest_skip, List.drop_one]
    rw [if_pos rfl, if_pos rfl, if_pos (by decide), run_relax, run_bind, run_takeIf hsign, hrest]
    simp only [Except.bind, run_map, run_digits, Cursor.skip_skip, Cursor.rest_skip]
    rw [← List.drop_drop, List.drop_one]
    split_ifs with hzero
    · rfl
    · have hne : (1 + Number.signLength isSign c.rest.tail +
          Number.digitCount (c.rest.tail.drop (Number.signLength isSign c.rest.tail)) != 0) =
          true := bne_iff_ne.mpr (by omega)
      simp only [Except.map, hne]

/-- The sign and the whole part. -/
theorem run_signedWhole (c : Cursor source) :
    (((takeIf (· == Octet.minus)).run c).bind fun x => whole.run x.2) =
      match Number.wholeLength c.rest with
      | .ok n => .ok ((), c.skip n)
      | .error (fault, n) => .error (.fault (Scan.faultOfNumber fault) (c.skip n)) := by
  rw [run_takeIf (by decide), Number.wholeLength]
  simp only [Except.bind, run_whole, Cursor.rest_skip, Cursor.skip_skip]
  split_ifs <;> rfl

theorem run_numberParts (c : Cursor source) : numberParts.run c =
    match Number.literalExtent c.rest with
    | .error (fault, n) => .error (.fault (Scan.faultOfNumber fault) (c.skip n))
    | .ok extent =>
      if (c.rest.drop extent.length).head?.any fun o => o == Octet.dot || Octet.isNameStart o then
        .error (.fault .badNumber (c.skip extent.length))
      else .ok (extent.isFloat, c.skip extent.length) := by
  have hwhole := run_signedWhole c
  rw [run_takeIf (by decide)] at hwhole
  rw [numberParts, run_bind, run_takeIf (by decide)]
  simp only [Except.bind, run_bind] at hwhole ⊢
  rw [hwhole, Number.literalExtent]
  cases Number.wholeLength c.rest with
  | error e => rfl
  | ok n =>
    have hfraction := run_part (· == Octet.dot) (fun _ => false) (by decide) rfl (c.skip n)
    rw [Cursor.rest_skip] at hfraction
    simp only [Number.atOffset, Bind.bind, Except.bind, hfraction]
    cases Number.partLength (· == Octet.dot) (fun _ => false) (c.rest.drop n) with
    | error e => simp only [Except.mapError, Cursor.skip_skip]
    | ok fraction =>
      have hscale := run_part Octet.isExponentMark (fun o => o == Octet.plus || o == Octet.minus)
        (by decide) (by decide) (c.skip (n + fraction))
      rw [Cursor.rest_skip] at hscale
      simp only [Except.mapError, Cursor.skip_skip, hscale]
      cases Number.partLength Octet.isExponentMark _ (c.rest.drop (n + fraction)) with
      | error e => rfl
      | ok scale =>
        have hnext := (c.skip (n + fraction + scale)).peek_isIn
          (fun o => o == Octet.dot || Octet.isNameStart o) (by decide)
        have hfloat : (fraction != 0 || scale != 0) = (fraction + scale != 0) := by
          cases fraction <;> cases scale <;> rfl
        simp only [run_peeking, hnext, Cursor.rest_skip, hfloat]
        split_ifs with hbad
        · rw [run_fail]
          exact (if_pos hbad).symm
        · rw [run_pure]
          exact (if_neg hbad).symm

/-- The token that a number is. -/
def numberToken (x : Bool × Text) : Token := if x.1 then .float x.2 else .int x.2

/-- **Numbers** are read as they are when the source is cut into tokens. -/
theorem run_number (c : Cursor source) :
    (number.map numberToken).run c = tokenOutcome c (Scan.readNumber c.rest) := by
  have hparts := run_numberParts c
  rw [number, run_map, Scan.readNumber]
  cases he : Number.literalExtent c.rest with
  | error e =>
    rw [he] at hparts
    rw [run_spanned_error hparts]
    rfl
  | ok extent =>
    rw [he] at hparts
    simp only at hparts ⊢
    split_ifs at hparts ⊢ with hbad hfloat
    · rw [run_spanned_error hparts]
      rfl
    · rw [run_spanned hparts, hfloat]
      rfl
    · rw [run_spanned hparts, (Bool.not_eq_true _).mp hfloat]
      rfl

end OctetReader

end QueryCompiler
