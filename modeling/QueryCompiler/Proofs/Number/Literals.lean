import QueryCompiler.Number.Literal
import QueryCompiler.Proofs.Success
import Mathlib.Tactic.SplitIfs

/-!
# Numeric literals do not depend on what follows them

What is read as a numeric literal at the front of a text is read so in front of every text that
cannot prolong it (`literalExtent_ok`). The same holds of the parts of a literal (`wholeLength_ok`,
`partLength_ok`).
-/

namespace QueryCompiler.Number

/-- The text does not start with an octet of a class. -/
def Avoids (isIn : UInt8 → Bool) (t : Text) : Prop := ∀ c, t.head? = some c → isIn c = false

theorem Avoids.any_head? {isIn : UInt8 → Bool} {t : Text} (h : Avoids isIn t) :
    t.head?.any isIn = false := by
  cases t with
  | nil => rfl
  | cons c t => exact h c rfl

/-- A run of a class of octets ends where an octet is not in the class. -/
theorem takeWhile_append {isIn : UInt8 → Bool} {run after : Text}
    (hrun : ∀ c ∈ run, isIn c = true) (hafter : Avoids isIn after) :
    (run ++ after).takeWhile isIn = run := by
  rw [List.takeWhile_append_of_pos hrun]
  cases after with
  | nil => rw [List.takeWhile_nil, List.append_nil]
  | cons c after =>
    rw [List.takeWhile_cons_of_neg (by rw [hafter c rfl]; exact Bool.false_ne_true),
      List.append_nil]

/-- A text starts with one run of a class only, if the run is as long as it can be. -/
theorem run_unique {isIn : UInt8 → Bool} {run run' after after' : Text}
    (hrun : ∀ c ∈ run, isIn c = true) (hrun' : ∀ c ∈ run', isIn c = true)
    (hafter : Avoids isIn after) (hafter' : Avoids isIn after')
    (h : run ++ after = run' ++ after') : run = run' ∧ after = after' := by
  have hsame : run = run' := by
    calc run = (run ++ after).takeWhile isIn := (takeWhile_append hrun hafter).symm
      _ = (run' ++ after').takeWhile isIn := by rw [h]
      _ = run' := takeWhile_append hrun' hafter'
  subst hsame
  exact ⟨rfl, List.append_cancel_left h⟩

/-! ### Digits -/

theorem digitCount_append {digits after : Text} (hd : ∀ c ∈ digits, Octet.isDigit c = true)
    (h : Avoids Octet.isDigit after) : digitCount (digits ++ after) = digits.length := by
  rw [digitCount, takeWhile_append hd h]

theorem exists_digits (t : Text) : ∃ digits rest, t = digits ++ rest ∧
    (∀ c ∈ digits, Octet.isDigit c = true) ∧ Avoids Octet.isDigit rest ∧
      digitCount t = digits.length := by
  refine ⟨t.takeWhile Octet.isDigit, t.dropWhile Octet.isDigit,
    List.takeWhile_append_dropWhile.symm, List.all_eq_true.mp List.all_takeWhile, fun c hc => ?_, rfl⟩
  have h := List.head?_dropWhile_not Octet.isDigit t
  rw [hc] at h
  exact h

/-- A sign and digits are found in front of every text without a digit at its front. -/
theorem exists_signed {isSign : UInt8 → Bool} {t : Text}
    (h : digitCount (t.drop (signLength isSign t)) ≠ 0) : ∃ sign digits rest,
      t = sign ++ (digits ++ rest) ∧ sign.length = signLength isSign t ∧
      digits.length = digitCount (t.drop (signLength isSign t)) ∧
      (∀ c ∈ digits, Octet.isDigit c = true) ∧ Avoids Octet.isDigit rest ∧
      ∀ rest', signLength isSign (sign ++ (digits ++ rest')) = sign.length := by
  obtain ⟨digits, rest, hdrop, hd, ha, hcount⟩ := exists_digits (t.drop (signLength isSign t))
  have hne : digits ≠ [] := by
    rintro rfl
    exact h hcount
  obtain ⟨c, digits', rfl⟩ := List.exists_cons_of_ne_nil hne
  have ht : t = t.take (signLength isSign t) ++ (c :: digits' ++ rest) := by
    rw [← hdrop, List.take_append_drop]
  refine ⟨t.take (signLength isSign t), c :: digits', rest, ht, ?_, hcount.symm, hd, ha, ?_⟩
  · cases t with
    | nil => cases hdrop
    | cons a t =>
      unfold signLength
      split_ifs <;> simp
  · intro rest'
    cases t with
    | nil => cases hdrop
    | cons a t =>
      by_cases hs : isSign a = true
      · have hlen : signLength isSign (a :: t) = 1 := if_pos hs
        rw [hlen]
        exact if_pos hs
      · have hlen : signLength isSign (a :: t) = 0 := if_neg hs
        rw [hlen] at hdrop ⊢
        obtain rfl : a = c := by
          rw [List.drop_zero, List.cons_append] at hdrop
          exact (List.cons.inj hdrop).1
        exact if_neg hs

/-! ### Parts of a literal -/

/-- **The whole part** is read in front of every text without a digit at its front. -/
theorem wholeLength_ok {t : Text} {n : Nat} (h : wholeLength t = .ok n) : ∃ part rest,
    t = part ++ rest ∧ part.length = n ∧ Avoids Octet.isDigit rest ∧
      ∀ rest', Avoids Octet.isDigit rest' → wholeLength (part ++ rest') = .ok n := by
  unfold wholeLength at h
  simp only at h
  split_ifs at h with h0 hz
  obtain ⟨sign, digits, rest, ht, hsign, hdigits, hd, ha, hs⟩ := exists_signed h0
  rw [← hdigits, ← hsign] at h
  obtain rfl := Except.ok.inj h
  refine ⟨sign ++ digits, rest, by rw [List.append_assoc]; exact ht, List.length_append, ha,
    fun rest' ha' => ?_⟩
  have hhead : (digits ++ rest').head? = (t.drop (signLength (· == Octet.minus) t)).head? := by
    have hdrop : t.drop (signLength (· == Octet.minus) t) = digits ++ rest := by
      rw [← hsign]
      conv_lhs => rw [ht]
      rw [List.drop_left]
    rw [hdrop]
    cases digits with
    | nil => exact absurd hdigits.symm h0
    | cons c digits => rfl
  rw [← hdigits] at h0 hz
  unfold wholeLength
  simp only
  rw [List.append_assoc, hs, List.drop_left, digitCount_append hd ha', if_neg h0, hhead, if_neg hz]

theorem partLength_cons {isMark isSign : UInt8 → Bool} {c : UInt8} (hc : isMark c = true)
    (t : Text) : partLength isMark isSign (c :: t) =
      if digitCount (t.drop (signLength isSign t)) = 0 then
        .error (.expectedDigit, 1 + signLength isSign t)
      else .ok (1 + signLength isSign t + digitCount (t.drop (signLength isSign t))) :=
  if_pos hc

/-- **A part after a mark**, or no part, is read in front of every text that starts with neither a
digit nor the mark. -/
theorem partLength_ok {isMark isSign : UInt8 → Bool} {t : Text} {n : Nat}
    (h : partLength isMark isSign t = .ok n) : ∃ part rest,
      t = part ++ rest ∧ part.length = n ∧ (∀ c, part.head? = some c → isMark c = true) ∧
      ∀ rest', Avoids Octet.isDigit rest' → Avoids isMark rest' →
        partLength isMark isSign (part ++ rest') = .ok n := by
  unfold partLength at h
  simp only at h
  split_ifs at h with hm h0
  · cases t with
    | nil => cases hm
    | cons c t =>
      obtain ⟨sign, digits, rest, ht, hsign, hdigits, hd, -, hs⟩ := exists_signed h0
      rw [← hdigits, ← hsign] at h
      obtain rfl := Except.ok.inj h
      rw [List.tail_cons] at ht
      refine ⟨c :: (sign ++ digits), rest, ?_, ?_, fun d hc => ?_, fun rest' ha' _ => ?_⟩
      · rw [List.cons_append, List.append_assoc]
        exact congrArg _ ht
      · rw [List.length_cons, List.length_append]; omega
      · obtain rfl := Option.some.inj hc
        exact hm
      · rw [← hdigits] at h0
        rw [List.cons_append, partLength_cons hm, List.append_assoc, hs, List.drop_left,
          digitCount_append hd ha', if_neg h0]
  · obtain rfl := Except.ok.inj h
    refine ⟨[], t, rfl, rfl, fun c hc => (by cases hc), fun rest' _ hm' => ?_⟩
    unfold partLength
    rw [List.nil_append, hm'.any_head?]
    rfl

theorem atOffset_ok {offset n : Nat} {r : Except (LiteralFault × Nat) Nat} :
    atOffset offset r = .ok n ↔ r = .ok n := by
  cases r with
  | error e => exact ⟨fun h => (by cases h), fun h => (by cases h)⟩
  | ok m => exact Iff.rfl

/-! ### Literals -/

theorem not_isDigit_of_isExponentMark {c : UInt8} (h : Octet.isExponentMark c = true) :
    Octet.isDigit c = false := by
  rcases (by simpa [Octet.isExponentMark] using h : c = 0x65 ∨ c = 0x45) with rfl | rfl <;> rfl

theorem not_point_of_isExponentMark {c : UInt8} (h : Octet.isExponentMark c = true) :
    (c == Octet.dot) = false := by
  rcases (by simpa [Octet.isExponentMark] using h : c = 0x65 ∨ c = 0x45) with rfl | rfl <;> rfl

/-- The text cannot prolong a literal in front of it. -/
structure Ends (t : Text) : Prop where
  digit : Avoids Octet.isDigit t
  point : Avoids (· == Octet.dot) t
  exponent : Avoids Octet.isExponentMark t

/-- **A literal is read in front of every text that cannot prolong it.** -/
theorem literalExtent_ok {t : Text} {extent : LiteralExtent} (h : literalExtent t = .ok extent) :
    ∃ literal rest, t = literal ++ rest ∧ literal.length = extent.length ∧
      ∀ after, Ends after → literalExtent (literal ++ after) = .ok extent := by
  obtain ⟨n, hwhole, h⟩ := Success.bind_eq_ok.mp h
  obtain ⟨whole, rest₁, ht, hn, hdigit, hw⟩ := wholeLength_ok hwhole
  obtain ⟨m, hfraction, h⟩ := Success.bind_eq_ok.mp h
  rw [atOffset_ok, ht, ← hn, List.drop_left] at hfraction
  obtain ⟨fraction, rest₂, ht₁, hm, hpoint, hf⟩ := partLength_ok hfraction
  obtain ⟨k, hscale, h⟩ := Success.bind_eq_ok.mp h
  have hdrop : ∀ after, (whole ++ (fraction ++ after)).drop (n + m) = after := fun after => by
    rw [← List.append_assoc, ← hn, ← hm, ← List.length_append, List.drop_left]
  rw [atOffset_ok, ht, ht₁, hdrop] at hscale
  obtain ⟨scale, rest₃, ht₂, hk, hmark, hs⟩ := partLength_ok hscale
  obtain rfl := Except.ok.inj h
  refine ⟨whole ++ (fraction ++ scale), rest₃, ?_, ?_, fun after he => ?_⟩
  · rw [ht, ht₁, ht₂, List.append_assoc, List.append_assoc]
  · rw [List.length_append, List.length_append, hn, hm, hk, Nat.add_assoc]
  -- The head of each part that follows is a mark, or the head of what follows the literal.
  have hscaleHead : ∀ c, (scale ++ after).head? = some c →
      Octet.isExponentMark c = true ∨ after.head? = some c := by
    intro c hc
    cases scale with
    | nil => exact Or.inr hc
    | cons d scale => exact Or.inl (hmark c hc)
  have hscaleDigit : Avoids Octet.isDigit (scale ++ after) := by
    intro c hc
    rcases hscaleHead c hc with h | h
    · exact not_isDigit_of_isExponentMark h
    · exact he.digit c h
  have hscalePoint : Avoids (· == Octet.dot) (scale ++ after) := by
    intro c hc
    rcases hscaleHead c hc with h | h
    · exact not_point_of_isExponentMark h
    · exact he.point c h
  have hfractionDigit : Avoids Octet.isDigit (fraction ++ (scale ++ after)) := by
    intro c hc
    cases fraction with
    | nil => exact hscaleDigit c hc
    | cons d fraction =>
      obtain rfl : c = Octet.dot := by simpa using hpoint c hc
      rfl
  rw [List.append_assoc, List.append_assoc]
  refine Success.bind_eq_ok.mpr ⟨n, hw _ hfractionDigit, ?_⟩
  refine Success.bind_eq_ok.mpr ⟨m, ?_, ?_⟩
  · rw [atOffset_ok, ← hn, List.drop_left]
    exact hf _ hscaleDigit hscalePoint
  refine Success.bind_eq_ok.mpr ⟨k, ?_, rfl⟩
  rw [atOffset_ok, hdrop]
  exact hs _ he.digit he.exponent

end QueryCompiler.Number
