import QueryCompiler.Number.Decimal
import QueryCompiler.Proofs.Number.Literals

/-!
# The grammar of numeric literals

A literal is a whole part, a fraction that may be missing and a scale that may be missing
(`IsLiteral`). What is read at the front of a text is a literal that no digit follows
(`isLiteral_of_literalExtent`), and every literal is read in front of what cannot prolong it
(`literalExtent_append`). A literal has a value, as an integer and as a decimal number
(`IsLiteral.integer?_isSome`, `IsLiteral.read?_isSome`).
-/

namespace QueryCompiler.Number

/-! ### The grammar -/

/-- One digit or more. -/
def IsDigits (t : Text) : Prop := t ≠ [] ∧ ∀ c ∈ t, Octet.isDigit c = true

/-- A sign of those that are allowed, or none. -/
def IsSign (isSign : UInt8 → Bool) (t : Text) : Prop := t = [] ∨ ∃ c, isSign c = true ∧ t = [c]

/-- A minus sign or none, and digits; the first digit is zero only if it is the only one. -/
def IsWhole (t : Text) : Prop :=
  ∃ sign digits, t = sign ++ digits ∧ IsSign (· == Octet.minus) sign ∧ IsDigits digits ∧
    (digits.head? = some Octet.zero → digits.length = 1)

/-- Nothing, or a mark, a sign of those that are allowed or none, and digits. -/
def IsPart (isMark isSign : UInt8 → Bool) (t : Text) : Prop :=
  t = [] ∨ ∃ mark sign digits, t = mark :: (sign ++ digits) ∧ isMark mark = true ∧
    IsSign isSign sign ∧ IsDigits digits

/-- A point and digits, or nothing. -/
def IsFraction (t : Text) : Prop := IsPart (· == Octet.dot) (fun _ => false) t

/-- An exponent mark, a sign or none, and digits; or nothing. -/
def IsScale (t : Text) : Prop :=
  IsPart Octet.isExponentMark (fun c => c == Octet.plus || c == Octet.minus) t

/-- A whole part, a fraction and a scale. The literal is one of a float if it has one of the last
two. -/
def IsLiteral (isFloat : Bool) (t : Text) : Prop :=
  ∃ whole fraction scale, t = whole ++ (fraction ++ scale) ∧ IsWhole whole ∧ IsFraction fraction ∧
    IsScale scale ∧ isFloat = !(fraction ++ scale).isEmpty

/-! ### Signs and digits -/

theorem isSign_take (isSign : UInt8 → Bool) (t : Text) :
    IsSign isSign (t.take (signLength isSign t)) := by
  cases t with
  | nil => exact Or.inl List.take_nil
  | cons c t =>
    by_cases hc : isSign c = true
    · exact Or.inr ⟨c, hc, by rw [signLength, if_pos (by exact hc)]; rfl⟩
    · exact Or.inl (by rw [signLength, if_neg (by exact hc)]; rfl)

theorem signLength_append {isSign : UInt8 → Bool}
    (hclass : ∀ c, Octet.isDigit c = true → isSign c = false) {sign digits : Text}
    (hs : IsSign isSign sign) (hd : IsDigits digits) (rest : Text) :
    signLength isSign (sign ++ (digits ++ rest)) = sign.length := by
  rcases hs with rfl | ⟨c, hc, rfl⟩
  · obtain ⟨c, digits, rfl⟩ := List.exists_cons_of_ne_nil hd.1
    have hc : ¬ isSign c = true := by rw [hclass c (hd.2 c List.mem_cons_self)]; exact Bool.false_ne_true
    exact if_neg hc
  · exact if_pos hc

/-- A sign and digits that are counted at the front of a text. -/
theorem exists_sign_digits {isSign : UInt8 → Bool} {t : Text}
    (h : digitCount (t.drop (signLength isSign t)) ≠ 0) : ∃ sign digits rest,
      t = sign ++ (digits ++ rest) ∧ IsSign isSign sign ∧ IsDigits digits ∧
      Avoids Octet.isDigit rest ∧ sign.length = signLength isSign t ∧
      digits.length = digitCount (t.drop (signLength isSign t)) := by
  obtain ⟨sign, digits, rest, ht, hsign, hdigits, hd, ha, -⟩ := exists_signed h
  refine ⟨sign, digits, rest, ht, ?_, ⟨?_, hd⟩, ha, hsign, hdigits⟩
  · have htake : sign = t.take (signLength isSign t) := by
      rw [← hsign]
      conv_rhs => rw [ht]
      rw [List.take_left]
    rw [htake]
    exact isSign_take isSign t
  · rintro rfl
    exact h hdigits.symm

/-! ### Parts -/

theorem isWhole_of_wholeLength {t : Text} {n : Nat} (h : wholeLength t = .ok n) :
    ∃ whole rest, t = whole ++ rest ∧ whole.length = n ∧ IsWhole whole ∧
      Avoids Octet.isDigit rest := by
  unfold wholeLength at h
  simp only at h
  split_ifs at h with h0 hz
  obtain ⟨sign, digits, rest, ht, hsign, hd, ha, hslen, hdlen⟩ := exists_sign_digits h0
  rw [← hdlen, ← hslen] at h
  obtain rfl := Except.ok.inj h
  refine ⟨sign ++ digits, rest, by rw [List.append_assoc]; exact ht, List.length_append,
    ⟨sign, digits, rfl, hsign, hd, fun hhead => ?_⟩, ha⟩
  have hdrop : t.drop (signLength (· == Octet.minus) t) = digits ++ rest := by
    rw [← hslen]
    conv_lhs => rw [ht]
    rw [List.drop_left]
  obtain ⟨c, more, rfl⟩ := List.exists_cons_of_ne_nil hd.1
  rw [← hdlen, hdrop] at hz
  by_contra hlen
  refine hz ⟨?_, hhead⟩
  rw [List.length_cons] at hlen ⊢
  omega

theorem wholeLength_append {whole : Text} (h : IsWhole whole) {rest : Text}
    (hr : Avoids Octet.isDigit rest) : wholeLength (whole ++ rest) = .ok whole.length := by
  obtain ⟨sign, digits, rfl, hs, hd, hz⟩ := h
  have hclass : ∀ c, Octet.isDigit c = true → (c == Octet.minus) = false := by
    intro c hc
    refine beq_false_of_ne fun he => ?_
    rw [he] at hc
    exact absurd hc (by decide)
  have hlen : digits.length ≠ 0 := fun he => hd.1 (List.length_eq_zero_iff.mp he)
  unfold wholeLength
  simp only
  rw [List.append_assoc, signLength_append hclass hs hd, List.drop_left, digitCount_append hd.2 hr,
    if_neg hlen, if_neg, List.length_append]
  rintro ⟨hlt, hhead⟩
  obtain ⟨c, more, rfl⟩ := List.exists_cons_of_ne_nil hd.1
  rw [hz hhead] at hlt
  omega

theorem isPart_of_partLength {isMark isSign : UInt8 → Bool} {t : Text} {n : Nat}
    (h : partLength isMark isSign t = .ok n) : ∃ part rest, t = part ++ rest ∧ part.length = n ∧
      IsPart isMark isSign part ∧ (part ≠ [] → Avoids Octet.isDigit rest) := by
  unfold partLength at h
  simp only at h
  split_ifs at h with hm h0
  · cases t with
    | nil => cases hm
    | cons c t =>
      obtain ⟨sign, digits, rest, ht, hs, hd, ha, hslen, hdlen⟩ := exists_sign_digits h0
      rw [List.tail_cons] at ht hslen hdlen
      rw [List.tail_cons, ← hdlen, ← hslen] at h
      obtain rfl := Except.ok.inj h
      refine ⟨c :: (sign ++ digits), rest, ?_, ?_, Or.inr ⟨c, sign, digits, rfl, hm, hs, hd⟩,
        fun _ => ha⟩
      · rw [List.cons_append, List.append_assoc, ← ht]
      · rw [List.length_cons, List.length_append]
        omega
  · obtain rfl := Except.ok.inj h
    exact ⟨[], t, rfl, rfl, Or.inl rfl, fun hne => absurd rfl hne⟩

theorem partLength_append {isMark isSign : UInt8 → Bool}
    (hclass : ∀ c, Octet.isDigit c = true → isSign c = false) {part : Text}
    (h : IsPart isMark isSign part) {rest : Text} (hm : part = [] → Avoids isMark rest)
    (hr : Avoids Octet.isDigit rest) : partLength isMark isSign (part ++ rest) = .ok part.length := by
  rcases h with rfl | ⟨mark, sign, digits, rfl, hmark, hs, hd⟩
  · unfold partLength
    rw [List.nil_append, (hm rfl).any_head?]
    rfl
  · have hlen : digits.length ≠ 0 := fun he => hd.1 (List.length_eq_zero_iff.mp he)
    rw [List.cons_append, partLength_cons hmark, List.append_assoc,
      signLength_append hclass hs hd, List.drop_left, digitCount_append hd.2 hr, if_neg hlen,
      List.length_cons, List.length_append]
    congr 1
    omega

/-! ### Octets -/

/-- The octet may stand in a numeric literal: a digit, a sign, a point or an exponent mark. -/
def isNumeric (c : UInt8) : Bool :=
  Octet.isDigit c || c == Octet.minus || c == Octet.plus || c == Octet.dot ||
    Octet.isExponentMark c

theorem isNumeric_of_isDigit {c : UInt8} (h : Octet.isDigit c = true) : isNumeric c = true := by
  simp [isNumeric, h]

theorem IsSign.forall_mem {isSign : UInt8 → Bool} {t : Text} (h : IsSign isSign t)
    (hsign : ∀ c, isSign c = true → isNumeric c = true) : ∀ c ∈ t, isNumeric c = true := by
  obtain rfl | ⟨d, hd, rfl⟩ := h
  · exact List.forall_mem_nil _
  · exact List.forall_mem_singleton.mpr (hsign d hd)

theorem IsPart.forall_mem {isMark isSign : UInt8 → Bool} {t : Text} (h : IsPart isMark isSign t)
    (hmark : ∀ c, isMark c = true → isNumeric c = true)
    (hsign : ∀ c, isSign c = true → isNumeric c = true) : ∀ c ∈ t, isNumeric c = true := by
  obtain rfl | ⟨mark, sign, digits, rfl, hm, hs, hd⟩ := h
  · exact List.forall_mem_nil _
  · refine List.forall_mem_cons.mpr ⟨hmark mark hm, List.forall_mem_append.mpr ⟨?_, ?_⟩⟩
    · exact hs.forall_mem hsign
    · exact fun c hc => isNumeric_of_isDigit (hd.2 c hc)

theorem IsLiteral.forall_mem {isFloat : Bool} {t : Text} (h : IsLiteral isFloat t) :
    ∀ c ∈ t, isNumeric c = true := by
  obtain ⟨_, fraction, scale, rfl, ⟨sign, digits, rfl, hs, hd, -⟩, hf, he, -⟩ := h
  have hclass : ∀ c : UInt8, (c == Octet.minus) = true ∨ (c == Octet.dot) = true ∨
      Octet.isExponentMark c = true ∨ (c == Octet.plus || c == Octet.minus) = true →
      isNumeric c = true := fun c hc => by
    simp only [isNumeric, Bool.or_eq_true] at hc ⊢
    tauto
  refine List.forall_mem_append.mpr ⟨List.forall_mem_append.mpr ⟨?_, fun c hc => ?_⟩,
    List.forall_mem_append.mpr ⟨?_, ?_⟩⟩
  · exact hs.forall_mem fun c hc => hclass c (Or.inl hc)
  · exact isNumeric_of_isDigit (hd.2 c hc)
  · exact IsPart.forall_mem hf (fun c hc => hclass c (Or.inr (Or.inl hc))) fun c hc => by cases hc
  · exact IsPart.forall_mem he (fun c hc => hclass c (Or.inr (Or.inr (Or.inl hc))))
      fun c hc => hclass c (Or.inr (Or.inr (Or.inr hc)))

/-! ### Literals -/

theorem isFloat_eq (fraction scale : Text) :
    (fraction.length + scale.length != 0) = !(fraction ++ scale).isEmpty := by
  rw [← List.length_append]
  cases fraction ++ scale <;> rfl

/-- **What is read is a literal**, as long as it can be. -/
theorem isLiteral_of_literalExtent {t : Text} {extent : LiteralExtent}
    (h : literalExtent t = .ok extent) : ∃ literal rest, t = literal ++ rest ∧
      literal.length = extent.length ∧ IsLiteral extent.isFloat literal ∧
      Avoids Octet.isDigit rest := by
  obtain ⟨n, hwhole, h⟩ := Success.bind_eq_ok.mp h
  obtain ⟨whole, rest₁, rfl, rfl, hw, ha₁⟩ := isWhole_of_wholeLength hwhole
  obtain ⟨m, hfraction, h⟩ := Success.bind_eq_ok.mp h
  rw [atOffset_ok, List.drop_left] at hfraction
  obtain ⟨fraction, rest₂, rfl, rfl, hf, ha₂⟩ := isPart_of_partLength hfraction
  obtain ⟨k, hscale, h⟩ := Success.bind_eq_ok.mp h
  rw [atOffset_ok, ← List.length_append, ← List.append_assoc, List.drop_left] at hscale
  obtain ⟨scale, rest₃, rfl, rfl, hs, ha₃⟩ := isPart_of_partLength hscale
  obtain rfl := Except.ok.inj h
  refine ⟨whole ++ (fraction ++ scale), rest₃, ?_, ?_,
    ⟨whole, fraction, scale, rfl, hw, hf, hs, ?_⟩, ?_⟩
  · rw [List.append_assoc, List.append_assoc]
  · rw [List.length_append, List.length_append, Nat.add_assoc]
  · exact isFloat_eq fraction scale
  · -- What follows the last part that is there is no digit.
    by_cases hscale0 : scale = []
    · subst hscale0
      rw [List.nil_append] at ha₂
      by_cases hfraction0 : fraction = []
      · subst hfraction0
        exact ha₁
      · exact ha₂ hfraction0
    · exact ha₃ hscale0

/-- **Every literal is read** in front of what cannot prolong it. -/
theorem literalExtent_append {isFloat : Bool} {literal : Text} (h : IsLiteral isFloat literal)
    {rest : Text} (hr : Ends rest) :
    literalExtent (literal ++ rest) = .ok ⟨literal.length, isFloat⟩ := by
  obtain ⟨whole, fraction, scale, rfl, hw, hf, hs, rfl⟩ := h
  have hscaleClass : ∀ c, Octet.isDigit c = true →
      (c == Octet.plus || c == Octet.minus) = false := by
    intro c hc
    rw [Bool.or_eq_false_iff]
    refine ⟨beq_false_of_ne fun he => ?_, beq_false_of_ne fun he => ?_⟩ <;>
      exact absurd (he ▸ hc) (by decide)
  -- The head of a part is its mark, or the head of what follows it.
  have hscaleHead : ∀ c, (scale ++ rest).head? = some c →
      Octet.isExponentMark c = true ∨ rest.head? = some c := by
    intro c hc
    rcases hs with rfl | ⟨mark, sign, digits, rfl, hmark, -, -⟩
    · exact Or.inr hc
    · exact Or.inl (Option.some.inj hc ▸ hmark)
  have hscaleDigit : Avoids Octet.isDigit (scale ++ rest) := fun c hc =>
    (hscaleHead c hc).elim not_isDigit_of_isExponentMark (hr.digit c)
  have hscalePoint : Avoids (· == Octet.dot) (scale ++ rest) := fun c hc =>
    (hscaleHead c hc).elim not_point_of_isExponentMark (hr.point c)
  have hfractionDigit : Avoids Octet.isDigit (fraction ++ (scale ++ rest)) := by
    intro c hc
    rcases hf with rfl | ⟨mark, sign, digits, rfl, hmark, -, -⟩
    · exact hscaleDigit c hc
    · obtain rfl : c = Octet.dot := by
        rw [← Option.some.inj hc]
        simpa using hmark
      rfl
  rw [List.append_assoc, List.append_assoc]
  refine Success.bind_eq_ok.mpr ⟨whole.length, wholeLength_append hw hfractionDigit, ?_⟩
  refine Success.bind_eq_ok.mpr ⟨fraction.length, ?_, ?_⟩
  · rw [atOffset_ok, List.drop_left]
    exact partLength_append (fun _ _ => rfl) hf (fun _ => hscalePoint) hscaleDigit
  refine Success.bind_eq_ok.mpr ⟨scale.length, ?_, ?_⟩
  · rw [atOffset_ok, ← List.length_append, ← List.append_assoc, List.drop_left]
    exact partLength_append hscaleClass hs (fun _ => hr.exponent) hr.digit
  · rw [List.length_append, List.length_append, ← Nat.add_assoc, ← isFloat_eq]
    rfl

/-! ### Values -/

theorem takeWhile_ne_nil {digits : Text} (h : IsDigits digits) (rest : Text) :
    (digits ++ rest).takeWhile Octet.isDigit ≠ [] := by
  obtain ⟨c, more, rfl⟩ := List.exists_cons_of_ne_nil h.1
  rw [List.cons_append, List.takeWhile_cons_of_pos (h.2 c List.mem_cons_self)]
  exact List.cons_ne_nil _ _

/-- A literal starts with no blank, and digits come after its sign. -/
theorem IsLiteral.digits {isFloat : Bool} {t : Text} (h : IsLiteral isFloat t) :
    t.dropWhile isSpace = t ∧ (unsigned t).takeWhile Octet.isDigit ≠ [] := by
  obtain ⟨_, fraction, scale, rfl, ⟨sign, digits, rfl, hsign, hdigits, -⟩, -, -, -⟩ := h
  have hclass : ∀ c : UInt8, Octet.isDigit c = true → isSpace c = false ∧
      (c == Octet.minus || c == Octet.plus) = false := Octet.forall_octet (by decide +kernel)
  rw [List.append_assoc]
  rcases hsign with rfl | ⟨c, hc, rfl⟩
  · obtain ⟨c, more, rfl⟩ := List.exists_cons_of_ne_nil hdigits.1
    obtain ⟨hspace, hsign⟩ := hclass c (hdigits.2 c List.mem_cons_self)
    have hunsigned : unsigned (c :: more ++ (fraction ++ scale)) = c :: more ++ (fraction ++ scale) :=
      if_neg (by simpa using hsign)
    rw [List.nil_append, hunsigned]
    exact ⟨List.dropWhile_cons_of_neg (by simp [hspace]), takeWhile_ne_nil hdigits _⟩
  · obtain rfl := eq_of_beq hc
    exact ⟨rfl, takeWhile_ne_nil hdigits _⟩

theorem IsLiteral.integer?_isSome {isFloat : Bool} {t : Text} (h : IsLiteral isFloat t) :
    (integer? t).isSome = true := by
  rw [integer?, h.digits.1, signedDigits?]
  simp only [List.isEmpty_iff, if_neg h.digits.2, Option.isSome_some]

theorem IsLiteral.read?_isSome {isFloat : Bool} {t : Text} (h : IsLiteral isFloat t) :
    (Decimal.read? t).isSome = true := by
  rw [Decimal.read?, h.digits.1]
  simp only [List.isEmpty_eq_false_iff.mpr h.digits.2, Bool.false_and, Bool.false_eq_true, if_false,
    Option.isSome_some]

/-- Only the front of a text counts, and it needs a digit. -/
example : Decimal.read? " -1.50e2x" = some ⟨true, 150, 0⟩ ∧ Decimal.read? "1e" = some ⟨false, 1, 0⟩ ∧
    Decimal.read? "e2" = none := by decide +kernel

end QueryCompiler.Number
