import QueryCompiler.Proofs.Text.Quoting

/-!
# Characters of UTF-8

The characters of UTF-8 are the encodings of the Unicode scalar values, which are the code points
that are no surrogates (`isCharacter_iff`). A text is well-formed exactly if it consists of
characters (`wellFormed_iff`, `wellFormed_iff_isEncoded`). So what follows a well-formed beginning
decides about the whole (`wellFormed_append`), and any text may be split at an octet below `0x80`
(`wellFormed_split`).
-/

namespace QueryCompiler.Utf8

/-! ### The table of characters -/

/-- The octet goes on with a character. -/
def IsTail (c : UInt8) : Prop := 0x80 ≤ c.toNat ∧ c.toNat < 0xC0

/-- The octets of a character: one below `0x80`, or one that leads and the tails it takes, where
some octets that lead restrict the first tail. -/
inductive Shape : Text → Prop
  | one {a : UInt8} : a.toNat < 0x80 → Shape [a]
  | two {a b : UInt8} : 0xC2 ≤ a.toNat → a.toNat < 0xE0 → IsTail b → Shape [a, b]
  | three {a b c : UInt8} : 0xE0 ≤ a.toNat → a.toNat < 0xF0 → (a.toNat = 0xE0 → 0xA0 ≤ b.toNat) →
    (a.toNat = 0xED → b.toNat < 0xA0) → IsTail b → IsTail c → Shape [a, b, c]
  | four {a b c d : UInt8} : 0xF0 ≤ a.toNat → a.toNat < 0xF5 → (a.toNat = 0xF0 → 0x90 ≤ b.toNat) →
    (a.toNat = 0xF4 → b.toNat < 0x90) → IsTail b → IsTail c → IsTail d → Shape [a, b, c, d]

theorem lead?_one : ∀ a : UInt8, a.toNat < 0x80 → lead? a = some (0, 0x80, 0xBF) :=
  Octet.forall_octet (by decide +kernel)

theorem lead?_two : ∀ a : UInt8, 0xC2 ≤ a.toNat ∧ a.toNat < 0xE0 →
    lead? a = some (1, 0x80, 0xBF) :=
  Octet.forall_octet (by decide +kernel)

theorem lead?_three : ∀ a : UInt8, 0xE0 ≤ a.toNat ∧ a.toNat < 0xF0 → lead? a =
    some (2, if a.toNat = 0xE0 then 0xA0 else 0x80, if a.toNat = 0xED then 0x9F else 0xBF) :=
  Octet.forall_octet (by decide +kernel)

theorem lead?_four : ∀ a : UInt8, 0xF0 ≤ a.toNat ∧ a.toNat < 0xF5 → lead? a =
    some (3, if a.toNat = 0xF0 then 0x90 else 0x80, if a.toNat = 0xF4 then 0x8F else 0xBF) :=
  Octet.forall_octet (by decide +kernel)

theorem lead?_none : ∀ a : UInt8, (0x80 ≤ a.toNat ∧ a.toNat < 0xC2) ∨ 0xF5 ≤ a.toNat →
    lead? a = none :=
  Octet.forall_octet (by decide +kernel)

section
variable {a b : UInt8} {n : Nat} {low high : UInt8} {more rest : Text}

theorem continuation_cons (hb : low ≤ b ∧ b ≤ high) :
    continuation (n + 1) low high (b :: rest) = b :: continuation n 0x80 0xBF rest := by
  rw [continuation, if_pos hb]

theorem continuation_tail (hb : IsTail b) :
    continuation (n + 1) 0x80 0xBF (b :: rest) = b :: continuation n 0x80 0xBF rest := by
  refine continuation_cons ?_
  unfold IsTail at hb
  simp only [UInt8.le_iff_toNat_le, UInt8.reduceToNat]
  omega

/-- What a continuation keeps whole starts with an octet in the range. -/
theorem exists_of_continuation (hlen : more.length = n + 1)
    (h : continuation (n + 1) low high more = more) : ∃ b rest, more = b :: rest ∧
      (low ≤ b ∧ b ≤ high) ∧ rest.length = n ∧ continuation n 0x80 0xBF rest = rest := by
  obtain ⟨b, rest, rfl⟩ := List.exists_cons_of_length_eq_add_one hlen
  rw [continuation] at h
  split_ifs at h with hb
  exact ⟨b, rest, rfl, hb, Nat.succ.inj hlen, (List.cons.inj h).2⟩

theorem exists_tail (hlen : more.length = n + 1) (h : continuation (n + 1) 0x80 0xBF more = more) :
    ∃ b rest, more = b :: rest ∧ IsTail b ∧ rest.length = n ∧
      continuation n 0x80 0xBF rest = rest := by
  obtain ⟨b, rest, rfl, hb, hlen, hrest⟩ := exists_of_continuation hlen h
  simp only [UInt8.le_iff_toNat_le, UInt8.reduceToNat] at hb
  exact ⟨b, rest, rfl, ⟨hb.1, by omega⟩, hlen, hrest⟩

/-- A character is an octet that leads, and as many more in the ranges as it takes. -/
theorem pieceAt_eq_character : pieceAt a more = .character (a :: more) ↔
    ∃ n low high, lead? a = some (n, low, high) ∧ more.length = n ∧
      continuation n low high more = more := by
  unfold pieceAt
  cases lead? a with
  | none => exact ⟨fun h => (by cases h), fun ⟨_, _, _, h, _⟩ => (by cases h)⟩
  | some l =>
    obtain ⟨n, low, high⟩ := l
    simp only
    constructor
    · intro h
      split_ifs at h with hlen
      have hmore : continuation n low high more = more := by simpa using h
      exact ⟨n, low, high, rfl, by rw [← hlen, hmore], hmore⟩
    · rintro ⟨_, _, _, h, hlen, hmore⟩
      cases h
      rw [hmore, if_pos hlen]

theorem pieceAt_of_lead? (hlead : lead? a = some (n, low, high)) (hlen : more.length = n)
    (hmore : continuation n low high more = more) : pieceAt a more = .character (a :: more) :=
  pieceAt_eq_character.mpr ⟨n, low, high, hlead, hlen, hmore⟩

end

theorem pieceAt_of_shape {a : UInt8} {more : Text} (h : Shape (a :: more)) :
    pieceAt a more = .character (a :: more) := by
  cases h with
  | one ha => exact pieceAt_of_lead? (lead?_one a ha) rfl rfl
  | two hlow hhigh hb =>
    exact pieceAt_of_lead? (lead?_two a ⟨hlow, hhigh⟩) rfl (continuation_tail hb)
  | @three _ b c hlow hhigh hE0 hED hb hc =>
    refine pieceAt_of_lead? (lead?_three a ⟨hlow, hhigh⟩) rfl ?_
    rw [continuation_cons, continuation_tail hc, continuation]
    unfold IsTail at hb
    split_ifs <;> simp only [UInt8.le_iff_toNat_le, UInt8.reduceToNat] <;> omega
  | @four _ b c d hlow hhigh hF0 hF4 hb hc hd =>
    refine pieceAt_of_lead? (lead?_four a ⟨hlow, hhigh⟩) rfl ?_
    rw [continuation_cons, continuation_tail hc, continuation_tail hd, continuation]
    unfold IsTail at hb
    split_ifs <;> simp only [UInt8.le_iff_toNat_le, UInt8.reduceToNat] <;> omega

theorem shape_of_pieceAt {a : UInt8} {more : Text} (h : pieceAt a more = .character (a :: more)) :
    Shape (a :: more) := by
  obtain ⟨n, low, high, hl, hlen, hmore⟩ := pieceAt_eq_character.mp h
  by_cases h1 : a.toNat < 0x80
  · obtain ⟨rfl, -⟩ : 0 = n ∧ _ := by simpa using (lead?_one a h1).symm.trans hl
    obtain rfl := List.length_eq_zero_iff.mp hlen
    exact .one h1
  by_cases h2 : 0xC2 ≤ a.toNat ∧ a.toNat < 0xE0
  · obtain ⟨rfl, rfl, rfl⟩ : 1 = n ∧ 0x80 = low ∧ 0xBF = high := by
      simpa using (lead?_two a h2).symm.trans hl
    obtain ⟨b, _, rfl, hb, hlen, -⟩ := exists_tail hlen hmore
    obtain rfl := List.length_eq_zero_iff.mp hlen
    exact .two h2.1 h2.2 hb
  by_cases h3 : 0xE0 ≤ a.toNat ∧ a.toNat < 0xF0
  · obtain ⟨rfl, rfl, rfl⟩ : 2 = n ∧ _ = low ∧ _ = high := by
      simpa using (lead?_three a h3).symm.trans hl
    obtain ⟨b, _, rfl, hb, hlen, hmore⟩ := exists_of_continuation hlen hmore
    obtain ⟨c, _, rfl, hc, hlen, -⟩ := exists_tail hlen hmore
    obtain rfl := List.length_eq_zero_iff.mp hlen
    obtain ⟨hE0, hED, hb⟩ : (a.toNat = 0xE0 → 0xA0 ≤ b.toNat) ∧
        (a.toNat = 0xED → b.toNat < 0xA0) ∧ IsTail b := by
      unfold IsTail
      split_ifs at hb <;> simp only [UInt8.le_iff_toNat_le, UInt8.reduceToNat] at hb <;> omega
    exact .three h3.1 h3.2 hE0 hED hb hc
  by_cases h4 : 0xF0 ≤ a.toNat ∧ a.toNat < 0xF5
  · obtain ⟨rfl, rfl, rfl⟩ : 3 = n ∧ _ = low ∧ _ = high := by
      simpa using (lead?_four a h4).symm.trans hl
    obtain ⟨b, _, rfl, hb, hlen, hmore⟩ := exists_of_continuation hlen hmore
    obtain ⟨c, _, rfl, hc, hlen, hmore⟩ := exists_tail hlen hmore
    obtain ⟨d, _, rfl, hd, hlen, -⟩ := exists_tail hlen hmore
    obtain rfl := List.length_eq_zero_iff.mp hlen
    obtain ⟨hF0, hF4, hb⟩ : (a.toNat = 0xF0 → 0x90 ≤ b.toNat) ∧
        (a.toNat = 0xF4 → b.toNat < 0x90) ∧ IsTail b := by
      unfold IsTail
      split_ifs at hb <;> simp only [UInt8.le_iff_toNat_le, UInt8.reduceToNat] at hb <;> omega
    exact .four h4.1 h4.2 hF0 hF4 hb hc hd
  · rw [lead?_none a (by omega)] at hl
    cases hl

/-- **The characters are the texts of these shapes.** -/
theorem isCharacter_iff_shape {octets : Text} : IsCharacter octets ↔ Shape octets := by
  constructor
  · rintro ⟨a, more, rfl, h⟩
    have h0 := h []
    rw [List.append_nil] at h0
    exact shape_of_pieceAt h0
  · intro h
    obtain ⟨a, more, rfl⟩ : ∃ a more, octets = a :: more := by cases h <;> exact ⟨_, _, rfl⟩
    exact isCharacter_of_pieceAt (pieceAt_of_shape h)

/-! ### Code points -/

/-- The code point is a surrogate. -/
def IsSurrogate (n : Nat) : Prop := 0xD800 ≤ n ∧ n < 0xE000

/-- The code point is a character. -/
def IsScalar (n : Nat) : Prop := n < 0x110000 ∧ ¬ IsSurrogate n

theorem toUInt8_eq {n : Nat} {c : UInt8} (h : n = c.toNat) : n.toUInt8 = c := by
  rw [h]
  exact UInt8.ofNat_toNat

theorem toNat_toUInt8 {n : Nat} (h : n < 0x100) : n.toUInt8.toNat = n := by
  simp
  omega

theorem isTail_toUInt8 (k : Nat) : IsTail (0x80 + k % 0x40).toUInt8 := by
  unfold IsTail
  rw [toNat_toUInt8 (by omega)]
  omega

theorem shape_encode {n : Nat} (h : IsScalar n) : Shape (encode n) := by
  obtain ⟨hn, hs⟩ := h
  unfold IsSurrogate at hs
  unfold encode
  split_ifs with h1 h2 h3
  · refine .one ?_
    rw [toNat_toUInt8 (by omega)]
    exact h1
  · refine .two ?_ ?_ (isTail_toUInt8 _)
    all_goals rw [toNat_toUInt8 (by omega)]; omega
  · refine .three ?_ ?_ ?_ ?_ (isTail_toUInt8 _) (isTail_toUInt8 _)
    all_goals rw [toNat_toUInt8 (by omega)]
    · omega
    · omega
    · rw [toNat_toUInt8 (by omega)]; omega
    · rw [toNat_toUInt8 (by omega)]; omega
  · refine .four ?_ ?_ ?_ ?_ (isTail_toUInt8 _) (isTail_toUInt8 _) (isTail_toUInt8 _)
    all_goals rw [toNat_toUInt8 (by omega)]
    · omega
    · omega
    · rw [toNat_toUInt8 (by omega)]; omega
    · rw [toNat_toUInt8 (by omega)]; omega

theorem exists_encode {octets : Text} (h : Shape octets) :
    ∃ n, IsScalar n ∧ encode n = octets := by
  cases h with
  | @one a ha =>
    refine ⟨a.toNat, ⟨by omega, by unfold IsSurrogate; omega⟩, ?_⟩
    rw [encode, if_pos ha, toUInt8_eq rfl]
  | @two a b hlow hhigh hb =>
    obtain ⟨hb, hb'⟩ := hb
    refine ⟨(a.toNat - 0xC0) * 0x40 + (b.toNat - 0x80), ⟨by omega, by unfold IsSurrogate; omega⟩, ?_⟩
    rw [encode, if_neg (by omega), if_pos (by omega), toUInt8_eq (c := a) (by omega),
      toUInt8_eq (c := b) (by omega)]
  | @three a b c hlow hhigh hE0 hED hb hc =>
    obtain ⟨⟨hb, hb'⟩, hc, hc'⟩ := And.intro hb hc
    refine ⟨(a.toNat - 0xE0) * 0x1000 + (b.toNat - 0x80) * 0x40 + (c.toNat - 0x80),
      ⟨by omega, by unfold IsSurrogate; omega⟩, ?_⟩
    rw [encode, if_neg (by omega), if_neg (by omega), if_pos (by omega),
      toUInt8_eq (c := a) (by omega), toUInt8_eq (c := b) (by omega),
      toUInt8_eq (c := c) (by omega)]
  | @four a b c d hlow hhigh hF0 hF4 hb hc hd =>
    obtain ⟨⟨hb, hb'⟩, ⟨hc, hc'⟩, hd, hd'⟩ := And.intro hb (And.intro hc hd)
    refine ⟨(a.toNat - 0xF0) * 0x40000 + (b.toNat - 0x80) * 0x1000 + (c.toNat - 0x80) * 0x40 +
      (d.toNat - 0x80), ⟨by omega, by unfold IsSurrogate; omega⟩, ?_⟩
    rw [encode, if_neg (by omega), if_neg (by omega), if_neg (by omega),
      toUInt8_eq (c := a) (by omega), toUInt8_eq (c := b) (by omega),
      toUInt8_eq (c := c) (by omega), toUInt8_eq (c := d) (by omega)]

/-- **The characters are the encodings of the scalar values.** -/
theorem isCharacter_iff {octets : Text} :
    IsCharacter octets ↔ ∃ n, IsScalar n ∧ encode n = octets := by
  rw [isCharacter_iff_shape]
  constructor
  · exact exists_encode
  · rintro ⟨n, hn, rfl⟩
    exact shape_encode hn

/-! ### Well-formed texts -/

theorem wellFormed_cons (a : UInt8) (t : Text) : wellFormed (a :: t) =
    ((match pieceAt a t with
      | .character _ => true
      | .stray _ => false) && wellFormed (t.drop ((pieceAt a t).octets.length - 1))) := by
  rw [wellFormed, pieces, List.all_cons]
  rfl

@[simp] theorem wellFormed_nil : wellFormed [] = true := by
  rw [wellFormed, pieces]
  rfl

/-- A character in front changes nothing. -/
theorem wellFormed_character {octets : Text} (h : IsCharacter octets) (t : Text) :
    wellFormed (octets ++ t) = wellFormed t := by
  obtain ⟨a, more, rfl, hpiece⟩ := h
  rw [List.cons_append, wellFormed_cons, hpiece]
  simp only [Bool.true_and, Piece.octets, List.length_cons, Nat.add_sub_cancel, List.drop_left]

/-- **A text is well-formed exactly if it consists of characters.** -/
theorem wellFormed_iff {t : Text} : wellFormed t = true ↔
    ∃ characters : List Text, (∀ c ∈ characters, IsCharacter c) ∧ characters.flatten = t := by
  constructor
  · intro h
    fun_induction pieces t with
    | case1 => exact ⟨[], List.forall_mem_nil _, rfl⟩
    | case2 a rest ih =>
      obtain ⟨more, hoctets, after, rfl⟩ := octets_pieceAt a rest
      rw [wellFormed_cons, Bool.and_eq_true] at h
      obtain ⟨hpiece, hrest⟩ := h
      rw [hoctets, List.length_cons, Nat.add_sub_cancel, List.drop_left] at ih hrest
      obtain ⟨characters, hcharacters, rfl⟩ := ih hrest
      cases hp : pieceAt a (more ++ characters.flatten) with
      | stray _ => rw [hp] at hpiece; cases hpiece
      | character octets =>
        rw [hp] at hoctets
        obtain rfl : octets = a :: more := hoctets
        refine ⟨(a :: more) :: characters, ?_, rfl⟩
        exact List.forall_mem_cons.mpr ⟨isCharacter_of_pieceAt hp, hcharacters⟩
  · rintro ⟨characters, h, rfl⟩
    induction characters with
    | nil => exact wellFormed_nil
    | cons c characters ih =>
      obtain ⟨hc, hrest⟩ := List.forall_mem_cons.mp h
      rw [List.flatten_cons, wellFormed_character hc, ih hrest]

/-- The text encodes scalar values one after the other. -/
def IsEncoded (t : Text) : Prop :=
  ∃ points : List Nat, (∀ n ∈ points, IsScalar n) ∧ points.flatMap encode = t

/-- **The well-formed texts are those that encode scalar values.** -/
theorem wellFormed_iff_isEncoded {t : Text} : wellFormed t = true ↔ IsEncoded t := by
  rw [wellFormed_iff]
  constructor
  · rintro ⟨characters, h, rfl⟩
    induction characters with
    | nil => exact ⟨[], List.forall_mem_nil _, rfl⟩
    | cons c characters ih =>
      obtain ⟨hc, hrest⟩ := List.forall_mem_cons.mp h
      obtain ⟨n, hn, rfl⟩ := isCharacter_iff.mp hc
      obtain ⟨points, hpoints, heq⟩ := ih hrest
      exact ⟨n :: points, List.forall_mem_cons.mpr ⟨hn, hpoints⟩,
        by rw [List.flatMap_cons, heq, List.flatten_cons]⟩
  · rintro ⟨points, h, rfl⟩
    refine ⟨points.map encode, fun c hc => ?_, List.flatMap_def.symm⟩
    obtain ⟨n, hn, rfl⟩ := List.mem_map.mp hc
    exact isCharacter_iff.mpr ⟨n, h n hn, rfl⟩

/-- A well-formed beginning changes nothing. -/
theorem wellFormed_append {s : Text} (h : wellFormed s = true) (t : Text) :
    wellFormed (s ++ t) = wellFormed t := by
  obtain ⟨characters, hcharacters, rfl⟩ := wellFormed_iff.mp h
  clear h
  induction characters with
  | nil => rfl
  | cons c characters ih =>
    obtain ⟨hc, hrest⟩ := List.forall_mem_cons.mp hcharacters
    rw [List.flatten_cons, List.append_assoc, wellFormed_character hc, ih hrest]

theorem isCharacter_ascii {a : UInt8} (h : a.toNat < 0x80) : IsCharacter [a] :=
  isCharacter_iff_shape.mpr (.one h)

/-- An octet below `0x80` in front changes nothing. -/
theorem wellFormed_ascii {a : UInt8} (h : a.toNat < 0x80) (t : Text) :
    wellFormed (a :: t) = wellFormed t :=
  wellFormed_character (isCharacter_ascii h) t

/-- An octet below `0x80` is a character only by itself. -/
theorem eq_singleton_of_ascii {octets : Text} (h : IsCharacter octets) {a : UInt8} (ha : a ∈ octets)
    (hascii : a.toNat < 0x80) : octets = [a] := by
  cases isCharacter_iff_shape.mp h with
  | one => rw [List.mem_singleton.mp ha]
  | two h1 h2 hb =>
    unfold IsTail at hb
    simp only [List.mem_cons, List.not_mem_nil, or_false] at ha
    obtain rfl | rfl := ha <;> omega
  | three h1 h2 h3 h4 hb hc =>
    unfold IsTail at hb hc
    simp only [List.mem_cons, List.not_mem_nil, or_false] at ha
    obtain rfl | rfl | rfl := ha <;> omega
  | four h1 h2 h3 h4 hb hc hd =>
    unfold IsTail at hb hc hd
    simp only [List.mem_cons, List.not_mem_nil, or_false] at ha
    obtain rfl | rfl | rfl | rfl := ha <;> omega

/-- **A text may be split at an octet below `0x80`.** -/
theorem wellFormed_split {s t : Text} {a : UInt8} (ha : a.toNat < 0x80) :
    wellFormed (s ++ a :: t) = true ↔ wellFormed s = true ∧ wellFormed t = true := by
  constructor
  · intro h
    obtain ⟨characters, hcharacters, heq⟩ := wellFormed_iff.mp h
    induction characters generalizing s with
    | nil => simp at heq
    | cons c characters ih =>
      obtain ⟨hc, hrest⟩ := List.forall_mem_cons.mp hcharacters
      rw [List.flatten_cons] at heq
      obtain ⟨more, rfl, hmore⟩ | ⟨more, hc', hmore⟩ := List.append_eq_append_iff.mp heq
      · -- the first character stands in front of the octet
        rw [List.append_assoc, wellFormed_character hc] at h
        obtain ⟨hs, ht⟩ := ih h hrest hmore
        rw [wellFormed_character hc]
        exact ⟨hs, ht⟩
      · cases more with
        | nil =>
          rw [List.append_nil] at hc'
          subst hc'
          have hs : wellFormed (c ++ []) = true := by rw [wellFormed_character hc, wellFormed_nil]
          rw [List.append_nil] at hs
          rw [wellFormed_append hs, wellFormed_ascii ha] at h
          exact ⟨hs, h⟩
        | cons a' more =>
          -- the octet is the first character
          obtain ⟨rfl, rfl⟩ := List.cons.inj hmore
          have hsingle := eq_singleton_of_ascii hc (a := a) (by simp [hc']) ha
          obtain ⟨rfl, -⟩ : s = [] ∧ _ := by simpa [hsingle, List.cons_eq_append_iff] using hc'
          rw [List.nil_append, wellFormed_ascii ha] at h
          exact ⟨wellFormed_nil, h⟩
  · rintro ⟨hs, ht⟩
    rw [wellFormed_append hs, wellFormed_ascii ha, ht]

/-! ### ASCII and surrogates -/

/-- All octets are below `0x80`. -/
def IsAscii (t : Text) : Prop := ∀ c ∈ t, c.toNat < 0x80

instance (t : Text) : Decidable (IsAscii t) :=
  inferInstanceAs (Decidable (∀ c ∈ t, c.toNat < 0x80))

/-- What is below `0x80` changes nothing in front. -/
theorem IsAscii.wellFormed_append {s : Text} (h : IsAscii s) (t : Text) :
    wellFormed (s ++ t) = wellFormed t := by
  refine Utf8.wellFormed_append (wellFormed_iff.mpr ⟨s.map ([·]), fun c hc => ?_, ?_⟩) t
  · obtain ⟨a, ha, rfl⟩ := List.mem_map.mp hc
    exact isCharacter_ascii (h a ha)
  · rw [← List.flatMap_def, List.flatMap_singleton']

/-- **No text that starts with the octets of a surrogate is well-formed.** -/
theorem wellFormed_encode_surrogate {n : Nat} (h : IsSurrogate n) (t : Text) :
    wellFormed (encode n ++ t) = false := by
  obtain ⟨hlow, hhigh⟩ := h
  have hlead : (0xE0 + n / 0x1000).toUInt8 = 0xED := toUInt8_eq (by simp; omega)
  have hnext : 0xA0 ≤ (0x80 + n / 0x40 % 0x40).toUInt8.toNat := by
    rw [toNat_toUInt8 (by omega)]
    omega
  rw [encode, if_neg (by omega), if_neg (by omega), if_pos (by omega), hlead]
  rw [List.cons_append, wellFormed_cons, Bool.and_eq_false_iff]
  left
  have hrange : ¬ (0x80 ≤ (0x80 + n / 0x40 % 0x40).toUInt8 ∧
      (0x80 + n / 0x40 % 0x40).toUInt8 ≤ 0x9F) := by
    simp only [UInt8.le_iff_toNat_le, UInt8.reduceToNat]
    omega
  have hpiece : ∀ more, pieceAt 0xED ((0x80 + n / 0x40 % 0x40).toUInt8 :: more) = .stray [0xED] := by
    intro more
    unfold pieceAt
    rw [show lead? 0xED = some (2, 0x80, 0x9F) by decide]
    simp only [continuation, if_neg hrange]
    rfl
  rw [List.cons_append, hpiece]

end QueryCompiler.Utf8
