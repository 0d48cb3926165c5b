import QueryCompiler.Proofs.Text.Characters

/-!
# Ill-formed runs

Where no character stands at the front of a text, the longest run there that begins some character is
ill-formed, or a single octet if there is none (`IsStray`). `Sanitises` replaces these runs one after
the other and keeps the characters between them, and that is what sanitising does (`sanitises_iff`).
-/

namespace QueryCompiler.Utf8

/-- The octets begin a character and do not end it. -/
def Begins (t : Text) : Prop := ∃ n, IsScalar n ∧ t <+: encode n ∧ t ≠ encode n

/-- The run is ill-formed in front of the rest, and as long as it can be. -/
structure IsStray (run rest : Text) : Prop where
  ne_nil : run ≠ []
  noCharacter : ∀ n, IsScalar n → ¬ encode n <+: run ++ rest
  begins : run.length ≠ 1 → Begins run
  longest : ∀ longer, longer <+: run ++ rest → Begins longer → longer.length ≤ run.length

/-- Characters are kept, and every ill-formed run is replaced. -/
inductive Sanitises : Text → Text → Prop
  | nil : Sanitises [] []
  | character {n : Nat} {t sanitised : Text} : IsScalar n → Sanitises t sanitised →
    Sanitises (encode n ++ t) (encode n ++ sanitised)
  | stray {run t sanitised : Text} : IsStray run t → Sanitises t sanitised →
    Sanitises (run ++ t) (replacement ++ sanitised)

/-! ### What begins a character -/

theorem isTail_of_mem_continuation {b : UInt8} : ∀ {n : Nat} {t : Text},
    b ∈ continuation n 0x80 0xBF t → IsTail b
  | 0, _, h => by simp [continuation] at h
  | n + 1, [], h => by simp [continuation] at h
  | n + 1, c :: t, h => by
    rw [continuation] at h
    split_ifs at h with hc
    · obtain rfl | h := List.mem_cons.mp h
      · simp only [UInt8.le_iff_toNat_le, UInt8.reduceToNat] at hc
        exact ⟨hc.1, by omega⟩
      · exact isTail_of_mem_continuation h
    · cases h

theorem continuation_tails : ∀ {n : Nat} {t : Text}, t.length = n → (∀ b ∈ t, IsTail b) →
    continuation n 0x80 0xBF t = t
  | _, [], rfl, _ => rfl
  | _, b :: t, rfl, h => by
    obtain ⟨hb, ht⟩ := List.forall_mem_cons.mp h
    rw [List.length_cons, continuation_tail hb, continuation_tails rfl ht]

/-- A continuation is at most as long as it is asked for. -/
theorem length_continuation_le : ∀ {n : Nat} {low high : UInt8} {t : Text},
    (continuation n low high t).length ≤ n
  | 0, _, _, _ => by simp [continuation]
  | n + 1, _, _, [] => by simp [continuation]
  | n + 1, low, high, c :: t => by
    rw [continuation]
    split_ifs
    · exact Nat.succ_le_succ length_continuation_le
    · exact Nat.zero_le _

/-- A continuation that is not empty goes on up to its end with tails. -/
theorem exists_continuation {n : Nat} {low high : UInt8} {t : Text}
    (h : continuation n low high t ≠ []) : ∃ tails,
      (continuation n low high t ++ tails).length = n ∧
        continuation n low high (continuation n low high t ++ tails) =
          continuation n low high t ++ tails := by
  cases n with
  | zero => exact absurd (by simp [continuation]) h
  | succ n =>
    cases t with
    | nil => exact absurd (by simp [continuation]) h
    | cons c t =>
      rw [continuation] at h ⊢
      by_cases hc : low ≤ c ∧ c ≤ high
      · rw [if_pos hc]
        have hle : (continuation n 0x80 0xBF t).length ≤ n := length_continuation_le
        let tails : Text := List.replicate (n - (continuation n 0x80 0xBF t).length) 0x80
        have hlen : (continuation n 0x80 0xBF t ++ tails).length = n := by
          rw [List.length_append, List.length_replicate]
          omega
        have htails : ∀ b ∈ continuation n 0x80 0xBF t ++ tails, IsTail b := by
          intro b hb
          obtain hb | hb := List.mem_append.mp hb
          · exact isTail_of_mem_continuation hb
          · rw [List.eq_of_mem_replicate hb]
            exact ⟨Nat.le_refl _, by decide⟩
        refine ⟨tails, congrArg (· + 1) hlen, ?_⟩
        rw [List.cons_append, continuation_cons hc, continuation_tails hlen htails]
      · rw [if_neg hc] at h
        exact absurd rfl h

/-- A continuation takes all that it has in common with one that is kept whole. -/
theorem prefix_continuation : ∀ {more : Text} {n : Nat} {low high : UInt8} {full t : Text},
    continuation n low high full = full → more <+: full → more <+: t →
      more <+: continuation n low high t
  | [], _, _, _, _, _, _, _, _ => List.nil_prefix
  | b :: more, n, low, high, full, t, hfull, hmore, ht => by
    obtain ⟨after, rfl⟩ := hmore
    obtain ⟨rest, rfl⟩ := ht
    rw [List.cons_append] at hfull ⊢
    cases n with
    | zero => simp [continuation] at hfull
    | succ n =>
      rw [continuation] at hfull ⊢
      split_ifs at hfull ⊢ with hb
      exact (List.prefix_cons_inj b).mpr (prefix_continuation (List.cons.inj hfull).2
        (List.prefix_append _ _) (List.prefix_append _ _))

/-- The octets begin a character as far as they go. -/
theorem Begins.lead? {a : UInt8} {more : Text} (h : Begins (a :: more)) : ∃ n low high full,
    lead? a = some (n, low, high) ∧ continuation n low high full = full ∧ more <+: full := by
  obtain ⟨m, hm, ⟨after, heq⟩, -⟩ := h
  obtain ⟨_, _, hcons, hpiece⟩ := isCharacter_iff.mpr ⟨m, hm, heq.symm⟩
  obtain ⟨rfl, rfl⟩ := List.cons.inj hcons
  have hfull := hpiece []
  rw [List.append_nil] at hfull
  obtain ⟨n, low, high, hlead, -, hcontinuation⟩ := pieceAt_eq_character.mp hfull
  exact ⟨n, low, high, _, hlead, hcontinuation, List.prefix_append _ _⟩

/-! ### Strays -/

/-- A stray is an octet that leads nothing, or what goes on with it, which is too little. -/
theorem eq_of_pieceAt_stray {a : UInt8} {t more : Text} (h : pieceAt a t = .stray (a :: more)) :
    (lead? a = none ∧ more = []) ∨ ∃ n low high, lead? a = some (n, low, high) ∧
      continuation n low high t = more ∧ more.length ≠ n := by
  unfold pieceAt at h
  cases hl : lead? a with
  | none =>
    rw [hl] at h
    exact Or.inl ⟨rfl, (List.cons.inj (Piece.stray.inj h)).2.symm⟩
  | some l =>
    obtain ⟨n, low, high⟩ := l
    rw [hl] at h
    simp only at h
    split_ifs at h with hlen
    obtain rfl := (List.cons.inj (Piece.stray.inj h)).2
    exact Or.inr ⟨n, low, high, rfl, rfl, hlen⟩

/-- **What is cut off as a stray is a maximal ill-formed run.** -/
theorem isStray_of_pieceAt {a : UInt8} {t run : Text} (h : pieceAt a t = .stray run) :
    ∃ rest, run ++ rest = a :: t ∧ IsStray run rest := by
  obtain ⟨more, hrun, rest, hrest⟩ := octets_pieceAt a t
  rw [h] at hrun
  obtain rfl : run = a :: more := hrun
  have hwhole : a :: more ++ rest = a :: t := congrArg (a :: ·) hrest
  have hcases := eq_of_pieceAt_stray h
  refine ⟨rest, hwhole, ⟨List.cons_ne_nil _ _, fun n hn hprefix => ?_, fun hne => ?_,
    fun longer hlonger hbegins => ?_⟩⟩
  · -- a character would have been cut off instead
    rw [hwhole] at hprefix
    obtain ⟨after, hafter⟩ := hprefix
    obtain ⟨_, _, hcons, hpiece⟩ := isCharacter_iff.mpr ⟨n, hn, rfl⟩
    rw [hcons] at hafter
    obtain ⟨rfl, rfl⟩ := List.cons.inj hafter
    cases h.symm.trans (hpiece after)
  · -- with more tails the run is a character
    obtain ⟨-, rfl⟩ | ⟨n, low, high, hlead, rfl, hlen⟩ := hcases
    · exact absurd rfl hne
    · have hnil : continuation n low high t ≠ [] := fun hnil => hne (by rw [hnil]; rfl)
      obtain ⟨tails, htails, hwhole⟩ := exists_continuation hnil
      have hcharacter := isCharacter_of_pieceAt (pieceAt_of_lead? hlead htails hwhole)
      obtain ⟨m, hm, heq⟩ := isCharacter_iff.mp hcharacter
      refine ⟨m, hm, ⟨tails, heq.symm⟩, fun hself => hlen ?_⟩
      rw [heq] at hself
      rw [← (List.cons.inj hself).2] at htails
      exact htails
  · cases longer with
    | nil => exact Nat.zero_le _
    | cons b longer =>
      rw [hwhole] at hlonger
      obtain ⟨rfl, hmore⟩ := List.cons_prefix_cons.mp hlonger
      obtain ⟨n', low', high', full, hlead', hfull, hprefix⟩ := hbegins.lead?
      obtain ⟨hlead, -⟩ | ⟨n, low, high, hlead, rfl, -⟩ := hcases
      · cases hlead.symm.trans hlead'
      · cases hlead.symm.trans hlead'
        exact Nat.succ_le_succ (prefix_continuation hfull hprefix hmore).length_le

theorem IsStray.length_le {run rest run' rest' : Text} (h : IsStray run rest)
    (h' : IsStray run' rest') (heq : run ++ rest = run' ++ rest') : run.length ≤ run'.length := by
  by_cases hone : run.length = 1
  · rw [hone]
    exact List.length_pos_iff.mpr h'.ne_nil
  · exact h'.longest run (heq ▸ List.prefix_append _ _) (h.begins hone)

/-- The run at the front of a text is cut off as a stray. -/
theorem IsStray.pieceAt {a : UInt8} {more rest : Text} (h : IsStray (a :: more) rest) :
    pieceAt a (more ++ rest) = .stray (a :: more) := by
  cases hpiece : Utf8.pieceAt a (more ++ rest) with
  | character octets =>
    obtain ⟨n, hn, rfl⟩ := isCharacter_iff.mp (isCharacter_of_pieceAt hpiece)
    obtain ⟨more', hoctets, hprefix⟩ := octets_pieceAt a (more ++ rest)
    rw [hpiece] at hoctets
    refine absurd ?_ (h.noCharacter n hn)
    rw [show encode n = a :: more' from hoctets, List.cons_append]
    exact (List.prefix_cons_inj a).mpr hprefix
  | stray run =>
    obtain ⟨rest', hwhole, hrun⟩ := isStray_of_pieceAt hpiece
    rw [← List.cons_append] at hwhole
    have hlen := Nat.le_antisymm (hrun.length_le h hwhole) (h.length_le hrun hwhole.symm)
    rw [(List.append_inj hwhole hlen).1]

/-- **Sanitising keeps the characters and replaces every maximal ill-formed run**, and that decides
what comes out. -/
theorem sanitises_iff {t sanitised : Text} : Sanitises t sanitised ↔ sanitise t = sanitised := by
  constructor
  · intro h
    induction h with
    | nil => simp [sanitise, pieces]
    | @character n t _ hn _ ih =>
      rw [sanitise_character (isCharacter_iff.mpr ⟨n, hn, rfl⟩), ih]
    | @stray run t _ hrun _ ih =>
      obtain ⟨a, more, rfl⟩ := List.exists_cons_of_ne_nil hrun.ne_nil
      rw [sanitise] at ih
      rw [sanitise, List.cons_append, pieces, hrun.pieceAt, List.flatMap_cons]
      simp only [Piece.octets, List.length_cons, Nat.add_sub_cancel, List.drop_left, ih]
  · rintro rfl
    fun_induction pieces t with
    | case1 =>
      rw [sanitise, pieces]
      exact .nil
    | case2 a rest ih =>
      obtain ⟨more, hmore, after, rfl⟩ := octets_pieceAt a rest
      rw [sanitise, pieces, List.flatMap_cons]
      rw [hmore, List.length_cons, Nat.add_sub_cancel, List.drop_left] at ih ⊢
      rw [← List.cons_append]
      cases hpiece : pieceAt a (more ++ after) with
      | character octets =>
        rw [hpiece] at hmore
        obtain rfl : octets = a :: more := hmore
        obtain ⟨n, hn, heq⟩ := isCharacter_iff.mp (isCharacter_of_pieceAt hpiece)
        rw [← heq]
        exact .character hn ih
      | stray run =>
        obtain ⟨after', hwhole, hrun⟩ := isStray_of_pieceAt hpiece
        rw [hpiece] at hmore
        obtain rfl : run = a :: more := hmore
        obtain rfl : after' = after := List.append_cancel_left hwhole
        exact .stray hrun ih

end QueryCompiler.Utf8
