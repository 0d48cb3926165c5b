import QueryCompiler.Text.Block
import Mathlib.Data.List.DropRight
import Mathlib.Tactic.SplitIfs

/-!
# The layout of a block of lines

The value of a block does not depend on how its lines end or on how far all of them but the first are
indented.

* `join_cons`: lines put together, as the first line and what each further line adds. Parts that are
  empty are left out of what is put together (`joinNonEmpty_concat`).
* `lines_join`: whichever terminator is used, the lines are found again.
* `commonIndentation_map`: more indentation is more common indentation, so the lines that are left
  when it is removed are the same (`trimBlankLines_dedentLines`). If all lines but the first are blank,
  there is no common indentation, and they are trimmed (`trimBlankLines_of_blank`).
* `dedent_join`: so the value of a block is the same, and its first and last line are not blank
  (`isTrimmed_dedent`).
-/

namespace QueryCompiler.Text

/-! ### Lines put together -/

/-- The text is all in one line. -/
def IsLine (line : Text) : Prop := ∀ c ∈ line, Octet.isLineTerminator c = false

instance (line : Text) : Decidable (IsLine line) :=
  List.decidableBAll (fun c => Octet.isLineTerminator c = false) line

theorem IsLine.not_mem {line : Text} (h : IsLine line) {c : UInt8}
    (hc : Octet.isLineTerminator c = true) : c ∉ line := by
  intro hm
  rw [h c hm] at hc
  cases hc

/-- A line feed, a carriage return, or the two in this order. -/
def lineEndings : List Text := [[Octet.lf], [Octet.cr], [Octet.cr, Octet.lf]]

theorem join_cons_cons (separator first second : Text) (rest : List Text) :
    join separator (first :: second :: rest) =
      first ++ (separator ++ join separator (second :: rest)) := rfl

theorem join_cons (separator first : Text) (rest : List Text) :
    join separator (first :: rest) = first ++ rest.flatMap (separator ++ ·) := by
  induction rest generalizing first with
  | nil => exact (List.append_nil first).symm
  | cons second rest ih =>
    rw [join_cons_cons, ih, List.flatMap_cons, List.append_assoc]

theorem join_append {separator : Text} {parts parts' : List Text} (h : parts ≠ [])
    (h' : parts' ≠ []) :
    join separator (parts ++ parts') =
      join separator parts ++ (separator ++ join separator parts') := by
  obtain ⟨first, rest, rfl⟩ := List.exists_cons_of_ne_nil h
  obtain ⟨first', rest', rfl⟩ := List.exists_cons_of_ne_nil h'
  rw [List.cons_append, join_cons, join_cons, join_cons, List.flatMap_append, List.flatMap_cons]
  simp only [List.append_assoc]

theorem join_ne_nil {separator first : Text} {rest : List Text} (h : first ≠ []) :
    join separator (first :: rest) ≠ [] := by
  rw [join_cons]
  exact List.append_ne_nil_of_left_ne_nil h _

theorem not_mem_join {c : UInt8} {separator : Text} {parts : List Text} (hs : c ∉ separator)
    (hparts : ∀ part ∈ parts, c ∉ part) : c ∉ join separator parts := by
  cases parts with
  | nil => exact List.not_mem_nil
  | cons first rest =>
    obtain ⟨hfirst, hrest⟩ := List.forall_mem_cons.mp hparts
    rw [join_cons, List.mem_append, List.mem_flatMap]
    rintro (h | ⟨part, hp, h⟩)
    · exact hfirst h
    · exact (List.mem_append.mp h).elim hs (hrest part hp)

/-! ### Parts that may be empty -/

theorem joinNonEmpty_eq_join {separator : Text} {parts : List Text} (h : ∀ part ∈ parts, part ≠ []) :
    joinNonEmpty separator parts = join separator parts :=
  congrArg (join separator) (List.filter_eq_self.mpr fun part hpart => by simpa using h part hpart)

theorem joinNonEmpty_ne_nil {separator first : Text} {rest : List Text} (h : first ≠ []) :
    joinNonEmpty separator (first :: rest) ≠ [] := by
  rw [joinNonEmpty, List.filter_cons_of_pos (by simpa using h)]
  exact join_ne_nil h

/-- One more part after others. -/
theorem joinNonEmpty_concat {separator : Text} {parts : List Text}
    (h : joinNonEmpty separator parts ≠ []) (part : Text) :
    joinNonEmpty separator (parts ++ [part]) =
      joinNonEmpty separator parts ++ wrap separator part [] := by
  have hparts : (parts.filter fun part => !part.isEmpty) ≠ [] := fun hnil =>
    h (congrArg (join separator) hnil)
  rw [joinNonEmpty, List.filter_append]
  cases part with
  | nil => simp [joinNonEmpty]
  | cons c t =>
    rw [List.filter_singleton]
    refine (join_append hparts (List.cons_ne_nil _ _)).trans ?_
    simp [joinNonEmpty, wrap, join]

/-! ### The lines of a text -/

theorem dropPairedReturns_cons (c : UInt8) (t : Text) : dropPairedReturns (c :: t) =
    if c = Octet.cr ∧ t.head? = some Octet.lf then dropPairedReturns t
    else c :: dropPairedReturns t := by
  have hkeep : ∀ d, ¬ (c = Octet.cr ∧ d = Octet.lf) →
      (!(c == Octet.cr && d == Octet.lf)) = true := by
    intro d h
    rwa [Bool.not_eq_true', ← Bool.not_eq_true, Bool.and_eq_true, beq_iff_eq, beq_iff_eq]
  cases t with
  | nil =>
    rw [if_neg fun h => by cases h.2]
    exact congrArg (List.map Prod.fst) (List.filter_cons_of_pos (hkeep 0 fun h => by cases h.2))
  | cons d t =>
    simp only [dropPairedReturns, List.tail_cons, List.cons_append, List.zip_cons_cons,
      List.filter_cons, List.head?_cons, Option.some.injEq]
    by_cases h : c = Octet.cr ∧ d = Octet.lf
    · simp [h]
    · rw [if_neg h, if_pos (hkeep d h)]
      rfl

/-- Without line feeds, or without carriage returns, none of these stands before one of those. -/
theorem dropPairedReturns_eq_self {t : Text} (h : Octet.cr ∉ t ∨ Octet.lf ∉ t) :
    dropPairedReturns t = t := by
  induction t with
  | nil => rfl
  | cons c t ih =>
    have hrest : Octet.cr ∉ t ∨ Octet.lf ∉ t :=
      h.imp (fun h hm => h (List.mem_cons_of_mem _ hm)) fun h hm => h (List.mem_cons_of_mem _ hm)
    rw [dropPairedReturns_cons, if_neg, ih hrest]
    rintro ⟨rfl, hlf⟩
    exact h.elim (fun h => h List.mem_cons_self)
      fun h => h (List.mem_cons_of_mem _ (List.mem_of_head? hlf))

theorem dropPairedReturns_append {line : Text} (h : Octet.cr ∉ line) (t : Text) :
    dropPairedReturns (line ++ t) = line ++ dropPairedReturns t := by
  induction line with
  | nil => rfl
  | cons c line ih =>
    rw [List.mem_cons, not_or] at h
    rw [List.cons_append, dropPairedReturns_cons, if_neg fun hc => h.1 hc.1.symm, ih h.2,
      List.cons_append]

theorem dropPairedReturns_flatMap {rest : List Text} (h : ∀ line ∈ rest, Octet.cr ∉ line) :
    dropPairedReturns (rest.flatMap ([Octet.cr, Octet.lf] ++ ·)) =
      rest.flatMap ([Octet.lf] ++ ·) := by
  induction rest with
  | nil => rfl
  | cons line rest ih =>
    obtain ⟨hline, hrest⟩ := List.forall_mem_cons.mp h
    rw [List.flatMap_cons, List.flatMap_cons, ← ih hrest]
    simp only [List.cons_append, List.nil_append]
    rw [dropPairedReturns_cons, if_pos ⟨rfl, rfl⟩, dropPairedReturns_cons,
      if_neg fun hc => absurd hc.1 (by decide), dropPairedReturns_append hline]

/-- Whatever ends the lines, one octet is left of it. -/
theorem dropPairedReturns_join {block : List Text} (h : ∀ line ∈ block, IsLine line) {ending : Text}
    (he : ending ∈ lineEndings) : ∃ e, Octet.isLineTerminator e = true ∧
      dropPairedReturns (join ending block) = join [e] block := by
  have hcr : ∀ line ∈ block, Octet.cr ∉ line := fun line hl => (h line hl).not_mem (by decide)
  have hlf : ∀ line ∈ block, Octet.lf ∉ line := fun line hl => (h line hl).not_mem (by decide)
  rw [lineEndings, List.mem_cons, List.mem_cons, List.mem_singleton] at he
  rcases he with rfl | rfl | rfl
  · exact ⟨Octet.lf, by decide,
      dropPairedReturns_eq_self (Or.inl (not_mem_join (by decide) hcr))⟩
  · exact ⟨Octet.cr, by decide,
      dropPairedReturns_eq_self (Or.inr (not_mem_join (by decide) hlf))⟩
  · refine ⟨Octet.lf, by decide, ?_⟩
    cases block with
    | nil => rfl
    | cons first rest =>
      obtain ⟨hfirst, hrest⟩ := List.forall_mem_cons.mp hcr
      rw [join_cons, join_cons, dropPairedReturns_append hfirst, dropPairedReturns_flatMap hrest]

theorem foldr_consToLines {line : Text} (h : IsLine line) (first : Text) (rest : List Text) :
    line.foldr consToLines (first :: rest) = (line ++ first) :: rest := by
  induction line with
  | nil => rfl
  | cons c line ih =>
    obtain ⟨hc, hline⟩ := List.forall_mem_cons.mp h
    rw [List.foldr_cons, ih hline, consToLines, if_neg (by rw [hc]; exact Bool.false_ne_true),
      List.cons_append]

theorem foldr_consToLines_join {e : UInt8} (he : Octet.isLineTerminator e = true) {first : Text}
    {rest : List Text} (hfirst : IsLine first) (hrest : ∀ line ∈ rest, IsLine line) :
    (join [e] (first :: rest)).foldr consToLines [[]] = first :: rest := by
  induction rest generalizing first with
  | nil => rw [join, foldr_consToLines hfirst, List.append_nil]
  | cons second rest ih =>
    obtain ⟨hsecond, hrest⟩ := List.forall_mem_cons.mp hrest
    rw [join_cons_cons, List.foldr_append, List.singleton_append, List.foldr_cons,
      ih hsecond hrest, consToLines, if_pos he, foldr_consToLines hfirst, List.append_nil]

/-- **The lines that were put together are found again**, whichever terminator was used. -/
theorem lines_join {block : List Text} (hne : block ≠ []) (h : ∀ line ∈ block, IsLine line)
    {ending : Text} (he : ending ∈ lineEndings) : lines (join ending block) = block := by
  obtain ⟨first, rest, rfl⟩ := List.exists_cons_of_ne_nil hne
  obtain ⟨hfirst, hrest⟩ := List.forall_mem_cons.mp h
  obtain ⟨e, hterminator, hjoin⟩ := dropPairedReturns_join h he
  rw [lines, hjoin, foldr_consToLines_join hterminator hfirst hrest]

theorem isLine_of_mem_lines {t line : Text} (h : line ∈ lines t) : IsLine line := by
  unfold lines at h
  generalize dropPairedReturns t = octets at h
  induction octets generalizing line with
  | nil =>
    obtain rfl := List.mem_singleton.mp h
    exact fun c hc => absurd hc List.not_mem_nil
  | cons c t ih =>
    rw [List.foldr_cons, consToLines.eq_def] at h
    split_ifs at h with hc
    · rcases List.mem_cons.mp h with rfl | h
      · exact fun c hc => absurd hc List.not_mem_nil
      · exact ih h
    · have hc : Octet.isLineTerminator c = false := Bool.eq_false_iff.mpr hc
      have hcons : ∀ {line : Text}, IsLine line → IsLine (c :: line) := fun hl =>
        List.forall_mem_cons.mpr ⟨hc, hl⟩
      split at h
      · obtain rfl := List.mem_singleton.mp h
        exact hcons fun c hc => absurd hc List.not_mem_nil
      · rename_i first rest he
        rcases List.mem_cons.mp h with rfl | h
        · exact hcons (ih (by rw [he]; exact List.mem_cons_self))
        · exact ih (by rw [he]; exact List.mem_cons_of_mem _ h)

/-! ### Indentation -/

/-- A block with a text in front of all lines but the first. -/
def indentRest (w : Text) : List Text → List Text
  | [] => []
  | first :: rest => first :: rest.map (w ++ ·)

@[simp] theorem indentRest_nil (block : List Text) : indentRest [] block = block := by
  cases block with
  | nil => rfl
  | cons first rest => simp [indentRest]

/-- Indentation may as well be a part of what ends the lines. -/
theorem join_indentRest {ending w : Text} (block : List Text) :
    join ending (indentRest w block) = join (ending ++ w) block := by
  cases block with
  | nil => rfl
  | cons first rest =>
    rw [indentRest, join_cons, join_cons, List.flatMap_map]
    simp only [List.append_assoc]

theorem indentRest_ne_nil {w : Text} {block : List Text} (h : block ≠ []) :
    indentRest w block ≠ [] := by
  obtain ⟨first, rest, rfl⟩ := List.exists_cons_of_ne_nil h
  exact List.cons_ne_nil _ _

section Indentation
variable {w : Text}

theorem IsLine.append {line line' : Text} (h : IsLine line) (h' : IsLine line') :
    IsLine (line ++ line') :=
  fun c hc => (List.mem_append.mp hc).elim (h c) (h' c)

theorem isLine_of_isBlankLine (hw : isBlankLine w = true) : IsLine w := by
  intro c hc
  have hblank := List.all_eq_true.mp hw c hc
  simp only [Octet.isBlank, Bool.or_eq_true, beq_iff_eq] at hblank
  rcases hblank with rfl | rfl <;> decide

theorem isLine_indentRest (hw : isBlankLine w = true) {block : List Text}
    (h : ∀ line ∈ block, IsLine line) : ∀ line ∈ indentRest w block, IsLine line := by
  cases block with
  | nil => exact h
  | cons first rest =>
    obtain ⟨hfirst, hrest⟩ := List.forall_mem_cons.mp h
    refine List.forall_mem_cons.mpr ⟨hfirst, fun line hline => ?_⟩
    obtain ⟨bare, hbare, rfl⟩ := List.mem_map.mp hline
    exact (isLine_of_isBlankLine hw).append (hrest bare hbare)

theorem isBlankLine_append (hw : isBlankLine w = true) (line : Text) :
    isBlankLine (w ++ line) = isBlankLine line := by
  rw [isBlankLine, List.all_append, show w.all Octet.isBlank = true from hw, Bool.true_and,
    isBlankLine]

theorem indentation_append (hw : isBlankLine w = true) (line : Text) :
    indentation (w ++ line) = w.length + indentation line := by
  rw [indentation, List.takeWhile_append_of_pos (List.all_eq_true.mp hw), List.length_append,
    indentation]

theorem min?_map_add (k : Nat) (sizes : List Nat) :
    (sizes.map (k + ·)).min? = sizes.min?.map (k + ·) := by
  cases h : sizes.min? with
  | none =>
    rw [List.min?_eq_none_iff] at h
    rw [h]
    rfl
  | some n =>
    obtain ⟨hn, hle⟩ := List.min?_eq_some_iff.mp h
    refine List.min?_eq_some_iff.mpr ⟨List.mem_map_of_mem hn, fun m hm => ?_⟩
    obtain ⟨size, hs, rfl⟩ := List.mem_map.mp hm
    exact Nat.add_le_add_left (hle size hs) k

/-- **More indentation is more common indentation.** -/
theorem commonIndentation_map (hw : isBlankLine w = true) (rest : List Text) :
    commonIndentation (rest.map (w ++ ·)) = (commonIndentation rest).map (w.length + ·) := by
  rw [commonIndentation, commonIndentation, ← min?_map_add, List.filter_map, List.map_map,
    List.map_map]
  have hblank : ((fun line => !isBlankLine line) ∘ fun line => w ++ line) =
      fun line => !isBlankLine line := funext fun line => by
    rw [Function.comp_apply, isBlankLine_append hw]
  have hsize : indentation ∘ (fun line => w ++ line) = (fun n => w.length + n) ∘ indentation :=
    funext fun line => indentation_append hw line
  rw [hblank, hsize]

theorem commonIndentation_eq_none {rest : List Text} :
    commonIndentation rest = none ↔ ∀ line ∈ rest, isBlankLine line = true := by
  rw [commonIndentation, List.min?_eq_none_iff, List.map_eq_nil_iff, List.filter_eq_nil_iff]
  simp only [Bool.not_eq_true', Bool.not_eq_false]

end Indentation

/-! ### Trimming -/

theorem trimBlankLines_eq (block : List Text) :
    trimBlankLines block = (block.dropWhile isBlankLine).rdropWhile isBlankLine := rfl

/-- Blank lines after the first are trimmed, if no other lines come after it. -/
theorem trimBlankLines_of_blank {first : Text} {rest : List Text}
    (h : ∀ line ∈ rest, isBlankLine line = true) :
    trimBlankLines (first :: rest) = trimBlankLines [first] := by
  have hrest : rest.dropWhile isBlankLine = [] := List.dropWhile_eq_nil_iff.mpr h
  rw [trimBlankLines_eq, trimBlankLines_eq]
  by_cases hfirst : isBlankLine first = true
  · rw [List.dropWhile_cons_of_pos hfirst, List.dropWhile_cons_of_pos hfirst, hrest,
      List.dropWhile_nil]
  · rw [List.dropWhile_cons_of_neg hfirst, List.dropWhile_cons_of_neg hfirst, List.rdropWhile,
      List.rdropWhile, List.reverse_cons,
      List.dropWhile_append_of_pos fun line hl => h line (List.mem_reverse.mp hl)]
    rfl

/-- **The lines of the value do not depend on the indentation.** -/
theorem trimBlankLines_dedentLines {w : Text} (hw : isBlankLine w = true) (block : List Text) :
    trimBlankLines (dedentLines (indentRest w block)) = trimBlankLines (dedentLines block) := by
  cases block with
  | nil => rfl
  | cons first rest =>
    rw [indentRest, dedentLines, dedentLines, commonIndentation_map hw]
    cases hc : commonIndentation rest with
    | none =>
      -- nothing is removed, but all lines after the first are blank
      have hblank := commonIndentation_eq_none.mp hc
      have hblank' : ∀ line ∈ rest.map (w ++ ·), isBlankLine line = true := by
        intro line hline
        obtain ⟨bare, hbare, rfl⟩ := List.mem_map.mp hline
        rw [isBlankLine_append hw]
        exact hblank bare hbare
      exact (trimBlankLines_of_blank hblank').trans (trimBlankLines_of_blank hblank).symm
    | some n =>
      have hdrop : (rest.map (w ++ ·)).map (List.drop (w.length + n)) = rest.map (List.drop n) := by
        rw [List.map_map]
        exact List.map_congr_left fun line _ => List.drop_length_add_append n
      show trimBlankLines (first :: (rest.map (w ++ ·)).map (List.drop (w.length + n))) = _
      rw [hdrop]

/-! ### The lines of a value -/

theorem mem_dedentLines {block : List Text} (h : ∀ line ∈ block, IsLine line) :
    ∀ line ∈ dedentLines block, IsLine line := by
  cases block with
  | nil => exact h
  | cons first rest =>
    rw [dedentLines]
    split
    · exact h
    · obtain ⟨hfirst, hrest⟩ := List.forall_mem_cons.mp h
      refine List.forall_mem_cons.mpr ⟨hfirst, fun line hline => ?_⟩
      obtain ⟨whole, hwhole, rfl⟩ := List.mem_map.mp hline
      exact fun c hc => hrest whole hwhole c (List.mem_of_mem_drop hc)

theorem mem_of_mem_trimBlankLines {block : List Text} {line : Text}
    (h : line ∈ trimBlankLines block) : line ∈ block := by
  rw [trimBlankLines_eq] at h
  exact (List.dropWhile_sublist _).mem (List.rdropWhile_prefix _ _ |>.mem h)

/-- Neither the first nor the last line that is left is blank. -/
theorem isBlankLine_trimmed {block : List Text} (hne : trimBlankLines block ≠ []) :
    isBlankLine ((trimBlankLines block).head hne) = false ∧
      isBlankLine ((trimBlankLines block).getLast hne) = false := by
  refine ⟨?_, Bool.eq_false_iff.mpr (List.rdropWhile_last_not _ _ hne)⟩
  have hfront : trimBlankLines block <+: block.dropWhile isBlankLine := List.rdropWhile_prefix _ _
  rw [hfront.head hne]
  have h := List.head?_dropWhile_not isBlankLine block
  rwa [List.head?_eq_some_head (hfront.ne_nil hne)] at h

/-- The text is empty, or put together of lines of which neither the first nor the last is blank. -/
def IsTrimmed (t : Text) : Prop :=
  t = [] ∨ ∃ (block : List Text) (hne : block ≠ []), (∀ line ∈ block, IsLine line) ∧
    t = join [Octet.lf] block ∧ isBlankLine (block.head hne) = false ∧
    isBlankLine (block.getLast hne) = false

theorem isTrimmed_dedent (t : Text) : IsTrimmed (dedent t) := by
  by_cases hnil : trimBlankLines (dedentLines (lines t)) = []
  · left
    rw [dedent, hnil, join]
  · refine Or.inr ⟨_, hnil, fun line hline => ?_, rfl, isBlankLine_trimmed hnil⟩
    exact mem_dedentLines (fun _ => isLine_of_mem_lines) line (mem_of_mem_trimBlankLines hline)

/-- **The value of a block depends neither on how its lines end nor on how far all of them but the
first are indented.** -/
theorem dedent_join {block : List Text} (hne : block ≠ []) (h : ∀ line ∈ block, IsLine line)
    {ending : Text} (he : ending ∈ lineEndings) {w : Text} (hw : isBlankLine w = true) :
    dedent (join ending (indentRest w block)) = dedent (join [Octet.lf] block) := by
  rw [dedent, dedent, lines_join (indentRest_ne_nil hne) (isLine_indentRest hw h) he,
    lines_join hne h List.mem_cons_self, trimBlankLines_dedentLines hw]

end QueryCompiler.Text
