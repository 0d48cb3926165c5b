import QueryCompiler.Source.Location
import Mathlib.Data.Prod.Lex
import Mathlib.Data.List.Basic
import Mathlib.Order.Interval.Set.Defs

/-!
# Places are offsets

A place counts the lines that end before an offset, and the octets since the last of them
(`ofOffset_eq`). From one offset to the next the column or the line goes up, so different offsets have
different places, in the same order (`strictMonoOn_ofOffset`).
-/

namespace QueryCompiler.Location

variable {source : Text} {n : Nat}

/-- The octet at an offset ends a line: a line feed, or a carriage return that no line feed
follows. -/
def endsLine (source : Text) (i : Nat) : Bool :=
  source[i]? == some Octet.lf || (source[i]? == some Octet.cr && source[i + 1]? != some Octet.lf)

/-- The number of lines that end among the first octets. -/
def linesEnded (source : Text) (n : Nat) : Nat := (List.range n).countP (endsLine source)

/-- The offset after the last of the lines that end among the first octets. -/
def lineStart (source : Text) : (n : Nat) → Nat
  | 0 => 0
  | n + 1 => if endsLine source n then n + 1 else lineStart source n

/-- Lines and columns, the lines first. -/
def position (l : Location) : ℕ ×ₗ ℕ := toLex (l.line, l.column)

theorem lineStart_le (source : Text) (n : Nat) : lineStart source n ≤ n := by
  induction n with
  | zero => exact Nat.le_refl 0
  | succ n ih =>
    unfold lineStart
    split
    · exact Nat.le_refl _
    · exact Nat.le_succ_of_le ih

theorem linesEnded_succ (source : Text) (n : Nat) :
    linesEnded source (n + 1) = linesEnded source n + (endsLine source n).toNat := by
  rw [linesEnded, List.range_succ, List.countP_append, List.countP_singleton, linesEnded]
  cases endsLine source n <;> rfl

/-- **One octet further** the next line starts, or the next column of the line. -/
theorem ofOffset_succ (h : n < source.length) : ofOffset source (n + 1) =
    if endsLine source n then ⟨(ofOffset source n).line + 1, 1⟩
    else ⟨(ofOffset source n).line, (ofOffset source n).column + 1⟩ := by
  rw [ofOffset, advance_add, List.drop_eq_getElem_cons h, advance_cons, advance_zero, step,
    List.head?_drop]
  refine if_congr ?_ rfl rfl
  simp [endsLine, h]

/-- **A place counts lines and octets**: the lines that have ended, and the octets since then. -/
theorem ofOffset_eq (h : n ≤ source.length) :
    ofOffset source n = ⟨1 + linesEnded source n, n - lineStart source n + 1⟩ := by
  induction n with
  | zero => cases source <;> rfl
  | succ n ih =>
    rw [ofOffset_succ h, ih (Nat.le_of_succ_le h), linesEnded_succ, lineStart]
    have hle := lineStart_le source n
    cases endsLine source n with
    | true => simp [Nat.add_assoc]
    | false =>
      rw [if_neg Bool.false_ne_true, if_neg Bool.false_ne_true, Nat.succ_sub hle]
      rfl

theorem position_lt_succ (h : n < source.length) :
    (ofOffset source n).position < (ofOffset source (n + 1)).position := by
  rw [ofOffset_succ h, position, position, Prod.Lex.toLex_lt_toLex]
  split
  · exact Or.inl (Nat.lt_succ_self _)
  · exact Or.inr ⟨rfl, Nat.lt_succ_self _⟩

/-- **Places go up with the offsets.** -/
theorem strictMonoOn_ofOffset (source : Text) :
    StrictMonoOn (fun n => (ofOffset source n).position) (Set.Iic source.length) := by
  intro m _ n hn hlt
  induction hlt with
  | refl => exact position_lt_succ hn
  | @step n hmn ih =>
    have hn' : n < source.length := hn
    exact lt_trans (ih (Nat.le_of_lt hn')) (position_lt_succ hn')

end QueryCompiler.Location
