import QueryCompiler.Text.Basic
import QueryCompiler.Text.Octet

/-!
# Places in a source

A place is a line and a column, counted from one. Columns count octets. A line ends at a line feed,
at a carriage return, or at the two in this order.
-/

namespace QueryCompiler

/-- A line and a column, counted from one. -/
structure Location where
  /-- The line. -/
  line : Nat := 1
  /-- The octet of the line. -/
  column : Nat := 1
  deriving DecidableEq

namespace Location

/-- The place after the octet `c` at `l`, when `rest` follows it. -/
def step (l : Location) (c : UInt8) (rest : Text) : Location :=
  if c = Octet.lf ∨ (c = Octet.cr ∧ rest.head? ≠ some Octet.lf) then ⟨l.line + 1, 1⟩
  else ⟨l.line, l.column + 1⟩

/-- The place after the first `n` octets of a text that starts at `l`. -/
def advance (l : Location) : (n : Nat) → Text → Location
  | n + 1, c :: rest => (l.step c rest).advance n rest
  | 0, _ => l
  | _, [] => l

/-- The place of an offset of a source. -/
def ofOffset (source : Text) (offset : Nat) : Location := advance {} offset source

/-- How a place is named at the end of a message. -/
def text (l : Location) : Text :=
  " (line " ++ Text.ofNat l.line ++ ", column " ++ Text.ofNat l.column ++ ")"

@[simp] theorem advance_zero (l : Location) (t : Text) : l.advance 0 t = l := by
  cases t <;> rfl

@[simp] theorem advance_nil (l : Location) (n : Nat) : l.advance n [] = l := by
  cases n <;> rfl

@[simp] theorem advance_cons (l : Location) (n : Nat) (c : UInt8) (t : Text) :
    l.advance (n + 1) (c :: t) = (l.step c t).advance n t := rfl

theorem advance_add (l : Location) (m n : Nat) (t : Text) :
    l.advance (m + n) t = (l.advance m t).advance n (t.drop m) := by
  induction m generalizing l t with
  | zero => simp
  | succ m ih =>
    cases t with
    | nil => simp
    | cons c t => rw [Nat.add_right_comm, advance_cons, advance_cons, ih, List.drop_succ_cons]

end Location

end QueryCompiler
