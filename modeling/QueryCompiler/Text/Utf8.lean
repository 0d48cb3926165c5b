import QueryCompiler.Text.Basic

/-!
# UTF-8

Any text is cut from left to right into characters and strays. A character is a well-formed UTF-8
sequence. A stray is a maximal ill-formed run: the longest octets that begin some well-formed
sequence without ending it, or one octet if it begins none.

* `Utf8.pieces`: the cut, and `flatten_pieces`: nothing is lost in it.
* `Utf8.wellFormed`: no piece is a stray.
* `Utf8.sanitise`: every stray becomes U+FFFD.
* `Utf8.encode`: the octets of a code point.
-/

namespace QueryCompiler.Utf8

/-- A part of a text: a character, or a maximal ill-formed run. -/
inductive Piece
  | character (octets : Text)
  | stray (octets : Text)
  deriving DecidableEq

/-- The octets of a piece. -/
def Piece.octets : Piece → Text
  | .character t => t
  | .stray t => t

/-- What the first octet of a well-formed sequence asks for: how many octets follow it, and the
least and greatest octet the next one may be. -/
def lead? (c : UInt8) : Option (Nat × UInt8 × UInt8) :=
  if c < 0x80 then some (0, 0x80, 0xBF)
  else if c < 0xC2 then none
  else if c < 0xE0 then some (1, 0x80, 0xBF)
  else if c = 0xE0 then some (2, 0xA0, 0xBF)
  else if c = 0xED then some (2, 0x80, 0x9F)
  else if c < 0xF0 then some (2, 0x80, 0xBF)
  else if c = 0xF0 then some (3, 0x90, 0xBF)
  else if c < 0xF4 then some (3, 0x80, 0xBF)
  else if c = 0xF4 then some (3, 0x80, 0x8F)
  else none

/-- The octets at the front of a text that go on with a sequence: at most `n`, the first between
`low` and `high`, the others between `0x80` and `0xBF`. -/
def continuation : Nat → UInt8 → UInt8 → Text → Text
  | 0, _, _, _ => []
  | _, _, _, [] => []
  | n + 1, low, high, c :: rest =>
    if low ≤ c ∧ c ≤ high then c :: continuation n 0x80 0xBF rest else []

/-- The piece that starts with the octet `c`. -/
def pieceAt (c : UInt8) (rest : Text) : Piece :=
  match lead? c with
  | none => .stray [c]
  | some (n, low, high) =>
    let more := continuation n low high rest
    if more.length = n then .character (c :: more) else .stray (c :: more)

/-- The cut of a text into characters and strays. -/
def pieces : Text → List Piece
  | [] => []
  | c :: rest => pieceAt c rest :: pieces (rest.drop ((pieceAt c rest).octets.length - 1))
termination_by t => t.length
decreasing_by simp only [List.length_drop, List.length_cons]; omega

/-- No stray occurs in the text. -/
def wellFormed (t : Text) : Bool :=
  (pieces t).all fun
    | .character _ => true
    | .stray _ => false

/-- The octets of U+FFFD, which stands for a stray. -/
def replacement : Text := [0xEF, 0xBF, 0xBD]

/-- The text with every stray replaced. -/
def sanitise (t : Text) : Text :=
  (pieces t).flatMap fun
    | .character octets => octets
    | .stray _ => replacement

/-- The octets of a code point below `0x110000`. A surrogate is encoded like its neighbours, in
three octets that are no well-formed sequence. -/
def encode (codePoint : Nat) : Text :=
  if codePoint < 0x80 then [codePoint.toUInt8]
  else if codePoint < 0x800 then
    [(0xC0 + codePoint / 0x40).toUInt8, (0x80 + codePoint % 0x40).toUInt8]
  else if codePoint < 0x10000 then
    [(0xE0 + codePoint / 0x1000).toUInt8, (0x80 + codePoint / 0x40 % 0x40).toUInt8,
      (0x80 + codePoint % 0x40).toUInt8]
  else
    [(0xF0 + codePoint / 0x40000).toUInt8, (0x80 + codePoint / 0x1000 % 0x40).toUInt8,
      (0x80 + codePoint / 0x40 % 0x40).toUInt8, (0x80 + codePoint % 0x40).toUInt8]

/-! ### The cut -/

theorem continuation_isPrefix (n : Nat) (low high : UInt8) (t : Text) :
    continuation n low high t <+: t := by
  induction t generalizing n low high with
  | nil => cases n <;> simp [continuation]
  | cons c t ih =>
    cases n with
    | zero => simp [continuation]
    | succ n =>
      simp only [continuation]
      split
      · exact (List.prefix_cons_inj c).mpr (ih n 0x80 0xBF)
      · simp

theorem octets_pieceAt (c : UInt8) (rest : Text) :
    ∃ more, (pieceAt c rest).octets = c :: more ∧ more <+: rest := by
  unfold pieceAt
  split
  · exact ⟨[], rfl, by simp⟩
  · next n low high _ =>
    refine ⟨continuation n low high rest, ?_, continuation_isPrefix n low high rest⟩
    dsimp only
    split <;> rfl

/-- **Nothing is lost in the cut.** -/
theorem flatten_pieces (t : Text) : (pieces t).flatMap Piece.octets = t := by
  fun_induction pieces t with
  | case1 => rfl
  | case2 c rest ih =>
    rw [List.flatMap_cons, ih]
    obtain ⟨more, hm, u, rfl⟩ := octets_pieceAt c rest
    rw [hm]
    simp

end QueryCompiler.Utf8
