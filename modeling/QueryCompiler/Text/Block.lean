import QueryCompiler.Text.Basic
import QueryCompiler.Text.Octet

/-!
# Indented blocks

Items are written as a block in braces, whose lines are indented by two spaces (`block`).

The value of a block of lines does not depend on how far the block is indented: the indentation
that all lines but the first have in common is removed, and so are blank lines at both ends
(`dedent`). A line ends at a line feed, at a carriage return, or at the two in this order.
-/

namespace QueryCompiler.Text

/-- The text with two spaces after every line feed. -/
def indentLines (t : Text) : Text :=
  t.flatMap fun c => if c = Octet.lf then [Octet.lf, Octet.space, Octet.space] else [c]

/-- The text with two spaces at the front of every line; nothing if it is empty. -/
def indent (t : Text) : Text := if t.isEmpty then [] else "  " ++ t.indentLines

/-- The items in braces, each from a line of its own on, all lines indented; nothing if there are no
items. -/
def block (items : List Text) : Text :=
  if items.isEmpty then [] else
    0x7B :: Octet.lf :: ((joinNonEmpty [Octet.lf] items).indent ++ [Octet.lf, 0x7D])

/-- The text without the carriage returns that stand before a line feed. -/
def dropPairedReturns (t : Text) : Text :=
  ((t.zip (t.tail ++ [0])).filter fun p => !(p.1 == Octet.cr && p.2 == Octet.lf)).map Prod.fst

/-- One more octet in front of a list of lines: a terminator opens a new line. -/
def consToLines (c : UInt8) (lines : List Text) : List Text :=
  if Octet.isLineTerminator c then [] :: lines
  else match lines with
    | [] => [[c]]
    | line :: rest => (c :: line) :: rest

/-- The lines of a text, without their terminators. There is at least one. -/
def lines (t : Text) : List Text := (dropPairedReturns t).foldr consToLines [[]]

/-- The line holds nothing but spaces and tabs. -/
def isBlankLine (line : Text) : Bool := line.all Octet.isBlank

/-- The number of spaces and tabs at the front of a line. -/
def indentation (line : Text) : Nat := (line.takeWhile Octet.isBlank).length

/-- The least indentation of the lines that are not blank; nothing if all are. -/
def commonIndentation (lines : List Text) : Option Nat :=
  ((lines.filter fun line => !isBlankLine line).map indentation).min?

/-- The lines without the blank ones at both ends. -/
def trimBlankLines (lines : List Text) : List Text :=
  ((lines.dropWhile isBlankLine).reverse.dropWhile isBlankLine).reverse

/-- The lines with the common indentation of all but the first removed from all but the first. -/
def dedentLines : List Text → List Text
  | [] => []
  | first :: rest =>
    match commonIndentation rest with
    | none => first :: rest
    | some n => first :: rest.map (List.drop n)

/-- The value of a block: its lines dedented and trimmed, joined by line feeds. -/
def dedent (t : Text) : Text := join [Octet.lf] (trimBlankLines (dedentLines (lines t)))

end QueryCompiler.Text
