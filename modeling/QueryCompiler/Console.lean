import QueryCompiler.Json.Printer

/-!
# Console messages

Messages have a level and go to one of two streams, or to a sink if there is one. A message below
the level of the console is not written. Every message is one line: a time stamp, a mark, and the
words separated by spaces; there are colours unless the line goes to a sink. Time stamps and elapsed
times are given by the caller.
-/

namespace QueryCompiler

/-- How important a message is, in rising order. -/
inductive LogLevel
  | debug
  | info
  | warn
  | error
  | silent
  deriving DecidableEq

/-- The rank of a level. -/
def LogLevel.rank : LogLevel → Nat
  | .debug => 0
  | .info => 1
  | .warn => 2
  | .error => 3
  | .silent => 4

/-- The kinds of message. -/
inductive MessageKind
  | log
  | info
  | warn
  | error
  | success
  | debug
  deriving DecidableEq

namespace MessageKind

/-- The level of a kind of message. -/
def level : MessageKind → LogLevel
  | .log => .info
  | .info => .info
  | .warn => .warn
  | .error => .error
  | .success => .info
  | .debug => .debug

/-- The colour of the mark. -/
def colour : MessageKind → Text
  | .log => "\x1b[0m"
  | .info => "\x1b[34m"
  | .warn => "\x1b[33m"
  | .error => "\x1b[31m"
  | .success => "\x1b[32m"
  | .debug => "\x1b[36m"

/-- The mark in front of the words. -/
def mark : MessageKind → Text
  | .log => []
  | .info => "ℹ "
  | .warn => "⚠ "
  | .error => "✖ "
  | .success => "✔ "
  | .debug => "● "

/-- Warnings and errors go to the stream for errors. -/
def isForErrors (k : MessageKind) : Bool := k = .warn || k = .error

end MessageKind

/-- Where a line is written. -/
inductive Channel
  | sink
  | output
  | errors
  deriving DecidableEq

/-- A line and where it is written. -/
structure LogLine where
  /-- Where. -/
  channel : Channel
  /-- The line, with its terminator. -/
  text : Text
  deriving DecidableEq

/-- The state of the console. -/
structure Console where
  /-- The least level that is written. -/
  level : LogLevel := .info
  /-- Whether lines go to a sink. -/
  hasSink : Bool := false
  /-- The labels of the timers that run. -/
  timers : List Text := []
  deriving DecidableEq

namespace Console

/-- Messages of the level are written. -/
def enabled (c : Console) (level : LogLevel) : Bool := c.level.rank ≤ level.rank

/-- The colour of the time stamp. -/
def stampColour : Text := "\x1b[90m"

/-- The end of a colour. -/
def noColour : Text := "\x1b[0m"

/-- The start of a line. -/
def lead (c : Console) (stamp colour mark : Text) : Text :=
  if c.hasSink then "[" ++ stamp ++ "] " ++ mark
  else stampColour ++ "[" ++ stamp ++ "] " ++ colour ++ mark ++ noColour

/-- A line of words of a level, if that level is written. -/
def write (c : Console) (level : LogLevel) (forErrors : Bool) (stamp colour mark : Text)
    (words : List Text) : List LogLine :=
  if c.enabled level then
    [{ channel := if c.hasSink then .sink else if forErrors then .errors else .output
       text := c.lead stamp colour mark ++ Text.join " " words ++ [Octet.lf] }]
  else []

/-- A message. -/
def message (c : Console) (kind : MessageKind) (stamp : Text) (words : List Text) : List LogLine :=
  c.write kind.level kind.isForErrors stamp kind.colour kind.mark words

/-- Starts a timer. -/
def time (c : Console) (label : Text) : Console :=
  { c with timers := if c.timers.contains label then c.timers else c.timers ++ [label] }

/-- Stops a timer and reports the elapsed milliseconds at a level, or warns that there is no such
timer. -/
def timeEnd (c : Console) (label : Text) (level : LogLevel) (stamp elapsed : Text) :
    Console × List LogLine :=
  if c.timers.contains label then
    ({ c with timers := c.timers.filter (· != label) },
      c.write level false stamp MessageKind.log.colour [] [label ++ ":", elapsed ++ "ms"])
  else (c, c.message .warn stamp ["Timer '" ++ label ++ "' does not exist"])

/-- How a value is written as a word: a text as it is, a number in digits, and other values as
JSON. -/
def word : Json → Text
  | .string t => t
  | j => j.text

end Console

end QueryCompiler
