import DataRace.Text.Line

/-!
# DataRace.Log

A bounded diagnostics log.

Soft warnings (spent budgets, unmatched joins, recursion) are counted even
when the level keeps them out of the text.  A line that would make the text
longer than the limit closes the log with a mark.
-/

namespace DataRace

/-- How much is written; a line is kept when its level is at or below that of the log. -/
inductive Level where
  | off
  | error
  | warn
  | info
  | debug
  | trace
deriving DecidableEq, Inhabited

namespace Level

/-- All levels, from silence to everything. -/
def all : List Level := [off, error, warn, info, debug, trace]

/-- Position in the order of levels. -/
def rank : Level → Nat
  | off => 0
  | error => 1
  | warn => 2
  | info => 3
  | debug => 4
  | trace => 5

/-- The tag in front of each line. -/
def tag : Level → String
  | off => ""
  | error => "error"
  | warn => "warn"
  | info => "info"
  | debug => "debug"
  | trace => "trace"

end Level

/-- The diagnostics written so far. -/
structure Log where
  level : Level
  /-- The largest text in bytes. -/
  maxSize : Nat
  text : String := ""
  truncated : Bool := false
  /-- Warnings counted, kept or not. -/
  warnings : Nat := 0
deriving Inhabited

namespace Log

/-- An empty log of a mebibyte at most. -/
def ofLevel (level : Level) : Log where
  level
  maxSize := 1024 * 1024

/-- Whether lines of a level are kept. -/
def enabled (l : Log) (level : Level) : Bool :=
  level.rank ≤ l.level.rank && level != .off

/-- Append a line, if its level is enabled and the log still open. -/
def append (l : Log) (level : Level) (msg : String) : Log :=
  if !l.enabled level || l.truncated then
    l
  else if l.text.utf8ByteSize + level.tag.utf8ByteSize + msg.utf8ByteSize + 3 > l.maxSize then
    { l with truncated := true, text := l.text ++ "... log truncated ...\n" }
  else
    { l with text := l.text ++ level.tag ++ ": " ++ msg ++ "\n" }

/-- Write a line; a warning counts in any case. -/
def write (l : Log) (level : Level) (msg : String) : Log :=
  if level = .warn then
    append { l with warnings := l.warnings + 1 } level msg
  else
    append l level msg

def warn (l : Log) (msg : String) : Log := l.write .warn msg

def info (l : Log) (msg : String) : Log := l.write .info msg

def debug (l : Log) (msg : String) : Log := l.write .debug msg

/-- The log without its contents. -/
def clear (l : Log) : Log := { level := l.level, maxSize := l.maxSize }

/-- The number of lines of the text. -/
def lineCount (l : Log) : Nat := (Text.lines l.text.toList).length

end Log

end DataRace
