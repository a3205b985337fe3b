import DataRace.Error
import DataRace.Log
import Std.Data.TreeMap

/-!
# DataRace.Report.PairFile

The pair file: one pair of annotation ids a line, two decimal numbers with a
blank between them.

Reading skips blank lines and refuses the first line that is no pair.
Ordering puts pairs of busy ids last.  Files live in a `Directory`, a map
from names to what stands there; the name `.` stands for the directory itself.
-/

namespace DataRace

/-- A pair of annotation ids. -/
abbrev IdPair := Nat × Nat

namespace PairFile

/-- Read one line that is not blank. -/
def readLine (line : List Char) : Option IdPair :=
  match Text.words line with
  | [a, b] => do return (← Text.readWord a, ← Text.readWord b)
  | _ => none

/-- Read lines, the first of which has number `n`. -/
def readLines (n : Nat) : List (List Char) → Except Error (List IdPair)
  | [] => .ok []
  | l :: ls =>
    let line := Text.trim l
    if line.isEmpty then
      readLines (n + 1) ls
    else
      match readLine line with
      | none => .error (.pairFormat n (String.ofList line))
      | some p => do return p :: (← readLines (n + 1) ls)

/-- Read the contents of a pair file. -/
def parse (text : String) : Except Error (List IdPair) :=
  readLines 1 (Text.lines text.toList)

/-- The contents of the pair file that holds the pairs in order. -/
def render (pairs : List IdPair) : String :=
  String.join (pairs.map fun (a, b) => s!"{a} {b}\n")

/-- How often an id occurs in the pairs. -/
def occurrences (pairs : List IdPair) (id : Nat) : Nat :=
  (pairs.map (·.1)).count id + (pairs.map (·.2)).count id

/-- Occurrences of every id, in one pass over the pairs. -/
def tally (pairs : List IdPair) : Std.TreeMap Nat Nat :=
  pairs.foldl (fun m (a, b) => bump (bump m a) b) ∅
where
  bump (m : Std.TreeMap Nat Nat) (id : Nat) : Std.TreeMap Nat Nat := m.insert id (m.getD id 0 + 1)

/-- Whether the first weighted pair sorts no later than the second. -/
def keyLe (x y : Nat × IdPair) : Bool :=
  x.1 < y.1 || (x.1 == y.1 && (x.2.1 < y.2.1 || (x.2.1 == y.2.1 && x.2.2 ≤ y.2.2)))

/-- Sort the pairs by the occurrences of both ids together, then by the ids. -/
def order (pairs : List IdPair) : List IdPair :=
  let counts := tally pairs
  ((pairs.map fun p => (counts.getD p.1 0 + counts.getD p.2 0, p)).mergeSort keyLe).map (·.2)

end PairFile

/-- What a name stands for in a directory. -/
inductive Entry where
  | file (text : String)
  | folder
deriving Inhabited

/-- Files and folders by name. -/
structure Directory where
  entries : Std.TreeMap String Entry := ∅

namespace Directory

/-- Why nothing can stand under a name, if it is no name of a file. -/
def fault? (name : String) : Option String :=
  if name.isEmpty then some "No such file or directory (os error 2)"
  else if name.contains '\x00' then some "file name contained an unexpected NUL byte"
  else if name.utf8ByteSize > 255 then some "File name too long (os error 36)"
  else none

/-- What stands under a name. -/
def entry? (d : Directory) (name : String) : Option Entry :=
  if name = "." then some .folder else d.entries[name]?

/-- The text of a file, if there is one of that name. -/
def text? (d : Directory) (name : String) : Option String :=
  match d.entry? name with
  | some (.file text) => some text
  | _ => none

/-- Read a file. -/
def read (d : Directory) (name : String) : Except Error String :=
  match fault? name with
  | some reason => .error (.pairFile name reason)
  | none =>
    match d.entry? name with
    | some (.file text) => .ok text
    | some .folder => .error (.pairFile name "Is a directory (os error 21)")
    | none => .error (.pairFile name "No such file or directory (os error 2)")

/-- Write a file, in place of one of the same name. -/
def write (d : Directory) (name text : String) : Except Error Directory :=
  match fault? name with
  | some reason => .error (.pairFile name reason)
  | none =>
    match d.entry? name with
    | some .folder => .error (.pairFile name "Is a directory (os error 21)")
    | _ => .ok ⟨d.entries.insert name (.file text)⟩

/-- Make a folder where nothing of that name stands. -/
def makeFolder? (d : Directory) (name : String) : Option Directory :=
  if (fault? name).isSome || (d.entry? name).isSome then none
  else some ⟨d.entries.insert name .folder⟩

/-- Read a pair file. -/
def readPairs (d : Directory) (name : String) : Except Error (List IdPair) :=
  d.read name >>= PairFile.parse

/-- Write a pair file. -/
def writePairs (d : Directory) (name : String) (pairs : List IdPair) : Except Error Directory :=
  d.write name (PairFile.render pairs)

/-- Read a pair file; a failure is a warning and no pairs. -/
def loadPairs (d : Directory) (name : String) (log : Log) : List IdPair × Log :=
  match d.readPairs name with
  | .ok pairs => (pairs, log)
  | .error e => ([], log.warn (e.message ++ ", using no pairs"))

/-- Write the ordered pairs of one file to another; answers how many there are. -/
def reorderPairs (d : Directory) (input output : String) : Except Error (Nat × Directory) := do
  let ordered := PairFile.order (← d.readPairs input)
  return (ordered.length, ← d.writePairs output ordered)

end Directory

end DataRace
