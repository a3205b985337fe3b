/-!
# DataRace.Text.Line

Lines, blanks and words of a text.

A line ends at a line feed; a text that ends with one has no empty line
after it.  Blanks are the white-space characters of Unicode.
-/

namespace DataRace

namespace Text

/-- Whether a character is white space. -/
def isBlank (c : Char) : Bool :=
  let n := c.toNat
  (0x9 ≤ n && n ≤ 0xd) || n == 0x20 || n == 0x85 || n == 0xa0 || n == 0x1680 ||
    (0x2000 ≤ n && n ≤ 0x200a) || n == 0x2028 || n == 0x2029 || n == 0x202f || n == 0x205f ||
    n == 0x3000

/-- The lines of a text, without their line feeds. -/
def lines : List Char → List (List Char)
  | [] => []
  | c :: cs =>
    if c = '\n' then
      [] :: lines cs
    else
      match lines cs with
      | [] => [[c]]
      | l :: ls => (c :: l) :: ls

/-- A text without the blanks at its ends. -/
def trim (cs : List Char) : List Char :=
  ((cs.dropWhile isBlank).reverse.dropWhile isBlank).reverse

/-- The runs of non-blank characters. -/
def words : List Char → List (List Char)
  | [] => []
  | c :: cs =>
    if isBlank c then
      words cs
    else
      match cs with
      | [] => [[c]]
      | d :: _ =>
        if isBlank d then
          [c] :: words cs
        else
          match words cs with
          | [] => [[c]]
          | w :: ws => (c :: w) :: ws

/-- The number a run of decimal digits denotes, read onto `acc`; `none` at any other character. -/
def digitsValue (acc : Nat) : List Char → Option Nat
  | [] => some acc
  | c :: cs => if c.isDigit then digitsValue (10 * acc + (c.toNat - 48)) cs else none

/-- Read an unsigned 64-bit number: an optional plus sign and at least one decimal digit. -/
def readWord (cs : List Char) : Option Nat :=
  let digits := match cs with
    | '+' :: r => r
    | cs => cs
  if digits.isEmpty then
    none
  else
    (digitsValue 0 digits).filter (· < UInt64.size)

/-- Fill up with blanks on the left. -/
def padLeft (width : Nat) (s : String) : String :=
  "".pushn ' ' (width - s.length) ++ s

/-- Fill up with blanks on the right. -/
def padRight (width : Nat) (s : String) : String :=
  s.pushn ' ' (width - s.length)

end Text

end DataRace
