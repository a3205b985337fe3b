import DataRace.Text.Quoted

/-!
# DataRace.Error

What can go wrong while a program is built or analysed, and how it is said.

Spent budgets and unmatched joins are not errors: they cost precision and go
to the log.
-/

namespace DataRace

/-- The cause of a failed operation. -/
inductive Error where
  /-- A question was asked before the analysis it depends on had run. -/
  | notInitialized (what : String)
  | unknownFunction (name : String)
  | unknownInstruction (id : Nat)
  | unknownValue (id : Nat)
  | malformedProgram (reason : String)
  | invalidConfig (reason : String)
  /-- A pair file could not be read or written. -/
  | pairFile (path reason : String)
  /-- A line of a pair file is no pair. -/
  | pairFormat (line : Nat) (content : String)
  /-- A number left the range of its word, or an index its table. -/
  | outOfRange
deriving DecidableEq, Inhabited

namespace Error

/-- The wording of each error. -/
def message : Error → String
  | notInitialized what => "analysis not initialized: " ++ what
  | unknownFunction name => "unknown function " ++ name
  | unknownInstruction id => s!"unknown instruction {id}"
  | unknownValue id => s!"unknown value {id}"
  | malformedProgram reason => "malformed program: " ++ reason
  | invalidConfig reason => "invalid configuration: " ++ reason
  | pairFile path reason => "pair file " ++ path ++ ": " ++ reason
  | pairFormat line content => s!"malformed pair file line {line}: " ++ Text.quoted content
  | outOfRange => "number out of range"

/-- Whether the input is to blame rather than the use of the analysis. -/
def isInputError : Error → Bool
  | malformedProgram _ | pairFile .. | pairFormat .. => true
  | _ => false

end Error

end DataRace
