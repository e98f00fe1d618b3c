import LoopBounds.Listing.Mistake

/-!
# What can be wrong with a program

A text may fail to be a program at all, or use a name that nothing defines, or define
a function that breaks a structural rule. Each cause is a constructor; its wording is
given in one place.
-/

namespace LoopBounds

/-- A structural rule broken by one function. Names and labels are given without their
marks. -/
inductive Fault where
  | valueDefinedTwice (name : String)
  | labelDefinedTwice (label : String)
  | constantNotCollected (value : Int32)
  | noTerminator (label : String)
  | notPhi (name : String)
  | phiMismatch (name label : String)
  deriving DecidableEq, Repr

def Fault.message : Fault → String
  | .valueDefinedTwice name => "%" ++ name ++ " defined twice"
  | .labelDefinedTwice label => "label '" ++ label ++ "' defined twice"
  | .constantNotCollected value =>
      "constant " ++ toString value.toInt ++ " was not collected"
  | .noTerminator label => "block '" ++ label ++ "' has no terminator"
  | .notPhi name => "%" ++ name ++ " is not a phi"
  | .phiMismatch name label =>
      "phi %" ++ name ++ " does not match the predecessors of '" ++ label ++ "'"

/-- Why a program is refused, or why a file could not be used. -/
inductive Error where
  | notAProgram (mistake : Listing.Mistake)
  | literalOutOfRange (digits : String)
  | undefinedValue (name : String)
  | undefinedLabel (label : String)
  | malformed (function : String) (fault : Fault)
  | system (reason : String)
  deriving DecidableEq, Repr

def Error.message : Error → String
  | .notAProgram mistake => "syntax error: " ++ mistake.text
  | .literalOutOfRange digits => "syntax error: integer '" ++ digits ++ "' out of range"
  | .undefinedValue name => "use of undefined value '%" ++ name ++ "'"
  | .undefinedLabel label => "use of undefined label '%" ++ label ++ "'"
  | .malformed function fault =>
      "malformed function '@" ++ function ++ "': " ++ fault.message
  | .system reason => "system error: " ++ reason

end LoopBounds
