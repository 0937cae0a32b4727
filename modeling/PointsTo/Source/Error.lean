import PointsTo.Program.Basic

/-!
# Errors in program text

The causes for which a text is no program, and the wording of each. A cause in a line is reported
with the number of the line, counted from one.
-/

namespace PointsTo.Source

/-- What is wrong with a line. -/
inductive LineError where
  | expectedVariable (found : String)
  | invalidLabel (found : String)
  | missingOpening (text : String)
  | missingClosing (text : String)
  | expectedReceiver (found : String)
  | invalidMethodName (found : String)
  | invalidType (found : String)
  | expectedBranch (found : String)
  | unknownStatement (found : String)
  | expectedHeader (found : String)
  | twoLabels
  | body (cause : BodyError)
deriving DecidableEq

/-- What is wrong with a text. -/
inductive Error where
  | inLine (number : Nat) (cause : LineError)
  | unclosed (method : MethodName)
  | program (cause : ProgramError)
deriving DecidableEq

def LineError.message : LineError → String
  | expectedVariable found => s!"Expected variable, found '{found}'"
  | invalidLabel found => s!"Invalid label '{found}'"
  | missingOpening text => s!"Expected '(' in '{text}'"
  | missingClosing text => s!"Expected ')' at the end of '{text}'"
  | expectedReceiver found => s!"Expected 'receiver.method', found '{found}'"
  | invalidMethodName found => s!"Invalid method name '{found}'"
  | invalidType found => s!"Invalid type '{found}'"
  | expectedBranch found => s!"Expected 'if * goto LABEL', found '{found}'"
  | unknownStatement found => s!"Unknown statement '{found}'"
  | expectedHeader found => s!"Expected 'method NAME(PARAMS) \x7b', found '{found}'"
  | twoLabels => "Two labels on the same statement"
  | body cause => cause.message

def Error.message : Error → String
  | inLine number cause => s!"line {number}: {cause.message}"
  | unclosed method => s!"Method {method.text} is not closed"
  | program cause => cause.message

end PointsTo.Source
