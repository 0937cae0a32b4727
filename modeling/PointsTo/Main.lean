import PointsTo.CommandLine.Session

/-!
# The command line

Reads the file, prints the outcome, and writes the drawing.
-/

open PointsTo.CommandLine

/-- The error of a file operation in the words of the system. -/
def fileError : IO.Error → FileError
  | .noFileOrDirectory .. => .notFound
  | .inappropriateType _ 20 _ => .notADirectory
  | .inappropriateType .. => .isADirectory
  | .invalidArgument _ 36 _ => .nameTooLong
  | .resourceExhausted _ 28 _ => .storageFull
  | .permissionDenied .. => .permissionDenied
  | e => ⟨5, "Other", toString e⟩

def attempt {α : Type} (action : IO α) : IO (Except FileError α) := do
  try
    return .ok (← action)
  catch e =>
    return .error (fileError e)

def conclude (o : Outcome) : IO UInt32 := do
  IO.print o.stdout
  IO.eprint o.stderr
  return o.code.toUInt32

def main (args : List String) : IO UInt32 := do
  match Args.read args with
  | .error e => conclude e.outcome
  | .ok args =>
    let session := Session.run args (← attempt (IO.FS.readBinFile args.filePath))
    let written ←
      match session.drawing with
      | some (path, text) => attempt (IO.FS.writeFile path text)
      | none => pure (.ok ())
    conclude (session.outcome args written)
