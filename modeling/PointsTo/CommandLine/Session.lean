import PointsTo.Analysis.Drawing
import PointsTo.Analysis.Run
import PointsTo.CommandLine.Args
import PointsTo.Source.Reader

/-!
# A run of the command line

A run reads a program, answers its queries one after the other, and may draw what it found. Answers
go to the output and log records to the error output. `Session.run` is the whole work between
reading the program and writing the drawing; what the two file operations gave is its input
(`Session.run`, `Session.outcome`).
-/

namespace PointsTo.CommandLine

/-- An error of a file operation, with the number, kind and message the system gives it. -/
structure FileError where
  code : Nat
  kind : String
  message : String
deriving DecidableEq

namespace FileError

def notFound : FileError := ⟨2, "NotFound", "No such file or directory"⟩

def permissionDenied : FileError := ⟨13, "PermissionDenied", "Permission denied"⟩

def notADirectory : FileError := ⟨20, "NotADirectory", "Not a directory"⟩

def isADirectory : FileError := ⟨21, "IsADirectory", "Is a directory"⟩

def storageFull : FileError := ⟨28, "StorageFull", "No space left on device"⟩

def nameTooLong : FileError := ⟨36, "InvalidFilename", "File name too long"⟩

end FileError

/-- Why a run fails. -/
inductive Failure where
  | file (e : FileError)
  | notUtf8
  | source (e : Source.Error)
  | unresolved (spec : QuerySpec)
  | fault (f : Fault)

/-- A text between quotation marks. -/
def quotedText (text : String) : String := String.ofList (Text.Escape.quoted text.toList)

/-- An input that can not be worked on. -/
def invalidInput (text : String) : String :=
  "Custom \x7b kind: InvalidInput, error: " ++ quotedText text ++ " \x7d"

def Failure.text : Failure → String
  | file e =>
    s!"Os \x7b code: {e.code}, kind: {e.kind}, message: " ++ quotedText e.message ++ " \x7d"
  | notUtf8 =>
    "Error \x7b kind: InvalidData, message: \"stream did not contain valid UTF-8\" \x7d"
  | source e => invalidInput e.message
  | unresolved spec => invalidInput spec.unresolved
  | fault f => f.message

/-- What a run leaves for its environment. -/
structure Outcome where
  code : Nat
  stdout : String
  stderr : String
deriving DecidableEq

/-- A run up to the writing of a drawing. -/
structure Session where
  /-- The lines of the output -/
  output : List String
  log : List LogRecord
  failure : Option Failure
  /-- The path and the text of the drawing to write, if the run came that far -/
  drawing : Option (String × String)

namespace Session

def start : Session := ⟨[], [], none, none⟩

def print (s : Session) (line : String) : Session := { s with output := s.output ++ [line] }

def addLog (s : Session) (records : List LogRecord) : Session := { s with log := s.log ++ records }

def describe (program : Program) (fact : Fact) : String :=
  s!"{program.describe fact.point}:{fact.var.name}"

def describeAll (program : Program) (facts : List Fact) : String :=
  ", ".intercalate (facts.map (describe program))

/-- Solves a query in an analysis. What the analysis says goes to the log. -/
def solve (s : Session) (a : Analysis) (query : Query) : Session × Option Analysis :=
  match a.solve query with
  | .error halt =>
    ({ s.addLog halt.analysis.drainLog.1 with failure := some (.fault halt.fault) }, none)
  | .ok a =>
    let (records, a) := a.drainLog
    (s.addLog records, some a)

/-- The answer to a backward query: where the value was allocated. -/
def backwardLine (a : Analysis) (spec : QuerySpec) (query : Query) : String :=
  let sites := (a.allocationSites query).map (·.fact)
  s!"{spec.text} <- {describeAll a.program sites}"

/-- The answer to a forward query: the facts that the object reaches and, if they are asked for, the
access paths of each. -/
def forwardLines (a : Analysis) (spec : QuerySpec) (query : Query) (paths : Bool) : List String :=
  match a.solver? query with
  | none => []
  | some solver =>
    let facts := solver.reached.toList
    let path (fact : Fact) :=
      s!"  {describe a.program fact}: " ++ (solver.accessPath fact).text Field.text
    s!"{spec.text} -> {describeAll a.program facts}" :: if paths then facts.map path else []

/-- Answers one query. -/
def answer (args : Args) (direction : Direction) (s : Session) (a : Analysis) (spec : QuerySpec) :
    Session × Option Analysis :=
  match spec.resolve? a.program with
  | none => ({ s with failure := some (.unresolved spec) }, none)
  | some fact =>
    let query :=
      match direction with
      | .forward => .allocation a.program fact
      | .backward => .backward fact
    match s.solve a query with
    | (s, none) => (s, none)
    | (s, some a) =>
      let lines :=
        match direction with
        | .forward => forwardLines a spec query args.paths
        | .backward => [backwardLine a spec query]
      (lines.foldl print s, some a)

/-- Answers queries until one fails. -/
def answerAll (args : Args) (direction : Direction) (s : Session) (a : Analysis) :
    List QuerySpec → Session × Option Analysis
  | [] => (s, some a)
  | spec :: rest =>
    match s.answer args direction a spec with
    | (s, none) => (s, none)
    | (s, some a) => answerAll args direction s a rest

/-- What is logged and drawn when all queries are answered. -/
def close (args : Args) (s : Session) (a : Analysis) : Session :=
  let statistics : LogRecord := ⟨.info, s!"Statistics:\n{a.stats.text}"⟩
  { s.addLog (a.debugRecords ++ [statistics]) with
    drawing := args.visualize.map fun path => (path, a.drawing.text) }

def runProgram (args : Args) (program : Program) : Session :=
  let a := Analysis.create program ⟨args.witnessPolicy, args.readBase, args.debug⟩
  match start.answerAll args .backward a args.backward with
  | (s, none) => s
  | (s, some a) =>
    match s.answerAll args .forward a args.forward with
    | (s, none) => s
    | (s, some a) => s.close args a

/-- The run for what reading the file gave. -/
def run (args : Args) (contents : Except FileError ByteArray) : Session :=
  match contents with
  | .error e => { start with failure := some (.file e) }
  | .ok bytes =>
    match String.fromUTF8? bytes with
    | none => { start with failure := some .notUtf8 }
    | some source =>
      match Source.readProgram source with
      | .error e => { start with failure := some (.source e) }
      | .ok program => runProgram args program

/-! ## Outcomes -/

/-- The log as it is shown: nothing if quiet was asked for, and otherwise warnings and as many
levels more as were asked for. -/
def shownLog (args : Args) (log : List LogRecord) : String :=
  let shown := if args.quiet then [] else log.filter (·.isShown (args.verbose + 1))
  String.join (shown.map fun r => s!"{r.level.text} - {r.message}\n")

/-- The outcome of a run, given what came of writing the drawing. A fault ends a run like an error
of the program itself. -/
def outcome (s : Session) (args : Args) (written : Except FileError Unit) : Outcome :=
  let failure :=
    match s.failure, written with
    | some f, _ => some f
    | none, .error e => some (.file e)
    | none, .ok () => none
  let code :=
    match failure with
    | none => 0
    | some (.fault _) => 101
    | some _ => 1
  let error :=
    match failure with
    | none => ""
    | some f => s!"Error: {f.text}\n"
  { code
    stdout := String.join (s.output.map fun line => line ++ "\n")
    stderr := shownLog args s.log ++ error }

end Session

/-- The outcome of arguments that are not acted upon. -/
def UsageError.outcome (e : UsageError) : Outcome :=
  match e with
  | .help | .version => ⟨0, e.report ++ "\n", ""⟩
  | _ => ⟨2, "", e.report⟩

end PointsTo.CommandLine
