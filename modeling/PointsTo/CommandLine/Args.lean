import PointsTo.Analysis.Basic
import PointsTo.CommandLine.QuerySpec
import PointsTo.Text.ControlSequence

/-!
# Arguments

Reading the arguments of the command line. Options have a long and a short form; short forms without
a value may share one dash, and a value may be attached to its option. An option that waits for its
value takes the next argument, unless that looks like an option. After `--` nothing does.

A value is checked when the next option or positional argument begins, or at the end. An argument
that is not known at all is reported at once, whatever waits to be checked.

Messages are written for a terminal, where the argument that is at fault stands out. What is
reported is the first line of what such a message shows (`UsageError.report`): control sequences
that came in with the argument are not shown either.
-/

namespace PointsTo.CommandLine

/-- The options that take a value. -/
inductive ValueOption where
  | backward
  | forward
  | witnessPolicy
  | readBase
  | visualize
deriving DecidableEq

/-- The options that take none. -/
inductive Flag where
  | paths
  | debug
  | quiet
  | verbose
  | help
  | version
deriving DecidableEq

inductive AnyOption where
  | value (option : ValueOption)
  | flag (flag : Flag)
deriving DecidableEq

structure Args where
  filePath : String
  backward : List QuerySpec
  forward : List QuerySpec
  witnessPolicy : WitnessPolicy
  readBase : ReadBaseRule
  paths : Bool
  visualize : Option String
  debug : Bool
  quiet : Bool
  /-- How often more messages were asked for -/
  verbose : Nat
deriving DecidableEq

/-- Why arguments are not acted upon. -/
inductive UsageError where
  | missingFile
  | unknownArgument (arg : String)
  | invalidQuery (option : ValueOption) (value : String)
  | invalidValue (option : ValueOption) (value : String)
  | missingValue (option : ValueOption)
  | repeatedOption (option : ValueOption)
  | repeatedFlag (flag : Flag)
  | unexpectedValue (flag : Flag) (value : String)
  /-- The usage was asked for. -/
  | help
  /-- The version was asked for. -/
  | version
deriving DecidableEq

/-- How an option is named in messages. -/
def ValueOption.usage : ValueOption → String
  | backward => "--backward <BACKWARD>"
  | forward => "--forward <FORWARD>"
  | witnessPolicy => "--witness-policy <WITNESS_POLICY>"
  | readBase => "--read-base <READ_BASE>"
  | visualize => "--visualize <VISUALIZE>"

/-- How a flag is named in messages. The dots say that it may be repeated. -/
def Flag.usage : Flag → String
  | paths => "--paths"
  | debug => "--debug"
  | quiet => "--quiet"
  | verbose => "--verbose..."
  | help => "--help"
  | version => "--version"

def usageText : String := "Usage: demand-alias [OPTIONS] <FILE_PATH>"

def versionText : String := "demand-alias 0.1.0"

/-- A stretch of text that stands out on a terminal. -/
def highlighted (text : String) : String := "\x1b[33m" ++ text ++ "\x1b[0m"

/-- A message about arguments that are not acted upon. -/
def errorText (cause : String) : String :=
  s!"error: {cause}\n\nFor more information, try '" ++ highlighted "--help" ++ "'.\n"

namespace UsageError

/-- The message for a terminal. -/
def message : UsageError → String
  | missingFile => errorText "the following required arguments were not provided:\n  <FILE_PATH>"
  | unknownArgument arg => errorText s!"unexpected argument '{highlighted arg}' found"
  | invalidQuery option value =>
    errorText (s!"invalid value '{highlighted value}' for '{option.usage}': " ++
      QuerySpec.expected value)
  | invalidValue option value =>
    errorText s!"invalid value '{highlighted value}' for '{option.usage}'"
  | missingValue option =>
    errorText s!"a value is required for '{option.usage}' but none was supplied"
  | repeatedOption option =>
    errorText s!"the argument '{option.usage}' cannot be used multiple times"
  | repeatedFlag flag => errorText s!"the argument '{flag.usage}' cannot be used multiple times"
  | unexpectedValue flag value =>
    errorText (s!"unexpected value '{highlighted value}' for '{flag.usage}' found; " ++
      "no more were expected")
  | help => usageText
  | version => versionText

/-- The first line of what the message shows. -/
def report (e : UsageError) : String :=
  String.ofList (Text.firstLine (Text.plain e.message.toList))

end UsageError

namespace AnyOption

def ofLong? : String → Option AnyOption
  | "backward" => some (.value .backward)
  | "forward" => some (.value .forward)
  | "witness-policy" => some (.value .witnessPolicy)
  | "read-base" => some (.value .readBase)
  | "visualize" => some (.value .visualize)
  | "paths" => some (.flag .paths)
  | "debug" => some (.flag .debug)
  | "quiet" => some (.flag .quiet)
  | "verbose" => some (.flag .verbose)
  | "help" => some (.flag .help)
  | "version" => some (.flag .version)
  | _ => none

def ofShort? : Char → Option AnyOption
  | 'b' => some (.value .backward)
  | 'f' => some (.value .forward)
  | 'w' => some (.value .witnessPolicy)
  | 'r' => some (.value .readBase)
  | 'g' => some (.value .visualize)
  | 'p' => some (.flag .paths)
  | 'd' => some (.flag .debug)
  | 'q' => some (.flag .quiet)
  | 'v' => some (.flag .verbose)
  | 'h' => some (.flag .help)
  | 'V' => some (.flag .version)
  | _ => none

end AnyOption

def witnessPolicyText : WitnessPolicy → String
  | .ignore => "ignore"
  | .record => "record"

def witnessPolicyOfText? : String → Option WitnessPolicy
  | "ignore" => some .ignore
  | "record" => some .record
  | _ => none

def readBaseText : ReadBaseRule → String
  | .seedTransition => "seed-transition"
  | .emptyFieldOnly => "empty-field"

def readBaseOfText? : String → Option ReadBaseRule
  | "seed-transition" => some .seedTransition
  | "empty-field" => some .emptyFieldOnly
  | _ => none

/-- What was read so far. -/
structure Reading where
  filePath : Option String
  backward : List QuerySpec
  forward : List QuerySpec
  witnessPolicy : Option WitnessPolicy
  readBase : Option ReadBaseRule
  visualize : Option String
  paths : Bool
  debug : Bool
  quiet : Bool
  verbose : Nat
  /-- An option whose value was not checked or did not come yet -/
  pending : Option (ValueOption × Option String)
  /-- Whether `--` was read -/
  trailing : Bool

namespace Reading

def start : Reading where
  filePath := none
  backward := []
  forward := []
  witnessPolicy := none
  readBase := none
  visualize := none
  paths := false
  debug := false
  quiet := false
  verbose := 0
  pending := none
  trailing := false

/-! ## Values -/

def readQuery (option : ValueOption) (value : String) : Except UsageError QuerySpec :=
  match QuerySpec.ofText? value with
  | some spec => .ok spec
  | none => .error (.invalidQuery option value)

/-- One of a few possible values. An empty text counts as no value. -/
def readChoice {α : Type} (option : ValueOption) (ofText? : String → Option α) (value : String) :
    Except UsageError α :=
  match ofText? value with
  | some choice => .ok choice
  | none => .error (if value.isEmpty then .missingValue option else .invalidValue option value)

def once {α : Type} (option : ValueOption) (old : Option α) : Except UsageError Unit :=
  if old.isSome then .error (.repeatedOption option) else .ok ()

/-- Gives an option its value. -/
def setOption (r : Reading) (option : ValueOption) (value : String) : Except UsageError Reading :=
  match option with
  | .backward => do return { r with backward := r.backward ++ [← readQuery option value] }
  | .forward => do return { r with forward := r.forward ++ [← readQuery option value] }
  | .witnessPolicy => do
    once option r.witnessPolicy
    return { r with witnessPolicy := some (← readChoice option witnessPolicyOfText? value) }
  | .readBase => do
    once option r.readBase
    return { r with readBase := some (← readChoice option readBaseOfText? value) }
  | .visualize => do
    once option r.visualize
    return { r with visualize := some value }

/-- Checks what waits to be checked. -/
def settle (r : Reading) : Except UsageError Reading :=
  match r.pending with
  | none => .ok r
  | some (option, none) => .error (.missingValue option)
  | some (option, some value) => { r with pending := none }.setOption option value

/-! ## Options -/

/-- A flag may be given once, except for `verbose`, which counts up to 255. -/
def setFlag (r : Reading) (flag : Flag) : Except UsageError Reading := do
  let r ← r.settle
  match flag with
  | .paths => if r.paths then .error (.repeatedFlag flag) else return { r with paths := true }
  | .debug => if r.debug then .error (.repeatedFlag flag) else return { r with debug := true }
  | .quiet => if r.quiet then .error (.repeatedFlag flag) else return { r with quiet := true }
  | .verbose => return { r with verbose := min 255 (r.verbose + 1) }
  | .help => .error .help
  | .version => .error .version

/-- Begins an option, whose value is attached or still to come. -/
def beginOption (r : Reading) (option : ValueOption) (attached : Option String) :
    Except UsageError Reading := do
  let r ← r.settle
  match attached with
  | some value => r.setOption option value
  | none => return { r with pending := some (option, none) }

/-- An argument that began with two dashes. -/
def readLong (r : Reading) (name : String) (attached : Option String) :
    Except UsageError Reading :=
  match AnyOption.ofLong? name, attached with
  | none, _ => .error (.unknownArgument s!"--{name}")
  | some (.value option), attached => r.beginOption option attached
  | some (.flag flag), none => r.setFlag flag
  | some (.flag flag), some value => .error (.unexpectedValue flag value)

/-- The value attached to a short option, with or without an equals sign. -/
def attachedValue : List Char → Option String
  | [] => none
  | '=' :: rest => some (String.ofList rest)
  | rest => some (String.ofList rest)

/-- The letters of an argument that began with one dash. -/
def readShort (r : Reading) : List Char → Except UsageError Reading
  | [] => .ok r
  | c :: rest =>
    match AnyOption.ofShort? c with
    | none => .error (.unknownArgument s!"-{c}")
    | some (.value option) => r.beginOption option (attachedValue rest)
    | some (.flag flag) =>
      match r.setFlag flag with
      | .ok r => r.readShort rest
      | .error e => .error e

/-! ## Arguments -/

def readPositional (r : Reading) (arg : String) : Except UsageError Reading :=
  if r.filePath.isSome then .error (.unknownArgument arg)
  else do return { ← r.settle with filePath := some arg }

/-- An argument that is no option: the value of an option that waits for one, or the file. -/
def readPlain (r : Reading) (arg : String) : Except UsageError Reading :=
  match r.pending with
  | some (option, none) => .ok { r with pending := some (option, some arg) }
  | _ => r.readPositional arg

def readArgument (r : Reading) (arg : String) : Except UsageError Reading :=
  if r.trailing then r.readPositional arg
  else
    match arg.toList with
    | ['-', '-'] => .ok { r with trailing := true }
    | '-' :: '-' :: rest =>
      match Text.cut '=' rest with
      | some (name, value) => r.readLong (String.ofList name) (some (String.ofList value))
      | none => r.readLong (String.ofList rest) none
    | '-' :: c :: rest => r.readShort (c :: rest)
    | _ => r.readPlain arg

def finish (r : Reading) : Except UsageError Args := do
  let r ← r.settle
  match r.filePath with
  | none => .error .missingFile
  | some filePath =>
    return {
      filePath
      backward := r.backward
      forward := r.forward
      witnessPolicy := r.witnessPolicy.getD .ignore
      readBase := r.readBase.getD .seedTransition
      paths := r.paths
      visualize := r.visualize
      debug := r.debug
      quiet := r.quiet
      verbose := r.verbose }

end Reading

/-- Reads the arguments, without the name of the program. -/
def Args.read (args : List String) : Except UsageError Args := do
  (← args.foldlM Reading.readArgument .start).finish

end PointsTo.CommandLine
