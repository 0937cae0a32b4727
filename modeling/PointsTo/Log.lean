/-!
# Log records

What a component remarks about its work has a level. A reader who asks for one level also gets the
more severe ones.
-/

namespace PointsTo

inductive Level where
  | warn
  | info
  | debug
  | trace
deriving DecidableEq, Inhabited

namespace Level

def text : Level → String
  | warn => "WARN"
  | info => "INFO"
  | debug => "DEBUG"
  | trace => "TRACE"

/-- The less severe, the higher. -/
def rank : Level → Nat
  | warn => 1
  | info => 2
  | debug => 3
  | trace => 4

end Level

structure LogRecord where
  level : Level
  message : String
deriving DecidableEq

/-- Whether a record is shown when everything up to rank `verbosity` is. -/
def LogRecord.isShown (verbosity : Nat) (r : LogRecord) : Bool := r.level.rank ≤ verbosity

end PointsTo
