import HornSyntax.Text

/-!
Entries of the log. Each part of the checker says which entries it writes, and
the outer layer decides where they go.
-/

namespace HornSyntax

inductive LogLevel where
  | trace
  | debug
  | info
  deriving DecidableEq

/-- The part of the checker that writes an entry. -/
inductive LogSource where
  | parsing
  | recovery
  | directory
  | commandLine
  deriving DecidableEq

structure LogEntry where
  level : LogLevel
  source : LogSource
  text : Text
  deriving DecidableEq

/-- Whether entries of a level are shown at a verbosity. -/
def LogLevel.shownAt : LogLevel → Nat → Bool
  | info, verbosity => 1 ≤ verbosity
  | debug, verbosity => 2 ≤ verbosity
  | trace, verbosity => 3 ≤ verbosity

end HornSyntax
