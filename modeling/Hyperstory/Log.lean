/-! Records of what a run does. -/
namespace Hyperstory

inductive LogLevel where
  | debug
  | info
  | warning
  | error
  deriving DecidableEq, Repr

structure LogRecord where
  level : LogLevel
  message : String
  deriving DecidableEq, Repr

abbrev Log := List LogRecord

end Hyperstory
