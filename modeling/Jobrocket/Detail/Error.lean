/-! # Printed errors

What a call hands to `print_error`, in place of the line it prints.
-/
namespace Jobrocket

/-- The arguments of `print_error`; `help` is missing in its two-argument form. -/
structure Error where
  source : String
  what : String
  help : Option String
  deriving DecidableEq, Repr

end Jobrocket
