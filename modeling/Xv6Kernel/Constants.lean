import Mathlib.Tactic

/-!
# Constants that the kernel and its programs share
-/

namespace Xv6Kernel

/-- The kernel is mapped from here on. -/
abbrev kernbase : ℕ := 2 ^ 31

abbrev nul : Char := '\x00'

end Xv6Kernel
