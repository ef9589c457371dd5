import Mathlib.Data.Nat.Notation

/-!
# The limit on allocations

`GNUNET_malloc` and `GNUNET_strdup` stop the program when they are asked for more than
`GNUNET_MAX_MALLOC_CHECKED` bytes (`common_allocation.c`).
-/

namespace Gnunet.Util

def maxMallocChecked : ℕ := 1024 * 1024 * 40

end Gnunet.Util
