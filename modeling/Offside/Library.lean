import Offside.Library.Method
import Offside.Library.System
import Offside.Library.Arithmetic
import Offside.Library.Json
import Offside.Library.Csv

/-!
The standard registry: every builtin of the library, in the order of registration.
-/

namespace Offside.Library

def builtins : List Builtin :=
  core ++ methods ++ files ++ system ++ arithmetic ++ json ++ csv

def standard : Registry := Registry.empty.registerAll builtins

end Offside.Library
