/-!
# Platforms

Machine code is the same on every platform but for the names that the linker sees: on one of them
it expects an underscore in front.
-/

namespace Threefold

/-- The platforms that machine code is written for. -/
inductive Platform
  | unix
  | windows
  deriving DecidableEq, Repr, Inhabited

/-- The name that the linker of a platform expects for a symbol. -/
def Platform.decorate : Platform → String → String
  | .unix, s => s
  | .windows, s => "_" ++ s

end Threefold
