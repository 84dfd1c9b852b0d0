/-!
# Signatures

A function is known by its name and the number of its parameters. Two functions may share a name
if they differ in that number.
-/

namespace Threefold

/-- The name of a function and the number of its parameters. -/
structure Signature where
  name : String
  arity : Nat
  deriving DecidableEq, Repr, Inhabited

namespace Signature

/-- A signature as it is written: the name, a slash, the number of parameters. -/
def text (s : Signature) : String :=
  s.name ++ "/" ++ toString s.arity

/-- Signatures in order of name, and of arity under one name. -/
def le (s t : Signature) : Bool :=
  s.name < t.name || (s.name == t.name && s.arity ≤ t.arity)

end Signature

end Threefold
