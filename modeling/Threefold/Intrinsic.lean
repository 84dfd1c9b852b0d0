import Threefold.Signature
import Threefold.Value

/-!
# The built-in functions

The catalogue of the functions that every executor provides: their names and arities, the symbol
under which machine code calls them, and what a caller may rely on about their results. What they
do is defined with the heap they work on.
-/

namespace Threefold

/-- The built-in functions. -/
inductive Intrinsic
  | read
  | write
  | strMake
  | strCmp
  | strGet
  | strDup
  | strSet
  | strCat
  | strSub
  | strLen
  | arrMake
  | arrMakeBoxed
  | arrGet
  | arrSet
  | arrLen
  deriving DecidableEq, Repr

namespace Intrinsic

/-- Every built-in function. -/
def all : List Intrinsic :=
  [read, write, strMake, strCmp, strGet, strDup, strSet, strCat, strSub, strLen, arrMake,
    arrMakeBoxed, arrGet, arrSet, arrLen]

/-- The name by which programs call it. -/
def name : Intrinsic → String
  | read => "read"
  | write => "write"
  | strMake => "strmake"
  | strCmp => "strcmp"
  | strGet => "strget"
  | strDup => "strdup"
  | strSet => "strset"
  | strCat => "strcat"
  | strSub => "strsub"
  | strLen => "strlen"
  | arrMake => "arrmake"
  | arrMakeBoxed => "Arrmake"
  | arrGet => "arrget"
  | arrSet => "arrset"
  | arrLen => "arrlen"

/-- The name by which machine code calls it. Linkers that ignore case need the two array makers
told apart. -/
def nativeSymbol : Intrinsic → String
  | arrMakeBoxed => "arrmake_boxed"
  | i => i.name

/-- The number of its arguments. -/
def arity : Intrinsic → Nat
  | read => 0
  | write | strDup | strLen | arrLen => 1
  | strMake | strCmp | strGet | strCat | arrMake | arrMakeBoxed | arrGet => 2
  | strSet | strSub | arrSet => 3

/-- The signature under which programs call it. -/
def signature (i : Intrinsic) : Signature :=
  ⟨i.name, i.arity⟩

/-- The built-in function with a given signature. -/
def ofSignature? (s : Signature) : Option Intrinsic :=
  all.find? (·.signature = s)

/-- Whether it can find an index out of bounds. -/
def canThrow : Intrinsic → Bool
  | strGet | strSet | strSub | arrGet | arrSet => true
  | _ => false

/-- The tag of its result. An element of an array has the tag it was stored with, which only the
run knows. -/
def resultTag? : Intrinsic → Option Tag
  | arrMake => some .scalarArray
  | arrMakeBoxed => some .boxedArray
  | arrGet => none
  | _ => some .scalar

/-- Whether its result is a new array that holds one reference for the caller. -/
def returnsOwned : Intrinsic → Bool
  | arrMake | arrMakeBoxed => true
  | _ => false

/-- Whether its result may still belong to an array, so that the caller has to take a reference
of its own. -/
def retainsResult : Intrinsic → Bool
  | arrGet => true
  | _ => false

/-- The exception that built-in functions throw, and that no program need throw itself. -/
def outOfBounds : String := "IndexOutOfBounds"

end Intrinsic

end Threefold
