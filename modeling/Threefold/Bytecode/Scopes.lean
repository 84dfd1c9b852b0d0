import Threefold.Bytecode.Draft

/-!
# Exits of nested scopes

While a function is compiled, its parts nest, and each open part collects the jumps that leave it: by
an exception, or because it is done. A jump for an exception goes to the innermost part that wants
exceptions; a jump because a part is done goes to that part. Parts are closed from the inside, and
whoever closes one finds where its jumps are.
-/

namespace Threefold.Bytecode

/-- An open part of a function: its number, whether exceptions inside it end there, and the slots of
the jumps that leave it, in the order in which they were added. -/
structure Scope where
  id : Nat
  kind : ScopeKind
  catches : Bool
  throws : List Nat
  exits : List Nat
  deriving DecidableEq, Repr

/-- The open parts of a function, the innermost first, and the number of the next one. -/
structure Scopes where
  opened : List Scope
  next : Nat
  deriving DecidableEq, Repr

namespace Scopes

/-- No open part. -/
def empty : Scopes := ⟨[], 0⟩

/-- Open a part. Its number is the one that was next. -/
def push (s : Scopes) (kind : ScopeKind) (catches : Bool) : Scopes :=
  ⟨⟨s.next, kind, catches, [], []⟩ :: s.opened, s.next + 1⟩

/-- Close the innermost part, which should have the given number. -/
def pop (id : Nat) : EStateM Mistake Scopes Scope := fun s =>
  match s.opened with
  | [] => .error (.noScope id) s
  | inner :: rest =>
    if inner.id = id then .ok inner { s with opened := rest }
    else .error (.wrongScope id inner.id inner.kind) { s with opened := rest }

/-- The open parts after a change to the first of them with a property, if there is one. -/
def change? (p : Scope → Bool) (f : Scope → Scope) : List Scope → Option (List Scope)
  | [] => none
  | s :: rest => if p s then some (f s :: rest) else (change? p f rest).map (s :: ·)

/-- Add a jump that an exception takes. -/
def addThrow (slot : Nat) : EStateM Mistake Scopes Unit := fun s =>
  match change? (·.catches) (fun c => { c with throws := c.throws ++ [slot] }) s.opened with
  | some opened => .ok () { s with opened }
  | none => .error (.uncaughtThrow slot) s

/-- Add a jump that is taken when the part with a given number is done. -/
def addExit (id slot : Nat) : EStateM Mistake Scopes Unit := fun s =>
  match change? (·.id = id) (fun c => { c with exits := c.exits ++ [slot] }) s.opened with
  | some opened => .ok () { s with opened }
  | none => .error (.closedScope id) s

/-- Whether every part is closed. -/
def isEmpty (s : Scopes) : Bool :=
  s.opened.isEmpty

end Scopes

end Threefold.Bytecode
