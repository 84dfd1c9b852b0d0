import Threefold.Program.Binding
import Threefold.Program.Parser
import Threefold.Token.Lexer

/-!
# Programs from source text

The steps from text to a bound program. Each step is also of use by itself; here their failures
come in one form, as reports that name the file.
-/

namespace Threefold

/-- The tokens of a file. -/
def Tokens.load (file source : String) : Except Report Tokens :=
  (Tokens.ofSource file source).mapError fun e => (Token.Malformed.report e).inFile file

namespace Program

/-- The name of the function that runs the statements outside of functions. -/
def entryName : String := "main"

/-- The program that a file holds, with its calls as they are written. -/
def parse (file source : String) (entry : String) : Except Report Program := do
  let ts ← Tokens.load file source
  (ofTokens ts entry).mapError fun e => (Refusal.report e).inFile file

/-- The program that a file holds, with its calls bound. -/
def load (file source : String) (entry : String) : Except Report Program := do
  let p ← parse file source entry
  p.bind.mapError fun e => (Unbound.report e).inFile file

end Program

end Threefold
