import Threefold.Program
import Threefold.Program.Refusal

/-!
# Reading programs

A recursive descent over the tokens of a text. Binary operators come in five levels, from
disjunction, which binds least, to products; the operators of a level group to the left, except
that comparisons do not group at all. Indexing is written for the built-in array functions, and the
loops with a counter and with a condition at the end are written for the plain loop. Statements
outside of functions make up the entry function, which is declared last.

The descent is bounded by a number of steps that the length of the text determines and no text
exhausts.
-/

namespace Threefold

namespace Program

/-- A step of the descent: it takes tokens from the front, or refuses them at a place. -/
abbrev Parser := StateT Tokens (Except (Located Refusal))

namespace Parser

/-- The token in front, or none at the end of the text. -/
def current? : Parser (Option Token.Kind) :=
  return (← get).current?

/-- The token behind the one in front. -/
def next? : Parser (Option Token.Kind) :=
  return (← get).advance.current?

/-- The place of the token in front. -/
def here : Parser Location :=
  return (← get).location

/-- Take the token in front. -/
def advance : Parser Unit :=
  modify Tokens.advance

/-- Refuse the token in front. -/
def refuse {α : Type} (why : Option Token.Kind → Refusal) : Parser α := do
  throw ⟨why (← current?), ← here⟩

/-- Take a token that must be in front. -/
def expect (kind : Token.Kind) (construct : Construct) : Parser Unit := do
  if (← current?) = some kind then advance
  else refuse (.missing kind construct)

/-- Take a symbol that must be in front. -/
def expectSymbol (s : Token.Symbol) : Construct → Parser Unit :=
  expect (.symbol s)

/-- Take a keyword that must be in front. -/
def expectKeyword (k : Token.Keyword) : Construct → Parser Unit :=
  expect (.keyword k)

/-- Take a name that must be in front. -/
def expectName (role : NameRole) : Parser String := do
  match ← current? with
  | some (.name x) => advance; return x
  | _ => refuse (.noName role)

/-- Whether a symbol is in front. -/
def atSymbol (s : Token.Symbol) : Parser Bool :=
  return (← current?) = some (.symbol s)

/-- Whether a keyword is in front. -/
def atKeyword (k : Token.Keyword) : Parser Bool :=
  return (← current?) = some (.keyword k)

/-- The word for an integer that must fit into one. -/
def constant (value : Int) (location : Location) : Parser Expr :=
  if Int32.minValue.toInt ≤ value ∧ value ≤ Int32.maxValue.toInt then return .const (.ofInt value)
  else throw ⟨.wideInteger value, location⟩

/-- The levels of binary operators, from the loosest to the tightest. -/
inductive Level
  | disjunction
  | conjunction
  | comparison
  | sum
  | product
  deriving DecidableEq, Repr

namespace Level

/-- The level of the operands, unless they are terms. -/
def tighter? : Level → Option Level
  | disjunction => some conjunction
  | conjunction => some comparison
  | comparison => some sum
  | sum => some product
  | product => none

/-- The operator of a level that a symbol denotes. -/
def operator? : Level → Token.Symbol → Option BinaryOp
  | disjunction, .or => some .or
  | conjunction, .and => some .and
  | comparison, .equal => some .eq
  | comparison, .notEqual => some .ne
  | comparison, .less => some .lt
  | comparison, .greater => some .gt
  | comparison, .lessEqual => some .le
  | comparison, .greaterEqual => some .ge
  | sum, .plus => some .plus
  | sum, .minus => some .minus
  | product, .times => some .times
  | product, .divide => some .div
  | product, .remainder => some .rem
  | _, _ => none

/-- Whether operators of a level can follow each other. -/
def groups : Level → Bool
  | comparison => false
  | _ => true

end Level

/-- The operator of a level that is in front. -/
def operator? (level : Level) : Parser (Option BinaryOp) := do
  match ← current? with
  | some (.symbol s) => return level.operator? s
  | _ => return none

/-- The elements of an array at the given indices, one inside the other. -/
def applyIndices (array : Expr) (indices : List Expr) (location : Location) : Expr :=
  indices.foldl (fun a i => (Call.named "arrget" [a, i] location).expr) array

mutual

/-- An expression whose loosest operators are of a level. -/
def operation (fuel : Nat) (level : Level) : Parser Expr :=
  match fuel with
  | 0 => refuse .exhausted
  | fuel + 1 => do
    let left ← operand fuel level
    operationTail fuel level left

/-- An operand of the operators of a level. -/
def operand (fuel : Nat) (level : Level) : Parser Expr :=
  match fuel with
  | 0 => refuse .exhausted
  | fuel + 1 =>
    match level.tighter? with
    | some tighter => operation fuel tighter
    | none => term fuel

/-- What follows a first operand: operators of a level, each with its right operand. -/
def operationTail (fuel : Nat) (level : Level) (left : Expr) : Parser Expr :=
  match fuel with
  | 0 => refuse .exhausted
  | fuel + 1 => do
    match ← operator? level with
    | none => return left
    | some op => do
      advance
      let right ← operand fuel level
      if level.groups then operationTail fuel level (.binary op left right)
      else return .binary op left right

/-- A term with the indices that follow it. -/
def term (fuel : Nat) : Parser Expr :=
  match fuel with
  | 0 => refuse .exhausted
  | fuel + 1 => do
    let location ← here
    let e ← atom fuel
    let is ← indices fuel
    return applyIndices e is location

/-- A term without indices, except that a negation takes those of its operand. -/
def atom (fuel : Nat) : Parser Expr :=
  match fuel with
  | 0 => refuse .exhausted
  | fuel + 1 => do
    let location ← here
    match ← current? with
    | none => refuse .noExpression
    | some (.integer n) => do
      advance
      constant n location
    | some (.character c) => do
      advance
      return .const (.ofNat c.toNat)
    | some (.string s) => do
      advance
      return .string s
    | some (.name x) => do
      if (← next?) = some (.symbol .openParen) then
        return (← call fuel x).expr
      else
        advance
        return .var x
    | some (.keyword k) =>
      match k with
      | .true_ => do
        advance
        return .const 1
      | .false_ => do
        advance
        return .const 0
      | _ => refuse .noExpression
    | some (.symbol s) =>
      match s with
      | .minus => do
        advance
        match ← current? with
        | some (.integer n) => do
          advance
          constant (-n) location
        | _ => refuse .noNumber
      | .not => do
        advance
        return .unary .not (← term fuel)
      | .openParen => do
        advance
        let e ← operation fuel .disjunction
        expectSymbol .closeParen .parentheses
        return e
      | .openSquare => do
        advance
        let es ← items fuel .closeSquare
        expectSymbol .closeSquare .array
        return .array false es
      | .openCurly => do
        advance
        let es ← items fuel .closeCurly
        expectSymbol .closeCurly .array
        return .array true es
      | _ => refuse .noExpression

/-- A call, from the name in front to the closing parenthesis. -/
def call (fuel : Nat) (name : String) : Parser Call :=
  match fuel with
  | 0 => refuse .exhausted
  | fuel + 1 => do
    let location ← here
    advance
    advance
    let es ← items fuel .closeParen
    expectSymbol .closeParen .call
    return Call.named name es location

/-- The expressions between two brackets, with commas between them. -/
def items (fuel : Nat) (closing : Token.Symbol) : Parser (List Expr) :=
  match fuel with
  | 0 => refuse .exhausted
  | fuel + 1 => do
    if ← atSymbol closing then return []
    else itemList fuel

/-- One or more expressions with commas between them. -/
def itemList (fuel : Nat) : Parser (List Expr) :=
  match fuel with
  | 0 => refuse .exhausted
  | fuel + 1 => do
    let e ← operation fuel .disjunction
    if ← atSymbol .comma then
      advance
      return e :: (← itemList fuel)
    else return [e]

/-- The indices in front, each in its brackets. -/
def indices (fuel : Nat) : Parser (List Expr) :=
  match fuel with
  | 0 => refuse .exhausted
  | fuel + 1 => do
    if ← atSymbol .openSquare then
      advance
      let e ← operation fuel .disjunction
      expectSymbol .closeSquare .index
      return e :: (← indices fuel)
    else return []

end

/-- An expression. -/
def expression (fuel : Nat) : Parser Expr :=
  operation fuel .disjunction

/-- Whether a token can be the first of a statement. -/
def startsStatement : Option Token.Kind → Bool
  | some (.name _) => true
  | some (.keyword k) =>
    match k with
    | .skip | .if_ | .while_ | .for_ | .repeat_ | .return_ | .try_ | .throw_ => true
    | _ => false
  | _ => false

/-- Take a semicolon if there is one. -/
def skipSemicolon : Parser Unit := do
  if ← atSymbol .semicolon then advance

/-- A statement that starts with a name: a call, an assignment, or an assignment to an element. -/
def nameStatement (fuel : Nat) (name : String) : Parser Stmt := do
  let location ← here
  match ← next? with
  | some (.symbol .openParen) => return .perform (← call fuel name)
  | some (.symbol .assign) => do
    advance
    advance
    return .assign name (← expression fuel)
  | some (.symbol .openSquare) => do
    advance
    advance
    let first ← expression fuel
    expectSymbol .closeSquare .index
    let rest ← indices fuel
    if ← atSymbol .assign then advance
    else refuse (.danglingElement name)
    let value ← expression fuel
    let array := applyIndices (.var name) (first :: rest).dropLast location
    let index := (first :: rest).getLast (List.cons_ne_nil first rest)
    return .perform (.named "arrset" [array, index, value] location)
  | _ => do
    advance
    refuse (.danglingName name)

/-- A type of exception and an expression, in parentheses. -/
def throwing (fuel : Nat) : Parser Stmt := do
  advance
  expectSymbol .openParen .throwing
  let exception ← expectName .exception
  let payload ← expression fuel
  expectSymbol .closeParen .throwing
  return .throwing exception payload

mutual

/-- A statement. -/
def statement (fuel : Nat) : Parser Stmt :=
  match fuel with
  | 0 => refuse .exhausted
  | fuel + 1 => do
    match ← current? with
    | some (.name x) => nameStatement fuel x
    | some (.keyword .skip) => do
      advance
      return .skip
    | some (.keyword .if_) => do
      advance
      let s ← branches fuel .branch
      expectKeyword .fi .branch
      return s
    | some (.keyword .while_) => do
      advance
      let condition ← expression fuel
      expectKeyword .do_ .whileLoop
      let body ← block fuel
      expectKeyword .od .whileLoop
      return .loop condition body
    | some (.keyword .for_) => do
      advance
      let start ← statement fuel
      expectSymbol .comma .forLoop
      let condition ← expression fuel
      expectSymbol .comma .forLoop
      let step ← statement fuel
      expectKeyword .do_ .forLoop
      let body ← block fuel
      expectKeyword .od .forLoop
      return .chain start (.loop condition (.chain body step))
    | some (.keyword .repeat_) => do
      advance
      let body ← block fuel
      expectKeyword .until_ .repeatLoop
      let condition ← expression fuel
      return .chain body (.loop (.unary .not condition) body)
    | some (.keyword .return_) => do
      advance
      return .leave (← expression fuel)
    | some (.keyword .try_) => do
      advance
      let body ← block fuel
      let handlers ← catches fuel
      let last ← cleanup fuel
      expectKeyword .yrt .attempt
      return .attempt body handlers last
    | some (.keyword .throw_) => throwing fuel
    | _ => refuse .noStatement

/-- One or more statements, each with an optional semicolon behind it, as one statement. -/
def block (fuel : Nat) : Parser Stmt :=
  match fuel with
  | 0 => refuse .exhausted
  | fuel + 1 => do
    if startsStatement (← current?) then return .ofList (← statements fuel)
    else refuse .emptyBlock

/-- The statements in front, each with an optional semicolon behind it. -/
def statements (fuel : Nat) : Parser (List Stmt) :=
  match fuel with
  | 0 => refuse .exhausted
  | fuel + 1 => do
    if startsStatement (← current?) then
      let s ← statement fuel
      skipSemicolon
      return s :: (← statements fuel)
    else return []

/-- A condition with its branch, and the branches for when it does not hold. -/
def branches (fuel : Nat) (construct : Construct) : Parser Stmt :=
  match fuel with
  | 0 => refuse .exhausted
  | fuel + 1 => do
    let condition ← expression fuel
    expectKeyword .then_ construct
    let yes ← block fuel
    if ← atKeyword .elif then
      advance
      return .branch condition yes (← branches fuel .elif)
    else if ← atKeyword .else_ then
      advance
      return .branch condition yes (← block fuel)
    else return .branch condition yes .skip

/-- The catch branches in front. -/
def catches (fuel : Nat) : Parser (List Catch) :=
  match fuel with
  | 0 => refuse .exhausted
  | fuel + 1 => do
    if ← atKeyword .catch_ then
      advance
      expectSymbol .openParen .catching
      let exception ← expectName .exception
      let target ← expectName .payload
      expectSymbol .closeParen .catching
      let body ← block fuel
      return .on exception target body :: (← catches fuel)
    else return []

/-- The statements that run in any case, if there are any. -/
def cleanup (fuel : Nat) : Parser (Option Stmt) :=
  match fuel with
  | 0 => refuse .exhausted
  | fuel + 1 => do
    if ← atKeyword .finally_ then
      advance
      return some (← block fuel)
    else return none

end

/-- One or more parameter names with commas between them. -/
def parameterList (fuel : Nat) : Parser (List String) :=
  match fuel with
  | 0 => refuse .exhausted
  | fuel + 1 => do
    let x ← expectName .parameter
    if ← atSymbol .comma then
      advance
      return x :: (← parameterList fuel)
    else return [x]

/-- The declaration of a function. -/
def function (fuel : Nat) : Parser Function := do
  let location ← here
  advance
  let name ← expectName .function
  expectSymbol .openParen .function
  let parameters ← if ← atSymbol .closeParen then pure [] else parameterList fuel
  expectSymbol .closeParen .function
  expectKeyword .begin_ .function
  let body ← block fuel
  expectKeyword .end_ .function
  return ⟨name, parameters, body, location⟩

/-- The declarations in front up to the end of the text, and the statements between them. -/
def declarations (fuel : Nat) : Parser (List Function × List Stmt) :=
  match fuel with
  | 0 => refuse .exhausted
  | fuel + 1 => do
    match ← current? with
    | none => return ([], [])
    | some (.keyword .fun_) => do
      let f ← function fuel
      let (fs, ss) ← declarations fuel
      return (f :: fs, ss)
    | k =>
      if startsStatement k then do
        let s ← statement fuel
        skipSemicolon
        let (fs, ss) ← declarations fuel
        return (fs, s :: ss)
      else refuse .noDeclaration

/-- A bound on the steps of the descent over a text. -/
def budget (ts : Tokens) : Nat :=
  16 * (ts.list.length + 2)

end Parser

/-- The function that runs the statements outside of functions. -/
def entryFunction (name : String) (statements : List Stmt) : Function :=
  ⟨name, [], .ofList statements, .unknown⟩

/-- The program that tokens denote, and the name of its entry function. -/
def ofTokens (ts : Tokens) (entry : String) : Except (Located Refusal) Program := do
  let ((functions, statements), _) ← (Parser.declarations (Parser.budget ts)).run ts
  let main := entryFunction entry statements
  return ⟨functions ++ [main], main.signature⟩

end Program

/-- The expression in front, and the tokens behind it. -/
def Expr.ofTokens (ts : Tokens) : Except (Located Program.Refusal) (Expr × Tokens) :=
  (Program.Parser.expression (Program.Parser.budget ts)).run ts

end Threefold
