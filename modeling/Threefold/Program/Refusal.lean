import Threefold.Report
import Threefold.Token

/-!
# Why tokens are not a program

The causes for which the parser refuses its input, with what is said about each. A cause holds the
token that was found, or none at the end of the text.
-/

namespace Threefold

namespace Program

/-- The parts of a program that end with, or need, a certain symbol or keyword. -/
inductive Construct
  | function
  | branch
  | elif
  | whileLoop
  | forLoop
  | repeatLoop
  | attempt
  | catching
  | throwing
  | parentheses
  | call
  | array
  | index
  deriving DecidableEq, Repr

/-- What a construct is called in messages. -/
def Construct.title : Construct → String
  | function => "Function Declaration"
  | branch => "If Statement"
  | elif => "Elif Branch"
  | whileLoop => "While Loop"
  | forLoop => "For Loop"
  | repeatLoop => "Repeat Loop"
  | attempt => "Try Statement"
  | catching => "Catch Branch"
  | throwing => "Throw Statement"
  | parentheses => "Parenthesised Expression"
  | call => "Function Call"
  | array => "Array Literal"
  | index => "Array Index"

/-- The things that are given by a name. -/
inductive NameRole
  | function
  | parameter
  | exception
  | payload
  deriving DecidableEq, Repr

/-- What a name stands for, in messages. -/
def NameRole.title : NameRole → String
  | function => "a function name after 'fun'"
  | parameter => "a parameter name"
  | exception => "an exception type"
  | payload => "a variable for the exception data"

/-- Why tokens are not a program. -/
inductive Refusal
  | noDeclaration (found : Option Token.Kind)
  | emptyBlock (found : Option Token.Kind)
  | noStatement (found : Option Token.Kind)
  | noName (role : NameRole) (found : Option Token.Kind)
  | missing (expected : Token.Kind) (construct : Construct) (found : Option Token.Kind)
  | danglingName (name : String) (found : Option Token.Kind)
  | danglingElement (name : String) (found : Option Token.Kind)
  | noExpression (found : Option Token.Kind)
  | noNumber (found : Option Token.Kind)
  | wideInteger (value : Int)
  /-- The descent has run out of steps, which no text makes it do. -/
  | exhausted (found : Option Token.Kind)
  deriving DecidableEq, Repr

namespace Refusal

/-- What is said about a refusal. -/
def message : Refusal → String
  | noDeclaration found =>
    "Expected a function declaration or a statement, found '" ++ Token.Kind.quote? found ++ "'"
  | emptyBlock found | noStatement found =>
    "Expected a statement, found '" ++ Token.Kind.quote? found ++ "'"
  | noName role found => "Expected " ++ role.title ++ ", found '" ++ Token.Kind.quote? found ++ "'"
  | missing expected _ found =>
    "Expected '" ++ expected.text ++ "', found '" ++ Token.Kind.quote? found ++ "'"
  | danglingName name found =>
    "Expected '(' or ':=' after '" ++ name ++ "', found '" ++ Token.Kind.quote? found ++ "'"
  | danglingElement name found =>
    "Expected ':=' after the indexed element of '" ++ name ++ "', found '" ++
      Token.Kind.quote? found ++ "'"
  | noExpression found => "Expected an expression, found '" ++ Token.Kind.quote? found ++ "'"
  | noNumber found => "Expected a number after '-', found '" ++ Token.Kind.quote? found ++ "'"
  | wideInteger value => "Integer literal " ++ toString value ++ " does not fit in 32 bits"
  | exhausted found => "Out of steps at '" ++ Token.Kind.quote? found ++ "'"

/-- The stage and the advice that go with the message. -/
def notes : Refusal → List Report.Note
  | noDeclaration _ =>
    [(.stage, "Program Parsing"),
      (.suggestion, "Functions are declared with 'fun name(args) begin ... end'")]
  | emptyBlock _ =>
    [(.stage, "Statement Parsing"), (.suggestion, "Use 'skip' for a block that does nothing")]
  | missing _ construct _ => [(.stage, construct.title)]
  | danglingName _ _ =>
    [(.stage, "Statement Parsing"),
      (.suggestion, "A statement starting with a name is either a call or an assignment")]
  | danglingElement _ _ =>
    [(.stage, "Statement Parsing"),
      (.suggestion, "Indexing on its own is not a statement, assign to the element or pass it to a function")]
  | noExpression _ => [(.stage, "Expression Parsing")]
  | noNumber _ =>
    [(.stage, "Expression Parsing"),
      (.suggestion, "Negate a value by subtracting it from zero: 0 - x")]
  | noStatement _ | noName _ _ | wideInteger _ | exhausted _ => []

/-- The report on a refusal at a place. -/
def report (e : Located Refusal) : Report :=
  ⟨.syntactic, e.value.message, e.location, e.value.notes⟩

end Refusal

end Program

end Threefold
