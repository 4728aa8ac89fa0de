/-
  Diagnostics: why a source is refused, and what the compiler says when one of its own assumptions
  does not hold.  Each cause is a constructor; its wording is in one place.
-/
import Naskah.Assembly
import Naskah.Block.Clause

namespace Naskah

/-- What is wrong with a source. -/
inductive Refusal
  | illegalName (word : String)
  | expected (wanted found : String)
  | expectedAtEnd (wanted : String)
  | illegalToken (text : String)
  | unexpected (text : String)
  | unclosedRound
  | noExpression
  | noOperandAfter (operator : String)
  | integerOutOfRange (text : String)
  | alreadyDeclared (name : String)
  | notDeclared (name : String)
  | constantAssigned (name : String)
  | functionAlreadyDeclared (name : String)
  | functionNotDeclared (name : String)
  | unsupported (keyword : String)
  | entryNotOutermost
  | entryWithParams
  | resultOutsideFunction
  | outsideLoop (keyword : String)
  | noNameAfter (keyword : String)
  | constantWithoutValue (name : String)
  | noEntry
  deriving DecidableEq

def Refusal.message : Refusal → String
  | illegalName word => s!"Illegal identifier name: {word}"
  | expected wanted found => s!"Expecting '{wanted}' but got '{found}'"
  | expectedAtEnd wanted => s!"Expecting '{wanted}' but have reached the End Of File"
  | illegalToken text => s!"Illegal token '{text}'"
  | unexpected text => s!"Unexpected '{text}'"
  | unclosedRound => "Expecting ')'"
  | noExpression => "Expression not found"
  | noOperandAfter operator => s!"Expecting expression after '{operator}'"
  | integerOutOfRange text => s!"Integer literal '{text}' is out of range"
  | alreadyDeclared name => s!"Identifier '{name}' is already declared before"
  | notDeclared name => s!"Identifier '{name}' has not declared yet"
  | constantAssigned name => s!"Identifier '{name}' is a constant and cannot be reassigned"
  | functionAlreadyDeclared name => s!"'{name}' function is already declared before"
  | functionNotDeclared name => s!"'{name}' function is not declared anywhere"
  | unsupported keyword => s!"'{keyword}' statement is not supported yet"
  | entryNotOutermost => "'utama' function must be declared at the top level"
  | entryWithParams => "Entrypoint 'utama' does not accept parameters"
  | resultOutsideFunction => "'hasilkan' statement is only allowed inside a function"
  | outsideLoop keyword => s!"'{keyword}' statement is only allowed inside a loop"
  | noNameAfter keyword => s!"Expecting identifier after '{keyword}'"
  | constantWithoutValue name => s!"Constant '{name}' must be initialized"
  | noEntry => "Entrypoint is not exist, you should create it first using `utama` function"

/-- Which assumption of the compiler does not hold. -/
inductive Breach
  | roundWithoutFrame
  | curlyWithoutBuilder
  | addedToChain (state : ChainState)
  | chainEmitted (state : ChainState)
  | mismatchedGuard (kind : ClauseKind)
  | bodyWithoutString
  | holeWithoutRun
  | holeWithoutFunction
  | holeInNamedFunction
  | holeWithoutString
  | orphanOperator (text : String)
  | leftoverOperands
  | tooManyArguments (count : Nat)
  | assembly (e : AssemblyError)
  deriving DecidableEq

def Breach.message : Breach → String
  | roundWithoutFrame => "Round bracket closed without a frame"
  | curlyWithoutBuilder => "Curly bracket closed without a builder"
  | addedToChain state => s!"Instructions emitted into a condition chain in state {state.name}"
  | chainEmitted state => s!"Condition chain emitted in state {state.name}"
  | mismatchedGuard kind => s!"Condition clause {kind.name} pushed with a mismatched guard"
  | bodyWithoutString => "String body without an open string"
  | holeWithoutRun => "Interpolation closed without a run"
  | holeWithoutFunction => "Interpolation closed without its anonymous function"
  | holeInNamedFunction => "Interpolation closed a named function"
  | holeWithoutString => "Interpolation outside a string"
  | orphanOperator text =>
    s!"Orphan '{text}' token without any expression in bytecode expression evaluator"
  | leftoverOperands => "Expression evaluator left more than one value on the stack"
  | tooManyArguments count => s!"Call with {count} arguments exceeds 255"
  | assembly e => e.message

/-- What a compilation ends with when there is no program.  A refusal that is noticed after the
    text ran out has no line. -/
inductive Diagnostic
  | refused (why : Refusal) (line : Option UInt32)
  | broken (what : Breach)
  deriving DecidableEq

/-- A diagnostic in words. -/
inductive Report
  | refused (message : String) (line : Option UInt32)
  | broken (message : String)
  deriving DecidableEq

namespace Report

def message : Report → String
  | refused message _ | broken message => message

def line? : Report → Option UInt32
  | refused _ line => line
  | broken _ => none

/-- The text that is shown to a user. -/
def text : Report → String
  | refused message none => s!"Error: {message}"
  | refused message (some line) => s!"Error: {message} (on line number {line})"
  | broken message =>
    s!"[!] Compiler Error: {message}\n\n" ++
      "--+--(Please file an issue in the github repository if you found this)\n--+--"

end Report

def Diagnostic.report : Diagnostic → Report
  | refused why line => .refused why.message line
  | broken what => .broken what.message

/-- A refusal on a line. -/
def refuse {α : Type} (why : Refusal) (line : UInt32) : Except Diagnostic α :=
  .error (.refused why (some line))

/-- A refusal after the end of the text. -/
def refuseAtEnd {α : Type} (why : Refusal) : Except Diagnostic α :=
  .error (.refused why none)

/-- A failure of the compiler. -/
def broken {α : Type} (what : Breach) : Except Diagnostic α :=
  .error (.broken what)

end Naskah
