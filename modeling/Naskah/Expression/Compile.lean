/-
  Compiling expressions.  A run of tokens is read from left to right; an operand may stand where
  none is complete, an operator where one is.  A name before a round bracket is a call, whose
  arguments are compiled when the call is read.
-/
import Naskah.Expression.Postfix
import Naskah.Expression.Rounds
import Naskah.Scope

namespace Naskah.Expression

def illegal {α : Type} (t : Token) (line : UInt32) : Except Diagnostic α :=
  refuse (.illegalToken t.text) line

/-- Tokens that an expression passes over. -/
def isSilent : Token → Bool
  | .punctuation (.quote _) | .punctuation .dollar => true
  | .bracket .openCurly | .bracket .closeCurly => true
  | _ => false

/-- The operator that a token is; two of them can be written as words. -/
def operator? : Token → Option Operator
  | .operator o => some o
  | .keyword .equal => some (.compare .eq)
  | .keyword .notEqual => some (.compare .ne)
  | _ => none

/-- What a token calls if a round bracket follows it. -/
inductive Callee
  | function (name : Literal)
  | print

def callee? : Token → Option Callee
  | .identifier l => some (.function l)
  | .keyword .print => some .print
  | _ => none

namespace Callee

/-- Requires that a function is declared. -/
def check (scope : Resolver) : Callee → Except Diagnostic Unit
  | function l => scope.check l.text l.line
  | print => .ok ()

/-- The operand of a call. -/
def operand (args : List (List Asm)) : Callee → Operand
  | function l => .call l.text args
  | print => .print args

end Callee

/-- The operand that is one token. -/
def simpleOperand (scope : Resolver) (line : UInt32) (t : Token) : Except Diagnostic Operand :=
  match t with
  | .identifier l => do
    scope.reference l.text l.line
    return .name l.text
  | .integer l =>
    match int64OfString? l.text with
    | some n => .ok (.const (.int n))
    | none => refuse (.integerOutOfRange l.text) line
  | .float l =>
    match Decimal.floatOfString? l.text with
    | some x => .ok (.const (.float x))
    | none => illegal t line
  | .boolean l => .ok (.const (.bool (l.text.toList.map Char.toLower == "benar".toList)))
  | .string s => .ok (.string s)
  | t => illegal t line

/-- Whether an operand is complete after the items read so far, the latest first. -/
def isComplete : List Item → Bool
  | .operand _ :: _ | .closeRound :: _ => true
  | _ => false

/-- Requires that the items read so far, the latest first, make an expression. -/
def complete (line : UInt32) (depth : Nat) (read : List Item) : Except Diagnostic (List Item) :=
  if 0 < depth then refuse .unclosedRound line
  else
    match read with
    | [] => refuse .noExpression line
    | .operator o :: _ => refuse (.noOperandAfter (Token.operator o).text) line
    | read => .ok read.reverse

/-- Reads items, inside `depth` open brackets and after the items `read`, the latest first. -/
def items (scope : Resolver) (line : UInt32) (depth : Nat) (read : List Item)
    (tokens : List Token) : Except Diagnostic (List Item) :=
  match tokens with
  | [] => complete line depth read
  | t :: ts =>
    if isSilent t then items scope line depth read ts
    else
      match operator? t with
      | some o =>
        if o = .negation ∨ !isComplete read then illegal t line
        else items scope line depth (.operator o :: read) ts
      | none =>
        match t, callee? t, ts with
        | .bracket .openRound, _, ts =>
          if isComplete read then illegal t line
          else items scope line (depth + 1) (.openRound :: read) ts
        | .bracket .closeRound, _, ts =>
          if depth = 0 then refuse (.unexpected ")") line
          else if !isComplete read then illegal t line
          else items scope line (depth - 1) (.closeRound :: read) ts
        | t, some callee, .bracket .openRound :: ts => do
          callee.check scope
          match _h : splitClose 0 ts with
          | none => refuse .unclosedRound line
          | some (inner, after) =>
            let args ← (splitCommas inner).attach.mapM fun ⟨part, _⟩ => do
              itemsCode (← items scope line 0 [] part)
            if isComplete read then illegal t line
            else items scope line depth (.operand (callee.operand args) :: read) after
        | t, _, ts => do
          let o ← simpleOperand scope line t
          if isComplete read then illegal t line
          else items scope line depth (.operand o :: read) ts
termination_by tokens.length
decreasing_by
  · exact Nat.lt_succ_self _
  · exact Nat.lt_succ_self _
  · exact Nat.lt_succ_self _
  · exact Nat.lt_succ_self _
  · next hp =>
    have hc := length_of_splitClose _h
    have hl := length_of_mem_splitCommas hp
    simp only [List.length_cons]
    omega
  · have hc := length_of_splitClose _h
    simp only [List.length_cons]
    omega
  · exact Nat.lt_succ_self _

/-- The code of an expression that ends on a line. -/
def compile (scope : Resolver) (line : UInt32) (tokens : List Token) :
    Except Diagnostic (List Asm) := do
  itemsCode (← items scope line 0 [] tokens)

/-- The code of each argument. -/
def compileArguments (scope : Resolver) (line : UInt32) (tokens : List Token) :
    Except Diagnostic (List (List Asm)) :=
  (splitCommas tokens).mapM (compile scope line)

end Naskah.Expression
