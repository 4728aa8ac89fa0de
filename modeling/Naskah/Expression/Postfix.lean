/-
  From operands and operators between them to code.  The items of an expression are brought into
  the order in which a stack evaluates them, each operator after its operands, and then joined.
-/
import Naskah.Expression.Operand

namespace Naskah.Expression

/-- An item of an expression as it is written. -/
inductive Item
  | operand (o : Operand)
  | operator (o : Operator)
  | openRound
  | closeRound

/-- An item of an expression in the order of evaluation. -/
inductive Postfix
  | operand (o : Operand)
  | operator (o : Operator)

/-- The operators in front of the innermost open bracket that bind at least as tightly as `p`. -/
def released (p : Nat) : List (Option Operator) → List Operator
  | some o :: pending => if p ≤ o.precedence then o :: released p pending else []
  | _ => []

/-- Brings items into the order of evaluation.  Operators wait, the latest first, until a looser
    one, a closing bracket or the end releases them; `none` is an open bracket. -/
def toPostfix : List (Option Operator) → List Item → List Postfix
  | pending, [] => pending.filterMap fun o => o.map .operator
  | pending, .operand o :: items => .operand o :: toPostfix pending items
  | pending, .openRound :: items => toPostfix (none :: pending) items
  | pending, .closeRound :: items =>
    let out := released 0 pending
    out.map .operator ++ toPostfix (pending.drop (out.length + 1)) items
  | pending, .operator o :: items =>
    let out := released o.precedence pending
    out.map .operator ++ toPostfix (some o :: pending.drop out.length) items

/-- The instruction of an operator. -/
def operatorInstr : Operator → Except Diagnostic Asm
  | .binary op => .ok (.op (.binary op))
  | .compare c => .ok (.op (.compare c))
  | .negation => broken (.orphanOperator (Token.operator .negation).text)

/-- Adds an item to the code of the operands so far, the latest first. -/
def combine (groups : List (List Asm)) : Postfix → Except Diagnostic (List (List Asm))
  | .operand o => o.code.map (· :: groups)
  | .operator o =>
    match groups with
    | r :: l :: groups => (operatorInstr o).map fun i => (l ++ r ++ [i]) :: groups
    | _ => broken (.orphanOperator (Token.operator o).text)

/-- The code of an expression. -/
def itemsCode (items : List Item) : Except Diagnostic (List Asm) := do
  match ← (toPostfix [] items).foldlM combine [] with
  | [code] => .ok code
  | _ => broken .leftoverOperands

end Naskah.Expression
