/-
  Operands of an expression and the code that puts their value on the stack.
-/
import Naskah.Diagnostic
import Naskah.Token

namespace Naskah.Expression

/-- What an operator can be applied to.  The arguments of a call are compiled already. -/
inductive Operand
  | const (v : Value)
  | string (s : StringLiteral)
  | name (n : String)
  | call (function : String) (args : List (List Asm))
  | print (args : List (List Asm))

/-- Code that joins the values of the groups to one text.  Up to `2 ^ 32 - 1` groups can be counted
    in 32 bits. -/
def joinCode (groups : List (List Asm)) : List Asm :=
  groups.flatten ++ [.op (.buildString groups.length)]

/-- The text of a part of a string that is no hole. -/
def partText : StringPart → String
  | .text s => s
  | .hole _ => ""

def isText : StringPart → Bool
  | .text _ => true
  | .hole _ => false

/-- The code of a part of a string; an empty text needs none. -/
def partCode? : StringPart → Option (List Asm)
  | .text s => if s.isEmpty then none else some [.op (.loadConst (.string s))]
  | .hole code => some code

/-- The code of a string: one constant if it has no holes. -/
def stringCode (s : StringLiteral) : List Asm :=
  if s.parts.all isText then [.op (.loadConst (.string (String.join (s.parts.map partText))))]
  else joinCode (s.parts.filterMap partCode?)

/-- The code of an operand.  A call has at most 255 arguments; printing takes any number of them
    and joins them to one. -/
def Operand.code : Operand → Except Diagnostic (List Asm)
  | const v => .ok [.op (.loadConst v)]
  | string s => .ok (stringCode s)
  | name n => .ok [.op (.loadName n)]
  | call f args =>
    if args.length ≤ 255 then
      .ok (.op (.loadName f) :: args.flatten ++ [.op (.call args.length)])
    else broken (.tooManyArguments args.length)
  | print args =>
    .ok (.op (.loadName Builtin.print.name) :: joinCode args ++ [.op (.call 1)])

end Naskah.Expression
