/-
  Statements: what a run of tokens before a semicolon stands for.
-/
import Naskah.Compile.Desk

namespace Naskah.Desk

open Expression (illegal)

/-- The type after a colon, if there is a colon, and the tokens after it. -/
def typeOf (line : UInt32) : List Token → Except Diagnostic (TypeName × List Token)
  | .punctuation .colon :: .keyword (.type t) :: rest => .ok (t, rest)
  | .punctuation .colon :: other :: _ => illegal other line
  | rest => .ok (.any, rest)

/-- The code of the value that a name begins with.  A constant must have one. -/
def initialValue (d : Desk) (kind : NameKind) (name : String) (line : UInt32) :
    List Token → Except Diagnostic (List Asm)
  | [] =>
    if kind = .const then refuse (.constantWithoutValue name) line
    else .ok [.op (.loadConst .null)]
  | .punctuation .assign :: value => d.expression line value
  | other :: _ => illegal other line

/-- The keyword of a declaration. -/
def declarator (kind : NameKind) : Keyword :=
  if kind = .const then .const else .var

/-- The declaration of a name.  The name is declared after its value is compiled, so that the
    value cannot refer to it. -/
def declaration (d : Desk) (kind : NameKind) (line : UInt32) :
    List Token → Except Diagnostic (List Asm × Desk)
  | [] => refuse (.noNameAfter (Token.keyword (declarator kind)).text) line
  | .identifier name :: rest => do
    let (type, rest) ← typeOf line rest
    let value ← d.initialValue kind name.text line rest
    let names ← d.names.declare name.text ⟨kind, type, name.line⟩
    return (value ++ [.op (.storeName name.text)], d.setNames names)
  | other :: _ => illegal other line

/-- The code of the right operand of a compound assignment. -/
def compoundOperand (d : Desk) (c : Compound) (line : UInt32) (rest : List Token) :
    Except Diagnostic (List Asm) :=
  if c.isStep then
    match rest with
    | [] => .ok [.op (.loadConst (.int 1))]
    | extra :: _ => illegal extra line
  else d.expression line rest

/-- A jump out of the innermost loop, or back to its guard. -/
def loopJump (d : Desk) (k : Keyword) (jump : LoopBlock → Asm) (line : UInt32) :
    List Token → Except Diagnostic (List Asm)
  | extra :: _ => illegal extra line
  | [] =>
    match loop? d.blocks with
    | some b => .ok [jump b]
    | none => refuse (.outsideLoop (Token.keyword k).text) line

/-- The code of a statement that declares nothing. -/
def plainStatement (d : Desk) (line : UInt32) (tokens : List Token) :
    Except Diagnostic (List Asm) :=
  match tokens with
  | .keyword .result :: rest =>
    if !d.inFunction then refuse .resultOutsideFunction line
    else do
      let value ← if rest = [] then pure [.op (.loadConst .null)] else d.expression line rest
      return value ++ [.op .ret]
  | .keyword .stop :: rest => d.loopJump .stop LoopBlock.leave line rest
  | .keyword .skip :: rest => d.loopJump .skip LoopBlock.again line rest
  | t@(.keyword .choice) :: _ | t@(.keyword .iterate) :: _
  | t@(.keyword .delete) :: _ | t@(.keyword .consequence) :: _ =>
    refuse (.unsupported t.text) line
  | t@(.keyword .otherwise) :: _ => refuse (.unexpected t.text) line
  | .identifier name :: .punctuation .assign :: rest => do
    d.names.assignable name.text name.line
    return (← d.expression line rest) ++ [.op (.storeName name.text)]
  | .identifier name :: .compound c :: rest => do
    d.names.assignable name.text name.line
    return [.op (.loadName name.text)] ++ (← d.compoundOperand c line rest) ++
      [.op (.binary c.operation), .op (.storeName name.text)]
  | tokens => return (← d.expression line tokens) ++ [.op .pop]

/-- The code of a statement, and the desk with the name it declares. -/
def statement (d : Desk) (line : UInt32) (tokens : List Token) :
    Except Diagnostic (List Asm × Desk) :=
  match tokens with
  | .keyword .var :: rest => d.declaration .var line rest
  | .keyword .const :: rest => d.declaration .const line rest
  | tokens => return (← d.plainStatement line tokens, d)

/-- Ends the statement at a semicolon.  An empty statement is nothing. -/
def endStatement (d : Desk) (line : UInt32) : Except Diagnostic Desk :=
  if !d.outer.isEmpty then refuse (.expected "\x7d" ";") line
  else if !d.run.rounds.isEmpty then refuse (.expected ")" ";") line
  else if d.run.tokens = [] then .ok d
  else do
    let (code, d) ← d.clear.statement line d.run.tokens
    d.emit code

end Naskah.Desk
