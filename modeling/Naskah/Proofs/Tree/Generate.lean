/-
  The code of a script, by recursion over its tree.  Jumps are offsets into the code that holds
  them, so the code of a statement depends on where it stands, on the loop around it, and on the
  number of chunks before it.

  A function becomes a chunk when its body ends: the chunks of the functions inside of it come
  first.  The entry point becomes no chunk; its body stands in the code of the module, behind a
  test whether the module is the main one.
-/
import Naskah.Proofs.Tree.Syntax

namespace Naskah.Tree

/-! ## Expressions -/

/-- The instruction of a sign. -/
def Sign.instr {τ : Type} : Sign → Instr τ
  | binary op => .binary op
  | compare c => .compare c
  | equal => .compare .eq
  | notEqual => .compare .ne

/-- The code of a text in a string with holes; an empty text needs none. -/
def textCode {τ : Type} (s : String) : List (Instr τ) :=
  if s = "" then [] else [.loadConst (.string s)]

/-- The number of texts and holes that have code. -/
def Template.count : Template → Nat
  | .last s => if s = "" then 0 else 1
  | .hole s _ rest => (if s = "" then 0 else 1) + 1 + rest.count

mutual

/-- The code that puts the value of an expression on the stack. -/
def Expr.code {τ : Type} : Expr → List (Instr τ)
  | .int n => [.loadConst (.int (Int64.ofInt n))]
  | .float w => [.loadConst (.float (fractionValue w))]
  | .bool b => [.loadConst (.bool b)]
  | .string _ (.last s) => [.loadConst (.string s)]
  | .string _ (.hole s e rest) =>
    textCode s ++ e.code ++ rest.code ++ [.buildString (Template.hole s e rest).count]
  | .name x => [.loadName x]
  | .call f args => .loadName f :: codeAll args ++ [.call args.length]
  | .print args =>
    .loadName Builtin.print.name :: codeAll args ++ [.buildString args.length, .call 1]
  | .apply o l r => l.code ++ r.code ++ [o.instr]

/-- The code that puts the texts and the values of the holes on the stack. -/
def Template.code {τ : Type} : Template → List (Instr τ)
  | .last s => textCode s
  | .hole s e rest => textCode s ++ e.code ++ rest.code

def codeAll {τ : Type} : List Expr → List (Instr τ)
  | [] => []
  | e :: es => e.code ++ codeAll es

end

/-- The code of a value that may be left out. -/
def valueCode {τ : Type} : Option Expr → List (Instr τ)
  | none => [.loadConst .null]
  | some e => e.code

/-- The number of instructions of an expression. -/
def Expr.size (e : Expr) : Nat :=
  (e.code (τ := Nat)).length

/-- The operation of an assignment that goes up or down by one. -/
def stepOperation (up : Bool) : Operation :=
  if up then .add else .sub

/-! ## Sizes -/

/-- The code of a statement without a block. -/
def Simple.code {τ : Type} : Simple → List (Instr τ)
  | .var b value => valueCode value ++ [.storeName b.name]
  | .const b value => value.code ++ [.storeName b.name]
  | .assign x value => value.code ++ [.storeName x]
  | .compound x op value => [.loadName x] ++ value.code ++ [.binary op, .storeName x]
  | .step x up =>
    [.loadName x, .loadConst (.int 1), .binary (stepOperation up), .storeName x]
  | .result value => valueCode value ++ [.ret]
  | .expr e => e.code ++ [.pop]

mutual

/-- The number of instructions of a statement. -/
def Stmt.size : Stmt → Nat
  | .function .. => 3
  | .simple s => (s.code (τ := Nat)).length
  | .loop guard body => guard.size + 1 + lengthOf body + 1
  | .stop | .skip => 1
  | .cond guard body rest => guard.size + 1 + lengthOf body + 1 + rest.size

def Rest.size : Rest → Nat
  | .done => 0
  | .last body => lengthOf body
  | .further guard body rest => guard.size + 1 + lengthOf body + 1 + rest.size

def lengthOf : List Stmt → Nat
  | [] => 0
  | st :: body => st.size + lengthOf body

end

mutual

/-- The number of functions in a statement. -/
def Stmt.count : Stmt → Nat
  | .function _ _ body => countOf body + 1
  | .loop _ body => countOf body
  | .cond _ body rest => countOf body + rest.count
  | .simple _ | .stop | .skip => 0

def Rest.count : Rest → Nat
  | .done => 0
  | .last body => countOf body
  | .further _ body rest => countOf body + rest.count

def countOf : List Stmt → Nat
  | [] => 0
  | st :: body => st.count + countOf body

end

/-! ## Statements -/

/-- Where the jumps of a loop go: back to its guard, or behind it. -/
structure Exits (τ : Type) where
  again : τ
  leave : τ

/-- The code that binds a chunk to the name of its function. -/
def bindFunction {τ : Type} (index : Nat) (f : String) : List (Instr τ) :=
  [.loadConst (.chunk index), .makeFunction f, .storeName f]

/-- Code that returns null. -/
def returnsNull {τ : Type} : List (Instr τ) :=
  [.loadConst .null, .ret]

mutual

/-- The code of a statement that stands at the offset `pos`, after `k` chunks, in the loop with the
    given exits. -/
def Stmt.code (k pos : Nat) (exits : Exits Nat) : Stmt → List Instruction
  | .function f _ body => bindFunction (k + countOf body) f
  | .simple s => s.code
  | .loop guard body =>
    let inner := pos + guard.size + 1
    let stop := inner + lengthOf body + 1
    guard.code ++ [.jumpIfFalse stop] ++ codeOf k inner ⟨pos, stop⟩ body ++ [.jump pos]
  | .stop => [.jump exits.leave]
  | .skip => [.jump exits.again]
  | .cond guard body rest =>
    let inner := pos + guard.size + 1
    let next := inner + lengthOf body + 1
    guard.code ++ [.jumpIfFalse next] ++ codeOf k inner exits body ++ [.jump (next + rest.size)] ++
      rest.code (k + countOf body) next exits

def Rest.code (k pos : Nat) (exits : Exits Nat) : Rest → List Instruction
  | .done => []
  | .last body => codeOf k pos exits body
  | .further guard body rest =>
    let inner := pos + guard.size + 1
    let next := inner + lengthOf body + 1
    guard.code ++ [.jumpIfFalse next] ++ codeOf k inner exits body ++ [.jump (next + rest.size)] ++
      rest.code (k + countOf body) next exits

/-- The code of statements one after the other. -/
def codeOf (k pos : Nat) (exits : Exits Nat) : List Stmt → List Instruction
  | [] => []
  | st :: body => st.code k pos exits ++ codeOf (k + st.count) (pos + st.size) exits body

end

theorem Expr.length_instructions (e : Expr) : (e.code (τ := Nat)).length = e.size := rfl

mutual

theorem Stmt.length_code : ∀ (st : Stmt) (k pos : Nat) (exits : Exits Nat),
    (st.code k pos exits).length = st.size
  | .function f params body, k, pos, exits => rfl
  | .simple st, k, pos, exits => rfl
  | .loop guard body, k, pos, exits => by
    simp [Stmt.code, Stmt.size, Expr.length_instructions, length_codeOf body]
    omega
  | .stop, k, pos, exits => rfl
  | .skip, k, pos, exits => rfl
  | .cond guard body rest, k, pos, exits => by
    simp [Stmt.code, Stmt.size, Expr.length_instructions, length_codeOf body, Rest.length_code rest]
    omega

theorem Rest.length_code : ∀ (rest : Rest) (k pos : Nat) (exits : Exits Nat),
    (rest.code k pos exits).length = rest.size
  | .done, k, pos, exits => rfl
  | .last body, k, pos, exits => length_codeOf body k pos exits
  | .further guard body rest, k, pos, exits => by
    simp [Rest.code, Rest.size, Expr.length_instructions, length_codeOf body, Rest.length_code rest]
    omega

theorem length_codeOf : ∀ (body : List Stmt) (k pos : Nat) (exits : Exits Nat),
    (codeOf k pos exits body).length = lengthOf body
  | [], k, pos, exits => rfl
  | st :: body, k, pos, exits => by
    rw [codeOf, List.length_append, st.length_code, length_codeOf body, lengthOf]

end

/-! ## Chunks -/

/-- There is no loop around the body of a function. -/
def noExits : Exits Nat :=
  ⟨0, 0⟩

/-- The code of a function: it stores its arguments, runs its body and returns null. -/
def functionCode (k : Nat) (params : List Binder) (body : List Stmt) : List Instruction :=
  params.map (fun b => .storeName b.name) ++ codeOf k params.length noExits body ++ returnsNull

mutual

/-- The number of lines that a statement takes up, in the 32 bits that lines are counted in. -/
def Stmt.lines : Stmt → UInt32
  | .function _ _ body => linesOf body + 2
  | .loop _ body => linesOf body + 2
  | .cond _ body rest => linesOf body + 1 + rest.lines
  | .simple _ | .stop | .skip => 1

def Rest.lines : Rest → UInt32
  | .done => 1
  | .last body => linesOf body + 2
  | .further _ body rest => linesOf body + 1 + rest.lines

def linesOf : List Stmt → UInt32
  | [] => 0
  | st :: body => st.lines + linesOf body

end

mutual

/-- The chunks of the functions in a statement that begins on a line, after `k` other chunks. -/
def Stmt.chunks (k : Nat) (line : UInt32) : Stmt → List Chunk
  | .function f params body =>
    chunksOf k (line + 1) body ++ [⟨f, params.map Binder.param, functionCode k params body, line⟩]
  | .loop _ body => chunksOf k (line + 1) body
  | .cond _ body rest =>
    chunksOf k (line + 1) body ++ rest.chunks (k + countOf body) (line + 1 + linesOf body)
  | .simple _ | .stop | .skip => []

def Rest.chunks (k : Nat) (line : UInt32) : Rest → List Chunk
  | .done => []
  | .last body => chunksOf k (line + 1) body
  | .further _ body rest =>
    chunksOf k (line + 1) body ++ rest.chunks (k + countOf body) (line + 1 + linesOf body)

def chunksOf (k : Nat) (line : UInt32) : List Stmt → List Chunk
  | [] => []
  | st :: body => st.chunks k line ++ chunksOf (k + st.count) (line + st.lines) body

end

mutual

theorem Stmt.length_chunks : ∀ (st : Stmt) (k : Nat) (line : UInt32),
    (st.chunks k line).length = st.count
  | .function _ _ body, k, line => by
    rw [Stmt.chunks, Stmt.count, List.length_append, length_chunksOf body]
    rfl
  | .loop _ body, k, line => by rw [Stmt.chunks, Stmt.count, length_chunksOf body]
  | .cond _ body rest, k, line => by
    rw [Stmt.chunks, Stmt.count, List.length_append, length_chunksOf body, rest.length_chunks]
  | .simple _, _, _ | .stop, _, _ | .skip, _, _ => by rw [Stmt.chunks, Stmt.count]; rfl

theorem Rest.length_chunks : ∀ (rest : Rest) (k : Nat) (line : UInt32),
    (rest.chunks k line).length = rest.count
  | .done, _, _ => by rw [Rest.chunks, Rest.count]; rfl
  | .last body, k, line => by rw [Rest.chunks, Rest.count, length_chunksOf body]
  | .further _ body rest, k, line => by
    rw [Rest.chunks, Rest.count, List.length_append, length_chunksOf body, rest.length_chunks]

theorem length_chunksOf : ∀ (body : List Stmt) (k : Nat) (line : UInt32),
    (chunksOf k line body).length = countOf body
  | [], _, _ => by rw [chunksOf, countOf]; rfl
  | st :: body, k, line => by
    rw [chunksOf, countOf, List.length_append, st.length_chunks, length_chunksOf body]

end

/-! ## Scripts -/

/-- The code of an entry point with the given body, which stands at an offset. -/
def entryCode (k pos : Nat) (body : List Stmt) : List Instruction :=
  [.loadName "__name__", .loadConst (.string "__main__"), .compare .eq,
    .jumpIfFalse (pos + 4 + lengthOf body)] ++ codeOf k (pos + 4) noExits body

namespace Script

/-- The program of a script. -/
def generate (s : Script) : Program where
  code :=
    codeOf 0 0 noExits s.before ++ entryCode (countOf s.before) (lengthOf s.before) s.entry ++
      codeOf (countOf s.before + countOf s.entry) (lengthOf s.before + 4 + lengthOf s.entry) noExits
        s.after ++ returnsNull
  chunks :=
    chunksOf 0 1 s.before ++ chunksOf (countOf s.before) (linesOf s.before + 2) s.entry ++
      chunksOf (countOf s.before + countOf s.entry) (linesOf s.before + linesOf s.entry + 3) s.after

end Script

end Naskah.Tree
