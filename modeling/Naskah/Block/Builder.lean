/-
  Builders: blocks under construction whose code lies in the buffers of an arena.  A builder knows
  the places of its buffers; `Builder.block` is the block that it makes of the code in them.
-/
import Naskah.Block
import Naskah.Block.Arena

namespace Naskah

/-! ## Functions -/

/-- A function whose code lies in buffers. -/
structure FunctionBuilder where
  role : FunctionRole
  params : List Param
  names : Names
  line : UInt32
  header : BufferId
  content : BufferId

namespace FunctionBuilder

/-- Begins a function, unless its parameters are refused. -/
def begin (kind : FunctionKind) (params : List Param) (line : UInt32) (labels : LabelSupply)
    (arena : Arena) : Except Diagnostic (FunctionBuilder × LabelSupply × Arena) := do
  let (b, labels) ← FunctionBlock.begin kind params line labels
  let (header, arena) := arena.alloc b.header
  let (content, arena) := arena.alloc []
  return (⟨b.role, b.params, b.names, b.line, header, content⟩, labels, arena)

/-- Ends a function.  Its buffers are taken even if it cannot be assembled. -/
def finish (b : FunctionBuilder) (chunks : List Chunk) (arena : Arena) :
    Except Diagnostic (List Asm × List Chunk) × Arena :=
  let (header, arena) := arena.take b.header
  let (content, arena) := arena.take b.content
  (FunctionBlock.close b.role b.params b.line header content chunks, arena)

def block (arena : Arena) (b : FunctionBuilder) : FunctionBlock where
  role := b.role
  params := b.params
  names := b.names
  line := b.line
  content := arena.get b.content

end FunctionBuilder

/-! ## Loops -/

/-- A loop whose code lies in buffers. -/
structure LoopBuilder where
  guard : BufferId
  body : BufferId
  start : Label
  stop : Label
  line : UInt32

namespace LoopBuilder

def begin (guard : List Asm) (line : UInt32) (labels : LabelSupply) (arena : Arena) :
    LoopBuilder × LabelSupply × Arena :=
  let (b, labels) := LoopBlock.begin guard line labels
  let (guard, arena) := arena.alloc guard
  let (body, arena) := arena.alloc []
  ({ guard, body, start := b.start, stop := b.stop, line }, labels, arena)

/-- The code of the loop. -/
def finish (b : LoopBuilder) (arena : Arena) : List Asm × Arena :=
  let (guard, arena) := arena.take b.guard
  let (body, arena) := arena.take b.body
  (LoopBlock.finish ⟨guard, body, b.start, b.stop, b.line⟩, arena)

def block (arena : Arena) (b : LoopBuilder) : LoopBlock :=
  ⟨arena.get b.guard, arena.get b.body, b.start, b.stop, b.line⟩

end LoopBuilder

/-! ## Chains -/

/-- A clause whose code lies in buffers. -/
structure ClauseBuilder where
  kind : ClauseKind
  guard : Option BufferId
  body : BufferId
  line : UInt32

namespace ClauseBuilder

/-- Takes the code of a clause. -/
def take (c : ClauseBuilder) (arena : Arena) : Clause × Arena :=
  let (body, arena) := arena.take c.body
  match c.guard with
  | none => (⟨c.kind, none, body, c.line⟩, arena)
  | some id =>
    let (guard, arena) := arena.take id
    (⟨c.kind, some guard, body, c.line⟩, arena)

def block (arena : Arena) (c : ClauseBuilder) : Clause :=
  ⟨c.kind, c.guard.map arena.get, arena.get c.body, c.line⟩

end ClauseBuilder

/-- A chain of clauses, the latest first. -/
structure ChainBuilder where
  clauses : List ClauseBuilder
  state : ChainState

namespace ChainBuilder

/-- Begins a chain with its first clause. -/
def start (guard : List Asm) (line : UInt32) (arena : Arena) : ChainBuilder × Arena :=
  let (guard, arena) := arena.alloc guard
  let (body, arena) := arena.alloc []
  (⟨[⟨.first, some guard, body, line⟩], .filling⟩, arena)

/-- Adds code to the body of the latest clause, if there is one. -/
def add (c : ChainBuilder) (code : List Asm) (arena : Arena) : Arena :=
  match c.clauses with
  | [] => arena
  | clause :: _ => arena.extend clause.body code

/-- Closes the latest clause.  The chain goes on only if another clause follows and can follow. -/
def closeClause (c : ChainBuilder) (follows : Bool) : ChainBuilder :=
  let canFollow : Bool := match c.clauses with
    | clause :: _ => clause.kind ≠ .last
    | [] => true
  { c with state := if follows && canFollow then .chained else .resolved }

/-- Adds a further clause or the last one to a chain that goes on. -/
def pushClause (c : ChainBuilder) (kind : ClauseKind) (guard : Option (List Asm)) (line : UInt32)
    (arena : Arena) : EStateM.Result Diagnostic (ChainBuilder × Arena) Unit :=
  if c.state ≠ .chained then .error (.refused (.unexpected "selainnya") (some line)) (c, arena)
  else
    match kind, guard with
    | .last, none =>
      let (body, arena) := arena.alloc []
      .ok () (⟨⟨.last, none, body, line⟩ :: c.clauses, .filling⟩, arena)
    | .further, some guard =>
      let (guard, arena) := arena.alloc guard
      let (body, arena) := arena.alloc []
      .ok () (⟨⟨.further, some guard, body, line⟩ :: c.clauses, .filling⟩, arena)
    | kind, _ => .error (.broken (.mismatchedGuard kind)) (c, arena)

/-- Takes the code of clauses, the latest first. -/
def takeAll : List ClauseBuilder → Arena → List Clause × Arena
  | [], arena => ([], arena)
  | clause :: clauses, arena =>
    let (c, arena) := clause.take arena
    let (cs, arena) := takeAll clauses arena
    (c :: cs, arena)

/-- Takes the code of a chain that is complete. -/
def emit (c : ChainBuilder) (labels : LabelSupply) (arena : Arena) :
    EStateM.Result Diagnostic (ChainBuilder × LabelSupply × Arena) (List Asm) :=
  if c.state ≠ .resolved then .error (.broken (.chainEmitted c.state)) (c, labels, arena)
  else
    let (exit, labels) := labels.fresh
    let (clauses, arena) := takeAll c.clauses arena
    let (code, labels) := Chain.emitClauses exit clauses [] labels
    .ok (code ++ [.mark exit]) (⟨[], .emitted⟩, labels, arena)

def block (arena : Arena) (c : ChainBuilder) : Chain :=
  ⟨c.clauses.map (ClauseBuilder.block arena), c.state⟩

end ChainBuilder

/-! ## Blocks -/

/-- A block whose code lies in buffers. -/
inductive Builder
  | function (b : FunctionBuilder)
  | loop (b : LoopBuilder)
  | chain (c : ChainBuilder)

namespace Builder

/-- Adds code to a block. -/
def add (code : List Asm) (arena : Arena) : Builder → Arena
  | function b => arena.extend b.content code
  | loop b => arena.extend b.body code
  | chain c => c.add code arena

/-- The block with the code that lies in its buffers. -/
def block (arena : Arena) : Builder → Block
  | function b => .function (b.block arena)
  | loop b => .loop (b.block arena)
  | chain c => .chain (c.block arena)

end Builder

end Naskah
