/-
  Blocks: the pieces of code that curly brackets enclose, while they are under construction.
-/
import Naskah.Block.Chain
import Naskah.Block.Function
import Naskah.Block.Loop

namespace Naskah

/-- A block under construction. -/
inductive Block
  | function (b : FunctionBlock)
  | loop (b : LoopBlock)
  | chain (c : Chain)

/-- Adds code to a block. -/
def Block.add (code : List Asm) : Block → Block
  | function b => function (b.add code)
  | loop b => loop (b.add code)
  | chain c => chain (c.add code)

/-- The names declared in a block.  Only functions with a name, the entry point among them, have
    names of their own. -/
def Block.names? : Block → Option Names
  | function b => if b.isAnonymous then none else some b.names
  | loop _ | chain _ => none

end Naskah
