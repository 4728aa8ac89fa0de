/-
  Loops under construction.
-/
import Naskah.Assembly

namespace Naskah

/-- A loop that runs its body as long as its guard is true. -/
structure LoopBlock where
  guard : List Asm
  body : List Asm := []
  start : Label
  stop : Label
  line : UInt32

namespace LoopBlock

def begin (guard : List Asm) (line : UInt32) (labels : LabelSupply) : LoopBlock × LabelSupply :=
  let (start, labels) := labels.fresh
  let (stop, labels) := labels.fresh
  ({ guard, start, stop, line }, labels)

/-- Adds code to the body. -/
def add (b : LoopBlock) (code : List Asm) : LoopBlock :=
  { b with body := b.body ++ code }

/-- Leaves the loop. -/
def leave (b : LoopBlock) : Asm :=
  .op (.jump b.stop)

/-- Goes back to the guard. -/
def again (b : LoopBlock) : Asm :=
  .op (.jump b.start)

/-- The code of the loop. -/
def finish (b : LoopBlock) : List Asm :=
  [.mark b.start] ++ b.guard ++ [.op (.jumpIfFalse b.stop)] ++ b.body ++
    [.op (.jump b.start), .mark b.stop]

end LoopBlock

end Naskah
