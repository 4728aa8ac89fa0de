/-
  Blocks under construction side by side: they share an arena, the supply of labels and the list of
  chunks, and are told apart by the slot they stand in.  Acts on them may come in any order; one
  that fails leaves the workshop as it was when the failure was noticed.
-/
import Naskah.Block.Builder

namespace Naskah

/-- Blocks under construction, and the code that was finished last. -/
structure Workshop where
  arena : Arena := {}
  labels : LabelSupply := {}
  chunks : List Chunk := []
  slots : List (String × Builder) := []
  last : List Asm := []

/-- What can be done in a workshop. -/
inductive Act
  | fresh
  | beginFunction (slot : String) (kind : FunctionKind) (params : List Param) (line : UInt32)
  | beginLoop (slot : String) (guard : List Asm) (line : UInt32)
  | beginChain (slot : String) (guard : List Asm) (line : UInt32)
  | add (slot : String) (code : List Asm)
  | addLast (slot : String)
  | closeClause (slot : String) (follows : Bool)
  | pushClause (slot : String) (kind : ClauseKind) (guard : Option (List Asm)) (line : UInt32)
  | emit (slot : String)
  | finish (slot : String)

namespace Workshop

def find? (w : Workshop) (slot : String) : Option Builder :=
  w.slots.lookup slot

/-- The block that stands in a slot, with the code that lies in its buffers. -/
def get? (w : Workshop) (slot : String) : Option Block :=
  (w.find? slot).map (Builder.block w.arena)

/-- Empties a slot. -/
def discard (w : Workshop) (slot : String) (arena : Arena) : Workshop :=
  { w with arena, slots := w.slots.filter fun s => s.1 ≠ slot }

/-- The slots with a builder in one of them in place of what stands there. -/
def put (slot : String) (b : Builder) : List (String × Builder) → List (String × Builder)
  | [] => [(slot, b)]
  | s :: slots => if s.1 = slot then (slot, b) :: slots else s :: put slot b slots

/-- Puts a builder into a slot. -/
def store (w : Workshop) (slot : String) (b : Builder) (arena : Arena) : Workshop :=
  { w with arena, slots := put slot b w.slots }

/-- Does an act.  An act on a slot without a suitable block does nothing. -/
def act (a : Act) (w : Workshop) : EStateM.Result Diagnostic Workshop Unit :=
  match a with
  | .fresh => .ok () { w with labels := w.labels.fresh.2 }
  | .beginFunction slot kind params line =>
    match FunctionBuilder.begin kind params line w.labels w.arena with
    | .error e => .error e w
    | .ok (b, labels, arena) => .ok () { w.store slot (.function b) arena with labels }
  | .beginLoop slot guard line =>
    let (b, labels, arena) := LoopBuilder.begin guard line w.labels w.arena
    .ok () { w.store slot (.loop b) arena with labels }
  | .beginChain slot guard line =>
    let (c, arena) := ChainBuilder.start guard line w.arena
    .ok () (w.store slot (.chain c) arena)
  | .add slot code =>
    match w.find? slot with
    | some b => .ok () (w.store slot b (b.add code w.arena))
    | none => .ok () w
  | .addLast slot =>
    match w.find? slot with
    | some b => .ok () { w.store slot b (b.add w.last w.arena) with last := [] }
    | none => .ok () w
  | .closeClause slot follows =>
    match w.find? slot with
    | some (.chain c) => .ok () (w.store slot (.chain (c.closeClause follows)) w.arena)
    | _ => .ok () w
  | .pushClause slot kind guard line =>
    match w.find? slot with
    | some (.chain c) =>
      match c.pushClause kind guard line w.arena with
      | .error e (c, arena) => .error e (w.store slot (.chain c) arena)
      | .ok _ (c, arena) => .ok () (w.store slot (.chain c) arena)
    | _ => .ok () w
  | .emit slot =>
    match w.find? slot with
    | some (.chain c) =>
      match c.emit w.labels w.arena with
      | .error e (c, labels, arena) => .error e { w.store slot (.chain c) arena with labels }
      | .ok code (c, labels, arena) =>
        .ok () { w.store slot (.chain c) arena with labels, last := code }
    | _ => .ok () w
  | .finish slot =>
    match w.find? slot with
    | some (.function b) =>
      let (result, arena) := b.finish w.chunks w.arena
      match result with
      | .error e => .error e (w.discard slot arena)
      | .ok (code, chunks) => .ok () { w.discard slot arena with chunks, last := code }
    | some (.loop b) =>
      let (code, arena) := b.finish w.arena
      .ok () { w.discard slot arena with last := code }
    | _ => .ok () w

end Workshop

end Naskah
