/-
  Symbolic code and its assembly.  In symbolic code a jump points to a label, and a mark says
  where the label stands.  Assembly drops the marks and replaces each label by the number of
  instructions before its mark.  It fails if a label is marked twice, if a jump points to a label
  without a mark, and if a mark is not the target of any jump.

  An assembler works in two phases.  While code is added it notes where the marks stand, and gives
  each jump a placeholder; in the end it writes the targets into the jumps.

  Labels and offsets are natural numbers that stand for numbers of 32 bits.  They are the same for
  up to `2 ^ 32` labels and instructions; beyond that, counters of 32 bits would start over, and
  these do not.
-/
import Naskah.Instruction

namespace Naskah

/-- A place in symbolic code.  The index stands for a number of 32 bits. -/
structure Label where
  index : Nat
  deriving DecidableEq

/-- The written form of a label. -/
def Label.text (l : Label) : String := s!"L{l.index}"

/-- The labels that have not been handed out.  In 32 bits the supply would start over after
    `2 ^ 32` labels. -/
structure LabelSupply where
  next : Nat := 0
  deriving DecidableEq

/-- Hands out a label that was not handed out before. -/
def LabelSupply.fresh (s : LabelSupply) : Label × LabelSupply :=
  (⟨s.next⟩, ⟨s.next + 1⟩)

/-- One entry of symbolic code. -/
inductive Asm
  | op (i : Instr Label)
  | mark (l : Label)
  deriving DecidableEq

/-- Why symbolic code cannot be assembled. -/
inductive AssemblyError
  | duplicateLabel (l : Label)
  | unknownLabel (l : Label)
  | unusedLabel (l : Label)
  deriving DecidableEq

def AssemblyError.message : AssemblyError → String
  | duplicateLabel l => s!"label {l.text} is marked twice"
  | unknownLabel l => s!"jump to label {l.text} which is never marked"
  | unusedLabel l => s!"label {l.text} is marked but never used as a jump target"

/-- A jump that has a placeholder for its target: where it stands, and the label it points to. -/
structure Fixup where
  index : Nat
  label : Label
  deriving DecidableEq

/-- Code under construction. -/
structure Assembler where
  /-- The instructions so far, with placeholders. -/
  code : Array Instruction := #[]
  /-- The labels that are marked, with the number of instructions before each mark. -/
  labels : List (Label × Nat) := []
  /-- The jumps among the instructions, in order. -/
  fixups : Array Fixup := #[]
  deriving DecidableEq

namespace Assembler

/-- What a jump carries until its target is known. -/
def placeholder : Nat := 4294967295

/-- The number of instructions so far.  It stands for a number of 32 bits, and is one in code of
    fewer than `2 ^ 32` instructions. -/
def position (a : Assembler) : Nat :=
  a.code.size

/-- Marks a label behind the code so far; a second mark of the same label is refused. -/
def label (a : Assembler) (l : Label) : EStateM.Result AssemblyError Assembler Unit :=
  if (a.labels.lookup l).isSome then .error (.duplicateLabel l) a
  else .ok () { a with labels := (l, a.position) :: a.labels }

/-- Adds one entry. -/
def push (a : Assembler) : Asm → EStateM.Result AssemblyError Assembler Unit
  | .mark l => a.label l
  | .op i =>
    let fixups := match i.target? with
      | some l => a.fixups.push ⟨a.code.size, l⟩
      | none => a.fixups
    .ok () { a with code := a.code.push (i.relabel fun _ => placeholder), fixups }

/-- Adds entries up to the first that is refused. -/
def pushAll (a : Assembler) : List Asm → EStateM.Result AssemblyError Assembler Unit
  | [] => .ok () a
  | e :: code =>
    match a.push e with
    | .ok _ a => a.pushAll code
    | .error e a => .error e a

/-- Writes targets into jumps, up to the first one whose label is not marked.  The labels of the
    jumps come in front of `used`. -/
def patch (labels : List (Label × Nat)) : List Fixup → Array Instruction → List Label →
    Except AssemblyError (Array Instruction × List Label)
  | [], code, used => .ok (code, used)
  | f :: fixups, code, used =>
    match labels.lookup f.label, code[f.index]? with
    | some target, some (.jumpIfFalse _) =>
      patch labels fixups (code.setIfInBounds f.index (.jumpIfFalse target)) (f.label :: used)
    | some target, some (.jump _) =>
      patch labels fixups (code.setIfInBounds f.index (.jump target)) (f.label :: used)
    | _, _ => .error (.unknownLabel f.label)

/-- The least label that is marked but not used. -/
def unused? (labels : List (Label × Nat)) (used : List Label) : Option Label :=
  let unused := (labels.map Prod.fst).filter fun l => !used.contains l
  (unused.map Label.index).min?.map Label.mk

/-- Resolves the labels. -/
def finish (a : Assembler) : Except AssemblyError (List Instruction) := do
  let (code, used) ← patch a.labels a.fixups.toList a.code []
  match unused? a.labels used with
  | some l => .error (.unusedLabel l)
  | none => .ok code.toList

end Assembler

/-- Turns symbolic code into code. -/
def Asm.assemble (code : List Asm) : Except AssemblyError (List Instruction) :=
  match Assembler.pushAll {} code with
  | .ok _ a => a.finish
  | .error e _ => .error e

end Naskah
