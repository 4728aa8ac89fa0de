/-
  Listings: a program line by line, for reading.  Every instruction has its offset and its name,
  and its operand if it has one; a line with a heading stands before the code of the module,
  before the chunks, and before each chunk.
-/
import Naskah.Program
import Naskah.Text.Quoted

namespace Naskah

namespace Listing

/-- A number with at least four digits. -/
def fourDigits (n : Nat) : String :=
  let ds := Nat.toDigits 10 n
  String.ofList (List.replicate (4 - ds.length) '0' ++ ds)

/-- A text filled up with spaces to 18 characters. -/
def column (s : String) : String :=
  s.pushn ' ' (18 - s.length)

/-- The text of a constant: strings are quoted. -/
def constant : Value → String
  | .string s => Text.quote s
  | v => v.text

/-- The operand of an instruction; empty if it has none. -/
def operand : Instruction → String
  | .loadConst v => constant v
  | .loadName n | .storeName n | .makeFunction n => n
  | .binary op => op.symbol
  | .compare c => c.symbol
  | .jumpIfFalse t | .jump t => "-> " ++ fourDigits t
  | .buildString n | .call n => toString n
  | .ret | .pop => ""

/-- The line of an instruction at an offset. -/
def instructionLine (offset : Nat) (i : Instruction) : String :=
  let operand := operand i
  if operand.isEmpty then s!"{fourDigits offset}\t{i.mnemonic}\n"
  else s!"{fourDigits offset}\t{column i.mnemonic}\t{operand}\n"

/-- The lines of code. -/
def codeLines (code : List Instruction) : String :=
  String.join (code.mapIdx instructionLine)

/-- The name, parameters and line of a chunk. -/
def signature (c : Chunk) : String :=
  let params := c.params.map fun p => s!"{p.name}: {p.type.keyword}"
  let list := String.intercalate ", " params
  s!"{c.name}({list}) ; line {c.line}"

/-- A heading, in bold bright cyan if colour is wanted. -/
def heading (color : Bool) (text : String) : String :=
  if color then s!"\x1b[1m\x1b[96m{text}\x1b[39m\x1b[0m\n" else s!"{text}\n"

end Listing

open Listing

/-- The listing of a program, with coloured headings if colour is wanted. -/
def Program.listing (p : Program) (color : Bool) : String :=
  let chunk (index : Nat) (c : Chunk) : String :=
    heading color s!"  [{fourDigits index}] {signature c}" ++ codeLines c.code
  heading color s!"code ({p.code.length} instructions):" ++ codeLines p.code ++
    heading color s!"chunks ({p.chunks.length}):" ++ String.join (p.chunks.mapIdx chunk)

end Naskah
