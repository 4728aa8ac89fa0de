/-
  Strings: their texts and their holes.
-/
import Naskah.Compile.Desk

namespace Naskah.Desk

/-- Reads an opening quote. -/
def openString (d : Desk) (q : Quote) (line : UInt32) : Desk :=
  { d with nesting := .quote q :: d.nesting, strings := { quote := q, line } :: d.strings }

/-- The parts of a string with its last text, which is left out if it is empty and not all there
    is. -/
def closingParts (parts : List StringPart) (text : String) : List StringPart :=
  if text ≠ "" ∨ parts = [] then parts ++ [.text text] else parts

/-- Ends the innermost string after its last text. -/
def closeString (d : Desk) (text : String) : Except Diagnostic Desk :=
  match d.strings with
  | [] => broken .bodyWithoutString
  | s :: strings =>
    .ok ({ d with nesting := d.nesting.tail, strings }.push
      (.string ⟨closingParts s.parts text, s.line⟩))

/-- Adds a part to the innermost string. -/
def addPart (d : Desk) (part : StringPart) : Except Diagnostic Desk :=
  match d.strings with
  | [] => broken .holeWithoutString
  | s :: strings => .ok { d with strings := { s with parts := s.parts ++ [part] } :: strings }

/-- Begins a hole after a text. -/
def openHole (d : Desk) (text : String) (line : UInt32) : Except Diagnostic Desk := do
  let d ← d.addPart (.text text)
  let (b, labels) ← FunctionBlock.begin .anonymous [] line d.labels
  return { d.pushBlock (.function b) with
    labels
    run := {}
    outer := d.run :: d.outer
    nesting := .curly :: d.nesting }

/-- Ends the function of a hole, whose body is the code of the hole. -/
def finishHole (d : Desk) (code : List Asm) : Except Diagnostic (List Asm × Desk) :=
  match d.blocks with
  | .function b :: blocks =>
    if !b.isAnonymous then broken .holeInNamedFunction
    else do
      let (code, chunks) ← (b.add code).finish d.chunks
      return (code, { d with blocks, chunks })
  | _ => broken .holeWithoutFunction

/-- Ends a hole. -/
def closeHole (d : Desk) (line : UInt32) : Except Diagnostic Desk :=
  match d.outer with
  | [] => broken .holeWithoutRun
  | run :: outer => do
    let code ← d.expression line d.run.tokens
    let (code, d) ← { d with run, outer }.finishHole code
    let d ← d.addPart (.hole code)
    return { d with nesting := d.nesting.tail }

end Naskah.Desk
