/-
  Compiling a source.  Tokens are read one after the other, and inside of strings texts; what has
  been read changes the desk.  At the end everything must be closed, and there must be an entry
  point.
-/
import Naskah.Compile.Curly
import Naskah.Compile.Round
import Naskah.Compile.Statement
import Naskah.Token.Progress

namespace Naskah

namespace Desk

/-- Requires that the word that continues a chain stands where a statement begins. -/
def checkOtherwise (d : Desk) (line : UInt32) : Except Diagnostic Unit :=
  if d.chained?.isNone ∨ !d.outer.isEmpty ∨ d.run.tokens ≠ [] then
    refuse (.unexpected "selainnya") line
  else .ok ()

/-- Requires what has to follow a token. -/
def checkNext (d : Desk) (t : Token) (c : Cursor) : Except Diagnostic Unit :=
  match t with
  | .keyword .otherwise => d.checkOtherwise c.line
  | .keyword k => if k.requiresBlank then c.requireBlank else .ok ()
  | .compound op => if op.isStep then c.search ";" else .ok ()
  | _ => .ok ()

/-- Takes a token that was read up to a cursor. -/
def take (d : Desk) (t : Token) (c : Cursor) : Except Diagnostic Desk :=
  match t with
  | .bracket .openRound => d.openRound c.line
  | .bracket .closeRound => d.closeRound c
  | .bracket .openCurly => d.openCurly c.line
  | .bracket .closeCurly => d.closeCurly c
  | .punctuation .semicolon => d.endStatement c.line
  | .punctuation (.quote q) => .ok (d.openString q c.line)
  | .punctuation .tripleQuote | .punctuation .closeComment => Expression.illegal t c.line
  | t => do
    d.checkNext t c
    return d.push t

/-- Takes tokens and texts up to the end of the source. -/
def takeAll (d : Desk) (c : Cursor) : Except Diagnostic (Desk × Cursor) :=
  if d.nesting.inString then
    match d.strings with
    | [] => broken .bodyWithoutString
    | s :: _ =>
      match _h : c.segment s.quote.char with
      | (.closed text, c') => do (← d.closeString text).takeAll c'
      | (.hole text, c') => do (← d.openHole text c'.line).takeAll c'
      | (.endOfText _, c') => .ok (d, c')
  else
    match _h : c.next with
    | (.ok (.token t), c') => do (← d.take t c').takeAll c'
    | (.ok .endOfText, c') | (.ok .truncated, c') => .ok (d, c')
    | (.error e, _) => .error e
termination_by c.rest.length
decreasing_by
  · exact Cursor.length_of_segment _h (by simp)
  · exact Cursor.length_of_segment _h (by simp)
  · exact Cursor.length_of_next _h

/-- What comes first decides how taking goes on. -/
theorem takeAll_eq (d : Desk) (c : Cursor) :
    d.takeAll c =
      if d.nesting.inString then
        match d.strings with
        | [] => broken .bodyWithoutString
        | s :: _ =>
          match c.segment s.quote.char with
          | (.closed text, c') => do (← d.closeString text).takeAll c'
          | (.hole text, c') => do (← d.openHole text c'.line).takeAll c'
          | (.endOfText _, c') => .ok (d, c')
      else
        match c.next with
        | (.ok (.token t), c') => do (← d.take t c').takeAll c'
        | (.ok .endOfText, c') | (.ok .truncated, c') => .ok (d, c')
        | (.error e, _) => .error e := by
  rw [takeAll]
  split
  · cases d.strings with
    | nil => rfl
    | cons s _ =>
      dsimp only
      cases c.segment s.quote.char with
      | mk g c' => cases g <;> rfl
  · cases c.next with
    | mk r c' =>
      cases r with
      | error e => rfl
      | ok l => cases l <;> rfl

/-- The program, once all has been read.  The module returns null at its end. -/
def finish (d : Desk) (c : Cursor) : Except Diagnostic Program :=
  match d.nesting.closer? with
  | some closer => refuse (.expectedAtEnd closer.toString) c.line
  | none =>
    if d.run.tokens ≠ [] then refuseAtEnd (.expectedAtEnd ";")
    else if d.header.isSome ∨ !d.blocks.isEmpty then refuseAtEnd (.expectedAtEnd "\x7b")
    else if !d.hasEntry then refuseAtEnd .noEntry
    else
      match Asm.assemble (d.code ++ FunctionBlock.returnNull) with
      | .error e => broken (.assembly e)
      | .ok code => .ok ⟨code, d.chunks⟩

end Desk

/-- Compiles the text that a buffer holds before its end mark. -/
def compileBuffer (buffer : String) : Except Diagnostic Program := do
  let (d, c) ← ({} : Desk).takeAll (.start buffer)
  d.finish c

/-- A text with an end mark behind it, unless it ends with one. -/
def withEndMark (text : String) : String :=
  if text.toList.getLast? = some endMark then text else text.push endMark

/-- What stands behind a text ends it. -/
theorem toList_withEndMark (text : String) :
    ∃ cs, (withEndMark text).toList = text.toList ++ cs ∧ atEnd cs = true := by
  unfold withEndMark
  split
  · exact ⟨[], (List.append_nil _).symm, rfl⟩
  · exact ⟨[endMark], String.toList_push _, rfl⟩

/-- Compiles the text of a source. -/
def compile (text : String) : Except Diagnostic Program :=
  compileBuffer (withEndMark text)

end Naskah
