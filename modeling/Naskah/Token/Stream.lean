/-
  All tokens of a source in order.
-/
import Naskah.Token.Progress

namespace Naskah

/-- The tokens from a cursor on, and what ends them. -/
structure Stream where
  /-- The tokens, each with the cursor after it. -/
  tokens : List (Token × Cursor)
  /-- What is found in place of a further token. -/
  stop : Except Diagnostic Lexed
  /-- The cursor after the last thing that was read. -/
  last : Cursor

/-- Reads tokens up to the first thing that is none. -/
def Cursor.stream (c : Cursor) : Stream :=
  match _h : c.next with
  | (.ok (.token t), c') =>
    let s := c'.stream
    { s with tokens := (t, c') :: s.tokens }
  | (stop, c') => ⟨[], stop, c'⟩
termination_by c.rest.length
decreasing_by exact length_of_next _h

/-- What comes first decides how the stream goes on. -/
theorem Cursor.stream_eq (c : Cursor) :
    c.stream =
      match c.next with
      | (.ok (.token t), c') => { c'.stream with tokens := (t, c') :: c'.stream.tokens }
      | (stop, c') => ⟨[], stop, c'⟩ := by
  rw [stream]
  cases c.next with
  | mk r c' =>
    cases r with
    | error e => rfl
    | ok l => cases l <;> rfl

end Naskah
