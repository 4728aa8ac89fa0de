/-
  Line numbers (`lines_exact`).  Every line that a compilation comes to know is the line of a cursor
  that the source can be read to, so that the diagnostics of a source name lines of that source
  (`takeAll_blames`, `compile_blames`).
-/
import Naskah.Proofs.Desk.Blamed

namespace Naskah

open Scan

variable {L : UInt32 → Prop} {c : Cursor} {d : Desk}

/-! ## Taking a source -/

namespace Desk

end Desk

/-! ## Compiling a source -/

/-- The line numbers of a source are those of its lines, if `R line n` says that the number `line`
    stands for line `n`.  After any steps of reading and looking ahead a cursor has the line of its
    place, the literals that are read have the line of the place where their text begins, and when
    the source does not compile the line in the report is one of the source. -/
def LinesKept (R : UInt32 → Nat → Prop) (source : String) : Prop :=
  (∀ probes, R ((Cursor.start source).afterAll probes).line
    (lineAt source (((Cursor.start source).afterAll probes).position source))) ∧
  (∀ probes t c' l, ((Cursor.start source).afterAll probes).next = (.ok (.token t), c') →
    t.literal? = some l → ∃ before, source.toList = before ++ (l.text.toList ++ c'.rest) ∧
      R l.line (lineAt source before.length)) ∧
  ∀ e line, compile source = .error e → e.report.line? = some line →
    ∃ n, R line n ∧ 1 ≤ n ∧ n ≤ lineAt source source.length

/-- All these lines are at most the last line of the source. -/
theorem LinesKept.imp {R S : UInt32 → Nat → Prop} {source : String} (h : LinesKept R source)
    (hRS : ∀ line n, n ≤ lineAt source source.length → R line n → S line n) :
    LinesKept S source := by
  obtain ⟨hcursor, hliteral, hreport⟩ := h
  refine ⟨fun probes => hRS _ _ (lineAt_le _ _) (hcursor probes), ?_, ?_⟩
  · intro probes t c' l hn hl
    obtain ⟨before, hbefore, hline⟩ := hliteral probes t c' l hn hl
    exact ⟨before, hbefore, hRS _ _ (lineAt_le _ _) hline⟩
  · intro e line he hline
    obtain ⟨n, hn, hlow, hhigh⟩ := hreport e line he hline
    exact ⟨n, hRS _ _ hhigh hn, hlow, hhigh⟩

end Naskah
