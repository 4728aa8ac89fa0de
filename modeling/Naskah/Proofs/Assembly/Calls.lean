/-
  Calls of an assembler.  Whatever calls are made of a new assembler, a call is refused if and only
  if it marks a label that is marked already; it changes nothing then.  What comes out in the end
  is told by the entries of the calls that were accepted (`Assembler.calls_iff`).
-/
import Naskah.Proofs.Assembly

namespace Naskah.Assembler

open Asm

/-- What an assembler can be asked for. -/
inductive Call
  | push (e : Asm)
  | label (l : Label)

/-- The entry that is to be added. -/
def Call.entry : Call → Asm
  | push e => e
  | label l => .mark l

/-- Makes a call. -/
def call (a : Assembler) : Call → EStateM.Result AssemblyError Assembler Unit
  | .push e => a.push e
  | .label l => a.label l

/-- The assembler after some calls, accepted or not. -/
def run (a : Assembler) : List Call → Assembler
  | [] => a
  | x :: xs =>
    match a.call x with
    | .ok _ a | .error _ a => a.run xs

/-- The entries of those calls that are accepted, in order. -/
def accepted (a : Assembler) : List Call → List Asm
  | [] => []
  | x :: xs =>
    match a.call x with
    | .ok _ a => x.entry :: a.accepted xs
    | .error _ a => a.accepted xs

variable {a : Assembler} {c : List Asm}

theorem call_eq_push (a : Assembler) (x : Call) : a.call x = a.push x.entry := by
  cases x <;> rfl

/-- **An assembler holds what it has accepted.** -/
theorem Holds.run_calls (h : Holds c a) (xs : List Call) :
    Holds (c ++ a.accepted xs) (a.run xs) := by
  induction xs generalizing c a with
  | nil => simpa [accepted, run] using h
  | cons x xs ih =>
    rcases h.push_cases x.entry with ⟨l, -, -, he⟩ | ⟨-, a', he, h'⟩
    · simp only [accepted, run, call_eq_push, he]
      exact ih h
    · simp only [accepted, run, call_eq_push, he]
      have hrun := ih h'
      rwa [List.append_assoc] at hrun

/-- **What is refused.** -/
theorem Holds.call_eq_error_iff (h : Holds c a) {x : Call} {e : AssemblyError} {a' : Assembler} :
    a.call x = .error e a' ↔
      ∃ l, x.entry = .mark l ∧ l ∈ marks c ∧ e = .duplicateLabel l ∧ a' = a := by
  rw [call_eq_push]
  rcases h.push_cases x.entry with ⟨l, hx, hl, hp⟩ | ⟨hnew, a₁, hp, -⟩
  · rw [hp, hx]
    constructor
    · rintro ⟨⟩
      exact ⟨l, rfl, hl, rfl, rfl⟩
    · rintro ⟨_, ⟨⟩, -, rfl, rfl⟩
      rfl
  · rw [hp]
    constructor
    · rintro ⟨⟩
    · rintro ⟨l, hx, hl, -⟩
      exact absurd hl (hnew l hx)

/-- **The assembler.**  After any calls of a new assembler, the next call is refused if and only if
    it marks a label that is marked already, and then the assembler stays as it is.  In the end,
    the first jump to a label without a mark is reported; if there is none, the least label that is
    marked and not jumped to; if there is none, the instructions of the accepted calls come out in
    order, and every jump carries the number of instructions before the mark of its label.  The
    same becomes of code that is assembled, up to the first mark that is refused.  With fewer than
    `2 ^ 32` instructions these targets are numbers of 32 bits. -/
theorem calls_iff (xs : List Call) :
    (∀ x e a, (run {} xs).call x = .error e a ↔ ∃ l, x.entry = .mark l ∧
        l ∈ marks (accepted {} xs) ∧ e = .duplicateLabel l ∧ a = run {} xs) ∧
      (∀ r, (run {} xs).finish = r ↔ Links (accepted {} xs) r) ∧
        ∀ code r, assemble code = r ↔ Assembles code r := by
  have h : Holds (accepted {} xs) (run {} xs) := holds_nil.run_calls xs
  exact ⟨fun _ _ _ => h.call_eq_error_iff, fun _ => h.finish_iff, fun _ _ => assemble_iff⟩

/-- Two marks in one place, one of them for two jumps, and a mark behind all instructions. -/
example : assemble [.mark ⟨7⟩, .mark ⟨2⟩, .op (.jumpIfFalse ⟨2⟩), .op (.jump ⟨9⟩), .op (.jump ⟨7⟩),
    .op (.jump ⟨2⟩), .mark ⟨9⟩] = .ok [.jumpIfFalse 0, .jump 4, .jump 0, .jump 0] := by
  decide

end Naskah.Assembler
