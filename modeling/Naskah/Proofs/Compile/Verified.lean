/-
  Compiled programs are verified, and the compiler keeps its own assumptions.

  Every source leads to a verified program or is refused; the only exception is a call with more
  than 255 arguments (`compile_yields`).  So a compiled program never fails for want of operands,
  jumps to a wrong place or refers to a chunk that is not there, in its first run and in all later
  ones.

  The compiler counts labels, instructions and chunks without a limit.  Counters of 32 bits do the
  same for sources that need fewer than `2 ^ 32` of each.
-/
import Naskah.Proofs.Compile.Preserved
import Naskah.Proofs.Desk.Course
import Naskah.Proofs.Machine.Safety

namespace Naskah

theorem Desk.finish_yields {d : Desk} (h : d.Sound) (c : Cursor) :
    Yields (d.finish c) Program.Verified := by
  unfold finish
  split
  · exact Yields.refuse _ _
  · split
    · exact Yields.refuseAtEnd _
    · split
      · exact Yields.refuseAtEnd _
      · split
        · exact Yields.refuseAtEnd _
        · have hd : (Asm.marks d.code).Nodup := by
            rw [List.nodup_iff_count_le_one]
            intro l
            have hl := h.distinct l
            rw [labelList, List.count_append] at hl
            split at hl <;> omega
          have he : Asm.effects d.chunks.length [] [] = some [] := rfl
          obtain ⟨code, hok, hv⟩ := Piece.assemble he rfl rfl h.crafted.code hd
          rw [List.nil_append] at hok
          rw [hok]
          exact Yields.ok ⟨hv, h.crafted.chunks⟩

/-- **A source leads to a verified program, or is refused**, or has a call with too many
    arguments. -/
theorem compile_yields (text : String) : Yields (compile text) Program.Verified := by
  unfold compile
  refine (Desk.takeAll_yields (P := fun _ => True) (fun _ _ _ _ => trivial)
    (Desk.standing_empty _) Desk.sound_empty trivial).bind fun r _ hr => ?_
  exact Desk.finish_yields hr.2.1 r.2

/-! ## Runs -/

/-- Machines on which `k` runs of a program have ended with a value, one after the other. -/
inductive Session (p : Program) : Nat → Machine → Prop
  | fresh : Session p 0 .start
  | again {k n : Nat} {v : Value} {m m' : Machine} (h : Session p k m)
      (hr : Machine.runFor p n m = .ok (some v) m') : Session p (k + 1) m'

/-- After a run that ended with a value the machine is at rest. -/
theorem Session.standing {p : Program} (hp : p.Verified) {k : Nat} {m : Machine}
    (h : Session p k m) : k = 0 ∧ m.Running p ∨ 0 < k ∧ m.Resting p := by
  induction h with
  | fresh => exact .inl ⟨rfl, Machine.running_start hp⟩
  | @again k n v m m' _ hr ih =>
    right
    refine ⟨Nat.succ_pos k, ?_⟩
    rcases ih with ⟨-, hm⟩ | ⟨-, hm⟩
    · have hs := Machine.safe_runFor hp hm n
      rw [hr] at hs
      exact hs
    · rcases hm.runFor hp n with hn | hs
      · rw [hr] at hn; cases hn
      · rw [hr] at hs
        exact hs

/-- **Compiled programs run safely.**  However often a compiled program was run to its end, and
    however many steps the next run is given: if the run ends with a value, the machine is left
    with no operands and the frame of the module alone; if it fails, then not for want of operands,
    nor because of a wrong jump or a wrong chunk; and the first run always finds an instruction to
    execute.  In 32 bits this is about fewer than `2 ^ 32` labels, instructions and chunks. -/
theorem runFor_of_compile {text : String} {p : Program} (hc : compile text = .ok p) {k : Nat}
    {m : Machine} (hm : Session p k m) (n : Nat) :
    match Machine.runFor p n m with
    | .ok (some _) m' => m'.stack = [] ∧ m'.callers = [] ∧ m'.current.chunk = none
    | .ok none m' => k = 0 → ∃ code, m'.current.code p = .ok code ∧ m'.current.ip < code.length
    | .error e _ => e.isInternal = false := by
  have hp : p.Verified := (compile_yields text).of_ok hc
  have hsafe : Machine.runFor p n m = .ok none m ∧ 0 < k ∨ Machine.Safe p (Machine.runFor p n m) := by
    rcases hm.standing hp with ⟨-, hm⟩ | ⟨hk, hm⟩
    · exact .inr (Machine.safe_runFor hp hm n)
    · exact (hm.runFor hp n).imp_left fun h => ⟨h, hk⟩
  rcases hsafe with ⟨hr, hk⟩ | hs
  · rw [hr]
    intro h0
    omega
  · cases hr : Machine.runFor p n m with
    | error e m' =>
      rw [hr] at hs
      exact hs
    | ok answer m' =>
      rw [hr] at hs
      cases answer with
      | some v => exact ⟨hs.stack, hs.callers, hs.module⟩
      | none =>
        obtain ⟨code, _, _, _, _, hp, hip⟩ := hs
        exact fun _ => ⟨code, hp.stands.code_eq, hip⟩

open Naskah.Tree in
/-- A second run of the compiled multiples is safe. -/
theorem runFor_multiples : ∃ m, compile Script.multiples.render = .ok Script.multiples.generate ∧
    Session Script.multiples.generate 1 m ∧ ∀ n,
      match Machine.runFor Script.multiples.generate n m with
      | .ok (some _) m' => m'.stack = [] ∧ m'.callers = [] ∧ m'.current.chunk = none
      | .ok none m' => 1 = 0 → ∃ code, m'.current.code Script.multiples.generate = .ok code ∧
          m'.current.ip < code.length
      | .error e _ => e.isInternal = false := by
  have hfits : Script.multiples.fits = true := rfl
  obtain ⟨cs, hb, hcs⟩ := toList_withEndMark Script.multiples.render
  have hc : compile Script.multiples.render = .ok Script.multiples.generate :=
    Script.compileBuffer_render hfits hb hcs
  obtain ⟨k, m, hk, -⟩ := Script.endsWith_of_ending? (n := 6) hfits rfl
  have hm : Session Script.multiples.generate 1 m := .again .fresh hk
  exact ⟨m, hc, hm, runFor_of_compile hc hm⟩

/-! ## Assumptions -/

/-- **The compiler breaks only on a call with more than 255 arguments**, as long as `2 ^ 32` labels
    are enough. -/
theorem compile_broken {text : String} {b : Breach} (h : compile text = .error (.broken b)) :
    ∃ n, 255 < n ∧ b = .tooManyArguments n ∧
      b.message = s!"Call with {n} arguments exceeds 255" := by
  have hb := (compile_yields text).of_broken h
  cases b with
  | tooManyArguments n => exact ⟨n, hb, rfl, rfl⟩
  | _ => cases hb

open Naskah.Tree in
/-- A call with 256 arguments breaks the compiler. -/
theorem compile_broken_ones :
    compile (callText (List.replicate 256 (.int 1))) = .error (.broken (.tooManyArguments 256)) ∧
      ∃ n, 255 < n ∧ Breach.tooManyArguments 256 = .tooManyArguments n ∧
        (Breach.tooManyArguments 256).message = s!"Call with {n} arguments exceeds 255" := by
  have hn : (List.replicate 256 (Expr.int 1)).length = 256 := List.length_replicate
  have h := compile_callText (fitAll_replicate (e := .int 1) rfl 256) (by rw [hn]; decide)
  rw [hn] at h
  exact ⟨h, compile_broken h⟩

end Naskah
