/-
  Compiling keeps the meaning of a script.  The machine that runs the compiled text ends as the
  interpreter of the tree does: with the same value or fault, the same lines and the same names of
  the module; and it ends only if the interpreter does (`compile_ends_iff`).
-/
import Naskah.Proofs.Compile.Rendered
import Naskah.Proofs.Tree.Calls

namespace Naskah

open Machine Naskah.Tree

/-! ## Endings -/

/-- A fresh machine runs the program to the given ending. -/
def Program.EndsWith (p : Program) (e : Ending) : Prop :=
  ∃ k m, runFor p k .start = (match e.result with
    | .ok v => .ok (some v) m
    | .error f => .error f m) ∧ m.output = e.output ∧ m.moduleFrame.locals = e.globals

namespace Program.EndsWith

variable {p : Program} {e e' : Ending}

theorem unique (h : p.EndsWith e) (h' : p.EndsWith e') : e = e' := by
  obtain ⟨r, output, globals⟩ := e
  obtain ⟨r', output', globals'⟩ := e'
  obtain ⟨k, m, hk, rfl, rfl⟩ := h
  obtain ⟨k', m', hk', rfl, rfl⟩ := h'
  have hlong := runFor_ended (p := p) (a := k) (m := .start) (by rw [hk]; cases r <;> simp) k'
  have hlong' := runFor_ended (p := p) (a := k') (m := .start) (by rw [hk']; cases r' <;> simp) k
  rw [Nat.add_comm, hlong', hk, hk'] at hlong
  cases r <;> cases r' <;> cases hlong <;> rfl

/-- A run that was interrupted has no ending yet. -/
theorem not_interrupted (h : p.EndsWith e) :
    ∃ k, ∀ m, runFor p k .start ≠ .ok none m := by
  obtain ⟨k, m, hk, -⟩ := h
  refine ⟨k, fun m' hm => ?_⟩
  rw [hk] at hm
  cases hr : e.result <;> rw [hr] at hm <;> cases hm

end Program.EndsWith

/-! ## The module -/

/-- The frame of the module. -/
def Activation.module : Activation :=
  ⟨none, 0, []⟩

namespace Tree.Script

variable {s : Script} {n : Nat}

theorem followed (h : s.fits = true) (n : Nat) :
    Followed s.generate s.generate.code .module (s.world n) n 1 := by
  have hr : Activation.module.Runs s.generate s.generate.code none 1 :=
    ⟨fun f hf => by rw [Frame.code, hf]; rfl, rfl, rfl⟩
  exact ⟨hr, rfl, fun callee args ops st hc => (linked h).follows_call n callee args ops st hr hc⟩

theorem length_entryCode (k pos : Nat) (body : List Stmt) :
    (entryCode k pos body).length = 4 + lengthOf body := by
  rw [entryCode, List.length_append, length_codeOf]
  rfl

/-- The entry point follows its body if the module is the main one. -/
theorem follows_entry {p : Program} {code : List Instruction} {a : Activation} {w : World}
    {depth k pos : Nat} {defs : List Definition} {ctx : Context} {ops : List Value}
    (hd : Linked p defs) (hw : Followed p code a w n depth) (hn : w.number = numberOf defs)
    {body : List Stmt} (hf : bodyFits ctx true false body = true)
    (hc : LiesAt code pos (entryCode k pos body)) (hdefs : LiesAt defs k (definitionsOf body))
    (st : Store) :
    Follows p w.outer n (a.machine pos ops st) (execEntry w body st)
      (a.After p false noExits (pos + (4 + lengthOf body)) ops) := by
  have hle : pos + (4 + lengthOf body) ≤ code.length := by
    have hle := LiesAt.length_le hc (by simp [entryCode])
    rwa [length_entryCode] at hle
  rw [← Nat.add_assoc] at hle
  simp only [entryCode, List.cons_append, List.nil_append, LiesAt.cons_iff] at hc
  obtain ⟨hload, hmain, heq, htest, hbody⟩ := hc
  rw [execEntry, ← Nat.add_assoc]
  refine (hw.load hload).bind fun name st₁ m₁ h₁ => ?_
  subst h₁
  refine hw.runs.follows_step hmain (execute_loadConst _) ?_
  cases hx : Comparison.eq.apply name (.string "__main__") with
  | error e => exact hw.runs.follows_fault heq (execute_compare_error rfl hx)
  | ok b =>
    refine hw.runs.follows_step heq (execute_compare rfl hx) ?_
    refine (hw.runs.test (v := .bool b) htest hle ?_ (.done rfl)).mono (Nat.le_succ n)
    exact follows_body hd hw hn body st₁ hf hbody hdefs ⟨Nat.zero_le _, Nat.zero_le _⟩

/-- **The machine follows the script**, up to the return at the end of the module. -/
theorem follows (h : s.fits = true) (n : Nat) :
    Follows s.generate none n .start (s.exec n ⟨[("__name__", .string "__main__")], #[]⟩)
      fun flow st m => ∃ ip, Machine.step s.generate m =
        leave flow.value (Activation.module.machine ip [] st) := by
  have hd := linked h
  have hw := followed h n
  have hdefs : LiesAt s.definitions 0 s.definitions := List.prefix_refl _
  have hcode : LiesAt s.generate.code 0 s.generate.code := List.prefix_refl _
  nth_rewrite 2 [Script.definitions] at hdefs
  nth_rewrite 2 [Script.generate] at hcode
  simp only [LiesAt.append_iff, List.length_append, length_definitionsOf, length_codeOf,
    length_entryCode, Nat.add_assoc (lengthOf s.before) 4, Nat.zero_add] at hdefs hcode
  obtain ⟨⟨hbefore, hentry⟩, hafter⟩ := hdefs
  obtain ⟨⟨⟨cbefore, centry⟩, cafter⟩, cend⟩ := hcode
  simp only [Script.fits, Bool.and_eq_true] at h
  have hx : Exits.Within noExits s.generate.code := ⟨Nat.zero_le _, Nat.zero_le _⟩
  have hfirst : Follows s.generate none n .start
      (execAll (s.world n) s.before ⟨[("__name__", .string "__main__")], #[]⟩)
      (Activation.module.After s.generate false noExits (0 + lengthOf s.before) []) :=
    follows_body hd hw rfl s.before _ h.1.1 cbefore hbefore hx
  rw [Nat.zero_add] at hfirst
  have hall := hfirst.andThen fun st =>
    (follows_entry hd hw rfl h.1.2 centry hentry st).andThen fun st =>
      follows_body hd hw rfl s.after st h.2 cafter hafter hx
  exact hall.onward fun flow st m hm => hw.runs.leaves cend hm

/-- An ending of the interpreter is reached. -/
theorem endsWith_of_ending? (h : s.fits = true) {e : Ending} (he : s.ending? n = some e) :
    s.generate.EndsWith e := by
  have hf := follows h n
  unfold ending? at he
  cases hr : s.exec n ⟨[("__name__", .string "__main__")], #[]⟩ with
  | ok flow st =>
    rw [hr] at he hf
    cases he
    obtain ⟨k, m, hk, ip, hstep⟩ := hf
    rw [leave_module rfl] at hstep
    exact ⟨k + 1, _, (runFor_add hk 1).trans (runFor_one hstep), rfl, rfl⟩
  | error halt st =>
    rw [hr] at he hf
    cases halt with
    | fault f =>
      cases he
      obtain ⟨k, m, hk, ho, hg⟩ := hf
      exact ⟨k, m, hk, ho, hg⟩
    | cut => cases he

/-- As long as the interpreter is cut off the machine runs. -/
theorem runFor_of_cut (h : s.fits = true) (he : s.ending? n = none) :
    ∃ m, runFor s.generate n .start = .ok none m := by
  have hf := follows h n
  unfold ending? at he
  cases hr : s.exec n ⟨[("__name__", .string "__main__")], #[]⟩ with
  | ok flow st => rw [hr] at he; cases he
  | error halt st =>
    rw [hr] at he hf
    cases halt with
    | fault f => cases he
    | cut =>
      obtain ⟨k, m, hn, hk⟩ := hf
      obtain ⟨j, rfl⟩ := Nat.exists_eq_add_of_le hn
      exact runFor_none hk

/-- **Compiling keeps the meaning of a script**: the compiled text runs to an ending if and only if
    the interpreter of the tree does.  In 32 bits this is about scripts with fewer than `2 ^ 32`
    labels, instructions and chunks. -/
theorem compile_ends_iff {s : Script} (h : s.fits = true) :
    ∃ p, compile s.render = .ok p ∧ ∀ e, (∃ n, s.ending? n = some e) ↔ p.EndsWith e := by
  obtain ⟨cs, hb, hcs⟩ := toList_withEndMark s.render
  refine ⟨s.generate, compileBuffer_render h hb hcs, fun e => ⟨?_, fun hp => ?_⟩⟩
  · rintro ⟨n, he⟩
    exact endsWith_of_ending? h he
  · -- with as many rounds as the machine makes steps the interpreter is not cut off
    obtain ⟨k, hk⟩ := hp.not_interrupted
    cases he : s.ending? k with
    | none =>
      obtain ⟨m, hm⟩ := runFor_of_cut h he
      exact absurd hm (hk m)
    | some e' =>
      rw [hp.unique (endsWith_of_ending? h he)]
      exact ⟨k, he⟩

/-- The multiples are printed by the compiled text. -/
theorem compile_multiples_ends : multiples.fits = true ∧
    ∃ p, compile multiples.render = .ok p ∧ p.EndsWith ⟨.ok .null, #["5 * 1 = 5!", "5 * 3 = 15!"],
      [("__name__", .string "__main__"), ("kali", .function 0 "kali"), ("i", .int 3)]⟩ := by
  have h : multiples.fits = true := rfl
  obtain ⟨p, hp, hends⟩ := compile_ends_iff h
  exact ⟨h, p, hp, (hends _).1 ⟨6, rfl⟩⟩

end Tree.Script

end Naskah
