/-
  Runs as one frame sees them.  A stride is what the machine does from one instruction of the
  running frame to the next: one step, or a call with all the steps until it returns.  A path is
  made of strides, with the offsets of the instructions that the frame has executed; as long as the
  frame is alive, its paths are the runs of the machine (`exists_path_iff`).

  A stride goes to the next instruction or to the target of a jump, and leaves the frames that wait
  as they are (`Stride.cases`).  A path stays between two offsets, or leaves them for a first time
  (`Path.split`).
-/
import Mathlib.Data.Nat.Find
import Naskah.Proofs.Machine.Levels

namespace Naskah.Machine

variable {p : Program} {m m' m₁ : Machine} {i : Instruction} {n : Nat}

/-! ## Strides -/

/-- From one instruction of the running frame to the next. -/
def Stride (p : Program) (m m' : Machine) : Prop :=
  ∃ n, runFor p (n + 1) m = .ok none m' ∧ m'.callers.length = m.callers.length ∧
    ∀ j < n, ∀ m₁, runFor p (j + 1) m = .ok none m₁ → m.callers.length < m₁.callers.length

/-- The last step of a run. -/
theorem runFor_last (h : runFor p (n + 1) m = .ok none m') :
    ∃ last, runFor p n m = .ok none last ∧ step p last = .ok none m' := by
  obtain ⟨last, hlast⟩ := runFor_none h
  refine ⟨last, hlast, ?_⟩
  rw [runFor_add hlast, runFor_succ] at h
  cases hs : step p last with
  | error e m₁ => rw [hs] at h; cases h
  | ok answer m₁ =>
    rw [hs] at h
    cases answer with
    | some v => cases h
    | none => exact h

theorem runFor_first (h : runFor p (n + 1) m = .ok none m') :
    ∃ m₁, step p m = .ok none m₁ ∧ runFor p n m₁ = .ok none m' := by
  rw [runFor_succ] at h
  cases hs : step p m with
  | error e m₁ => rw [hs] at h; cases h
  | ok answer m₁ =>
    rw [hs] at h
    cases answer with
    | some v => cases h
    | none => exact ⟨m₁, rfl, h⟩

/-- Frames that wait are not touched as long as no frame above them is left. -/
theorem Advance.suffix {fs : List Frame} (h : Advance p m m') (hs : fs <:+ m.callers)
    (hl : fs.length ≤ m'.callers.length) : fs <:+ m'.callers := by
  have below : ∀ {f : Frame} {gs : List Frame}, m.callers = f :: gs → fs.length ≤ gs.length →
      fs <:+ gs := by
    intro f gs hc hl
    rw [hc] at hs
    rcases List.suffix_cons_iff.1 hs with rfl | hs
    · exact absurd hl (by simp)
    · exact hs
  cases h with
  | goes => exact hs
  | enters => exact hs.trans (List.suffix_cons _ _)
  | returns _ _ hc => exact below hc hl
  | ends _ _ hc => exact below hc hl

theorem runFor_suffix {fs : List Frame} (hs : fs <:+ m.callers)
    (hr : runFor p n m = .ok none m')
    (hl : ∀ j ≤ n, ∀ m₁, runFor p j m = .ok none m₁ → fs.length ≤ m₁.callers.length) :
    fs <:+ m'.callers := by
  induction n generalizing m' with
  | zero =>
    cases hr
    exact hs
  | succ n ih =>
    obtain ⟨last, hlast, hstep⟩ := runFor_last hr
    have hsuf := ih hlast fun j hj => hl j (Nat.le_succ_of_le hj)
    exact (advance_of_step hstep).suffix hsuf (hl (n + 1) (Nat.le_refl _) m' hr)

/-- How the frames change with a step. -/
theorem Advance.length_callers (h : Advance p m m') :
    (∃ i ip locals, m.Next p i ∧ m'.callers = m.callers ∧
        m'.current = { m.current with ip, locals } ∧
        (ip = m.current.ip + 1 ∨ i.target? = some ip)) ∨
      (∃ n, m.Next p (.call n) ∧ m'.callers = m.fetched.current :: m.callers) ∨
      m.callers = m'.current :: m'.callers := by
  cases h with
  | @goes i ip locals _ _ _ _ hi _ hip => exact .inl ⟨i, ip, locals, hi, rfl, rfl, hip⟩
  | enters hi => exact .inr (.inl ⟨_, hi, rfl⟩)
  | returns _ _ hc => exact .inr (.inr hc)
  | ends _ _ hc => exact .inr (.inr hc)

/-- **What a stride does to the frames**: it is one step to the next instruction or to the target of
    a jump, or a call that returns to the next instruction. -/
theorem Stride.cases (h : Stride p m m') :
    (step p m = .ok none m' ∧ ∃ i ip locals, m.Next p i ∧ m'.callers = m.callers ∧
        m'.current = { m.current with ip, locals } ∧
        (ip = m.current.ip + 1 ∨ i.target? = some ip)) ∨
      ∃ n, m.Next p (.call n) ∧ m'.callers = m.callers ∧ m'.current = m.fetched.current := by
  obtain ⟨n, hr, hl, habove⟩ := h
  cases n with
  | zero =>
    obtain ⟨_, hr₀, hs⟩ := runFor_last hr
    cases hr₀
    rcases (advance_of_step hs).length_callers with h | ⟨_, _, hc⟩ | hc
    · exact .inl ⟨hs, h⟩
    · rw [hc] at hl
      exact absurd hl (by simp)
    · rw [hc] at hl
      exact absurd hl (by simp)
  | succ n =>
    obtain ⟨m₁, hs, hr₁⟩ := runFor_first hr
    have hfirst := habove 0 (Nat.succ_pos n) m₁ (runFor_one hs)
    rcases (advance_of_step hs).length_callers with ⟨_, _, _, _, hc, _⟩ | ⟨k, hi, hc⟩ | hc
    · rw [hc] at hfirst
      exact absurd hfirst (Nat.lt_irrefl _)
    · obtain ⟨last, hlast, hend⟩ := runFor_last hr₁
      -- up to the last step the caller waits, and then it goes on as it was
      have hsuf : m.fetched.current :: m.callers <:+ last.callers := by
        refine runFor_suffix ⟨[], hc.symm⟩ hlast fun j hj m₂ hm₂ => ?_
        refine habove j (by omega) m₂ ?_
        rw [runFor_succ, hs]
        exact hm₂
      have hle := hsuf.length_le
      rcases (advance_of_step hend).length_callers with ⟨_, _, _, _, hc', _⟩ | ⟨_, _, hc'⟩ | hc'
      · rw [← hc', hl] at hle
        exact absurd hle (by simp)
      · rw [hc'] at hl
        simp only [List.length_cons] at hl hle
        omega
      · have heq := hsuf.eq_of_length (by rw [hc', List.length_cons, List.length_cons, hl])
        rw [hc', List.cons.injEq] at heq
        exact .inr ⟨k, hi, heq.2.symm, heq.1.symm⟩
    · rw [hc, List.length_cons] at hfirst
      omega

theorem Stride.of_step (h : step p m = .ok none m') (hc : m'.callers = m.callers) : Stride p m m' :=
  ⟨0, runFor_one h, by rw [hc], fun j hj => absurd hj (Nat.not_lt_zero j)⟩

/-- An instruction that calls nothing takes one step. -/
theorem Stride.step (h : Stride p m m') (hi : m.Next p i) (hn : ∀ k, i ≠ .call k) :
    Machine.step p m = .ok none m' := by
  rcases h.cases with ⟨hs, -⟩ | ⟨k, hk, -⟩
  · exact hs
  · exact absurd (hi.unique hk) (hn k)

theorem Stride.chunk (h : Stride p m m') : m'.current.chunk = m.current.chunk := by
  rcases h.cases with ⟨-, _, _, _, -, -, hc, -⟩ | ⟨_, -, -, hc⟩
  all_goals rw [hc]
  all_goals rfl

/-- Where a stride leads. -/
theorem Stride.ip (h : Stride p m m') :
    ∃ i, m.Next p i ∧ (m'.current.ip = m.current.ip + 1 ∨ i.target? = some m'.current.ip) := by
  rcases h.cases with ⟨-, i, ip, _, hi, -, hc, hip⟩ | ⟨k, hi, -, hc⟩
  · refine ⟨i, hi, ?_⟩
    rw [hc]
    exact hip
  · refine ⟨_, hi, .inl ?_⟩
    rw [hc]
    rfl

/-- **How many operands there are after a stride.**  In a verified program this holds of calls too:
    they return with one value in the place of the function and its arguments. -/
theorem Stride.height (h : Stride p m m') (hi : m.Next p i)
    (hcall : (∀ k, i ≠ .call k) ∨ p.Verified) :
    m.stack.length + i.results = m'.stack.length + i.operands := by
  obtain ⟨n, hr, hl, habove⟩ := h
  obtain ⟨m₁, hs, hr₁⟩ := runFor_first hr
  have hstays : m.callers ≠ m₁.current :: m₁.callers := by
    intro hc
    have hle : m.callers.length ≤ m₁.callers.length := by
      cases n with
      | zero =>
        cases hr₁
        exact Nat.le_of_eq hl.symm
      | succ n => exact Nat.le_of_lt (habove 0 (Nat.succ_pos n) m₁ (runFor_one hs))
    rw [hc, List.length_cons] at hle
    omega
  cases advance_of_step hs with
  | goes _ _ hi' _ _ hstack ht hp =>
    obtain rfl := hi.unique hi'
    -- one step is all of the stride, for nothing was called
    cases n with
    | succ n => exact absurd (habove 0 (Nat.succ_pos n) _ (runFor_one hs)) (Nat.lt_irrefl _)
    | zero =>
      cases hr₁
      rw [hstack]
      simp only [List.length_append]
      omega
  | @enters k x args rest chunk hi' hstack hk ha hd =>
    obtain rfl := hi.unique hi'
    have hp : p.Verified := hcall.resolve_left fun h => h _ rfl
    have hinside : ({ m.fetched with stack := rest }.entered k x args).Inside p
        (m.fetched.current :: m.callers) rest := .of_entered hp hk ha
    rcases hinside.run hp hr₁ with h | ⟨j, hj, last, v, -, -, hret⟩
    · have hle := h.suffix.1.length_le
      rw [hl] at hle
      exact absurd hle (by simp)
    · -- the call returns once, and with that the stride is over
      have hj : j + 1 = n := by
        by_contra hne
        have := habove (j + 1) (by omega) _ (by rw [runFor_succ, hs]; exact hret)
        exact absurd this (Nat.lt_irrefl _)
      rw [hj, hr₁] at hret
      cases hret
      rw [hstack]
      simp [Instr.results, Instr.operands]
      omega
  | returns _ _ hc => exact (hstays hc).elim
  | ends _ _ hc => exact (hstays hc).elim

theorem code_of_chunk {f f' : Frame} (h : f'.chunk = f.chunk) : f'.code p = f.code p := by
  unfold Frame.code
  rw [h]

section
variable {whole : List Instruction} {t : Nat}

/-- A jump goes to its target. -/
theorem stride_jump_iff (hc : m.current.code p = .ok whole)
    (hi : whole[m.current.ip]? = some (.jump t)) (ht : t ≤ whole.length) :
    Stride p m m' ↔ m' = m.jumped t := by
  have hs : step p m = .ok none (m.jumped t) := (step_fetch hc hi).trans (execute_jump hc ht)
  constructor
  · intro h
    have hs' := h.step ⟨whole, hc, hi⟩ nofun
    rw [hs] at hs'
    cases hs'
    rfl
  · rintro rfl
    exact .of_step hs rfl

/-- The machine after a test has taken the topmost operand: it goes to the target if that is
    false. -/
def tested (m : Machine) (t : Nat) (v : Value) (rest : List Value) : Machine :=
  { m.jumped (if v.isTruthy then m.current.ip + 1 else t) with stack := rest }

theorem tested_of_truthy {v : Value} (hv : v.isTruthy = true) (rest : List Value) :
    m.tested t v rest = { m.fetched with stack := rest } := by
  rw [tested, if_pos hv]
  rfl

theorem tested_of_falsy {v : Value} (hv : v.isTruthy = false) (rest : List Value) :
    m.tested t v rest = { m.jumped t with stack := rest } := by
  rw [tested, if_neg (by simp [hv])]

theorem stride_jumpIfFalse_iff (hc : m.current.code p = .ok whole)
    (hi : whole[m.current.ip]? = some (.jumpIfFalse t)) (ht : t ≤ whole.length) :
    Stride p m m' ↔ ∃ v rest, m.stack = v :: rest ∧ m' = m.tested t v rest := by
  have hs : ∀ {v : Value} {rest : List Value}, m.stack = v :: rest →
      step p m = .ok none (m.tested t v rest) := by
    intro v rest hs
    rw [step_fetch hc hi]
    cases hv : v.isTruthy with
    | true =>
      rw [tested_of_truthy hv]
      exact execute_jumpIfFalse_true (m := m.fetched) hs hv
    | false =>
      rw [tested_of_falsy hv]
      exact execute_jumpIfFalse_false (m := m.fetched) hs hv hc ht
  constructor
  · intro h
    have hs' := h.step ⟨whole, hc, hi⟩ nofun
    cases hstack : m.stack with
    | nil =>
      rw [step_fetch hc hi, execute, bind_error (pop_nil (m := m.fetched) hstack)] at hs'
      cases hs'
    | cons v rest =>
      rw [hs hstack] at hs'
      cases hs'
      exact ⟨v, rest, rfl, rfl⟩
  · rintro ⟨v, rest, hstack, rfl⟩
    exact .of_step (hs hstack) rfl

end

/-! ## Paths -/

/-- Strides one after the other, with the offsets of the instructions that the frame executes. -/
inductive Path (p : Program) : Machine → List Nat → Machine → Prop
  | nil (m : Machine) : Path p m [] m
  | cons {m m₁ m' : Machine} {l : List Nat} (h : Stride p m m₁) (hs : Path p m₁ l m') :
      Path p m (m.current.ip :: l) m'

namespace Path

variable {l l₁ l₂ : List Nat}

theorem append (h₁ : Path p m l₁ m₁) (h₂ : Path p m₁ l₂ m') : Path p m (l₁ ++ l₂) m' := by
  induction h₁ with
  | nil => exact h₂
  | cons h _ ih => exact .cons h (ih h₂)

theorem chunk (h : Path p m l m') : m'.current.chunk = m.current.chunk := by
  induction h with
  | nil => rfl
  | cons h _ ih => rw [ih, h.chunk]

theorem code (h : Path p m l m') : m'.current.code p = m.current.code p :=
  code_of_chunk h.chunk

end Path

/-- An offset from the first one on and before the second one. -/
def Inner (lo hi k : Nat) : Prop :=
  lo ≤ k ∧ k < hi

theorem Inner.mono {lo hi lo' hi' k : Nat} (h : Inner lo' hi' k) (hlo : lo ≤ lo') (hhi : hi' ≤ hi) :
    Inner lo hi k :=
  ⟨Nat.le_trans hlo h.1, Nat.lt_of_lt_of_le h.2 hhi⟩

/-- A path that is between two offsets all the time. -/
structure Within (p : Program) (lo hi : Nat) (m : Machine) (l : List Nat) (m' : Machine) :
    Prop where
  path : Path p m l m'
  offsets : ∀ k ∈ l, Inner lo hi k
  ip : Inner lo hi m'.current.ip

/-- A path that is between two offsets until it leaves them with its last stride. -/
structure Leaves (p : Program) (lo hi : Nat) (m : Machine) (l : List Nat) (m' : Machine) :
    Prop where
  path : Path p m l m'
  offsets : ∀ k ∈ l, Inner lo hi k
  ip : ¬ Inner lo hi m'.current.ip

section
variable {lo hi : Nat} {l l₁ l₂ : List Nat}

/-- **A path stays between two offsets or leaves them for a first time.** -/
theorem Path.split (lo hi : Nat) (h : Path p m l m') : Within p lo hi m l m' ∨
    ∃ l₁ m₁ l₂, l = l₁ ++ l₂ ∧ Leaves p lo hi m l₁ m₁ ∧ Path p m₁ l₂ m' := by
  induction h with
  | nil m =>
    by_cases hm : Inner lo hi m.current.ip
    · exact .inl ⟨.nil m, by simp, hm⟩
    · exact .inr ⟨[], m, [], rfl, ⟨.nil m, by simp, hm⟩, .nil m⟩
  | @cons m m₁ m' l ht hs ih =>
    by_cases hm : Inner lo hi m.current.ip
    · rcases ih with h | ⟨l₁, m₂, l₂, rfl, h, h₂⟩
      · exact .inl ⟨.cons ht h.path, List.forall_mem_cons.2 ⟨hm, h.offsets⟩, h.ip⟩
      · exact .inr ⟨_ :: l₁, m₂, l₂, rfl,
          ⟨.cons ht h.path, List.forall_mem_cons.2 ⟨hm, h.offsets⟩, h.ip⟩, h₂⟩
    · exact .inr ⟨[], m, _, rfl, ⟨.nil m, by simp, hm⟩, .cons ht hs⟩

namespace Leaves

/-- What is outside leaves at once. -/
theorem eq_nil (h : Leaves p lo hi m l m') (hm : ¬ Inner lo hi m.current.ip) : l = [] ∧ m' = m := by
  obtain ⟨hpath, hoffsets, -⟩ := h
  cases hpath with
  | nil => exact ⟨rfl, rfl⟩
  | cons => exact absurd (hoffsets _ (by simp)) hm

/-- What leaves a part of the offsets has left or is still to leave all of them. -/
theorem split (h : Leaves p lo hi m l m') (lo' hi' : Nat) (hlo : lo ≤ lo') (hhi : hi' ≤ hi) :
    ∃ l₁ m₁ l₂, l = l₁ ++ l₂ ∧ Leaves p lo' hi' m l₁ m₁ ∧ Leaves p lo hi m₁ l₂ m' := by
  rcases h.path.split lo' hi' with hw | ⟨l₁, m₁, l₂, rfl, h₁, h₂⟩
  · exact absurd (hw.ip.mono hlo hhi) h.ip
  · exact ⟨l₁, m₁, l₂, rfl, h₁, h₂, fun k hk => h.offsets k (by simp [hk]), h.ip⟩

/-- One stride further. -/
theorem uncons (h : Leaves p lo hi m l m') (hm : Inner lo hi m.current.ip) :
    ∃ m₁ l', l = m.current.ip :: l' ∧ Stride p m m₁ ∧ Leaves p lo hi m₁ l' m' := by
  obtain ⟨hpath, hoffsets, hip⟩ := h
  cases hpath with
  | nil => exact absurd hm hip
  | @cons _ m₁ _ l' ht hs =>
    exact ⟨m₁, l', rfl, ht, hs, fun k hk => hoffsets k (by simp [hk]), hip⟩

end Leaves

end

end Naskah.Machine
