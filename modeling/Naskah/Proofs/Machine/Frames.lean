/-
  The frames of a machine, whatever program it runs.

  However often a program is run, and whether its runs end, fail or are cut off, its frames stay
  in order (`Reached.frames_valid`): the module is the outermost one, the others run chunks that
  exist, none has left its code, and there are never more than the machine allows.  So every fault
  comes from an instruction and its operands (`Cause`), never from a frame.

  While a function runs, the frames that wait for it stay as they are (`step_isolates`).
-/
import Naskah.Proofs.Machine.Steps

namespace Naskah

/-- The number of operands that an instruction takes. -/
def Instr.operands {τ : Type} : Instr τ → Nat
  | loadConst _ | loadName _ | jump _ => 0
  | storeName _ | jumpIfFalse _ | makeFunction _ | ret | pop => 1
  | binary _ | compare _ => 2
  | buildString n => n
  | call n => n + 1

/-- A frame runs code that exists, and has not left it. -/
def Frame.Valid (p : Program) (f : Frame) : Prop :=
  ∃ code, f.code p = .ok code ∧ f.ip ≤ code.length

/-- The module runs in the outermost frame, and functions in the others. -/
theorem Layered.exists_module {M F : Frame → Prop} {fs : List Frame} (h : Layered M F fs) :
    ∃ called f, fs = called ++ [f] ∧ f.chunk = none ∧ ∀ g ∈ called, ∃ k, g.chunk = some k := by
  induction h with
  | @module f hc _ => exact ⟨[], f, rfl, hc, by simp⟩
  | @call f fs k hk _ _ ih =>
    obtain ⟨called, g, rfl, hg, hs⟩ := ih
    exact ⟨f :: called, g, rfl, hg, List.forall_mem_cons.2 ⟨⟨k, hk⟩, hs⟩⟩

theorem Layered.forall {P : Frame → Prop} {fs : List Frame} (h : Layered P P fs) :
    ∀ f ∈ fs, P f := by
  induction h with
  | module _ h => simpa using h
  | call _ h _ ih => exact List.forall_mem_cons.2 ⟨h, ih⟩

namespace Machine

variable {p : Program} {m m' : Machine} {i : Instruction} {e : Fault}

/-! ## Causes of faults -/

/-- Why an instruction fails. -/
inductive Cause (p : Program) (m : Machine) : Instruction → Fault → Prop
  | missing {i : Instruction} (h : m.stack.length < i.operands) : Cause p m i .stackUnderflow
  | operands {i : Instruction} {e : Fault} (h : e.ofOperands = true) : Cause p m i e
  | name {x : String} (h : m.lookup x = .error (.unboundName x)) :
      Cause p m (.loadName x) (.unboundName x)
  | target {i : Instruction} {t : Nat} {code : List Instruction} (ht : i.target? = some t)
      (hc : m.current.code p = .ok code) (hl : code.length < t) : Cause p m i (.jumpOutOfBounds t)
  | chunk {x : String} {k : Nat} (hs : m.stack.head? = some (.chunk k))
      (hk : p.chunks[k]? = none) : Cause p m (.makeFunction x) (.invalidChunk k)
  | noChunk {x : String} : Cause p m (.makeFunction x) (.typeMismatch .chunk)
  | callee {n : Nat} {v : Value} {e : Fault} (hs : m.stack[n]? = some v)
      (he : callFault p m n v = some e) : Cause p m (.call n) e

theorem jump_error {t : Nat} {code : List Instruction} (hc : m.current.code p = .ok code)
    (h : jump p t m = .error e m') : code.length < t ∧ e = .jumpOutOfBounds t := by
  by_cases hlt : code.length < t
  · rw [jump, get_bind, hc, bind_ok (lift_ok code _), if_pos hlt] at h
    cases h
    exact ⟨hlt, rfl⟩
  · rw [jump_eq hc (Nat.not_lt.1 hlt)] at h
    cases h

theorem leave_ne_error {v : Value} : leave v m ≠ .error e m' := by
  intro h
  rw [leave, get_bind] at h
  cases hc : m.callers with
  | nil => rw [hc] at h; cases h
  | cons f fs => rw [hc] at h; cases h

/-- The value of a computation does not decide whether it fails. -/
theorem error_of_bind_pure {α β : Type} {x : MachineM α} {f : α → β}
    (h : (x >>= fun a => pure (f a)) m = .error e m') : x m = .error e m' := by
  cases hx : x m with
  | ok a m₁ => rw [bind_ok hx] at h; cases h
  | error e₁ m₁ => rw [bind_error hx] at h; cases h; rfl

section
variable {n t : Nat} {x : String} {op : Operation} {c : Comparison}

theorem Cause.of_pop_nil {α : Type} {f : Value → MachineM α} (hn : 0 < i.operands)
    (hs : m.stack = []) (h : (pop >>= f) m = .error e m') : Cause p m i e := by
  rw [bind_error (pop_nil hs)] at h
  cases h
  exact .missing (by rw [hs]; exact hn)

/-- An operation refuses a right operand for a reason that lies in it. -/
theorem ofOperands_of_checkRight {r : Value} (h : op.checkRight r = .error e) :
    e.ofOperands = true := by
  have ha := apply_harmless (P := fun _ => True) (fun _ _ => trivial) (l := .null) (r := r)
    trivial trivial op
  rw [apply_of_checkRight h] at ha
  exact ha

theorem cause_of_binary (h : execute p (.binary op) m = .error e m') :
    Cause p m (.binary op) e := by
  cases hs : m.stack with
  | nil =>
    rw [execute, binary, bind_assoc] at h
    exact .of_pop_nil Nat.two_pos hs h
  | cons r stack =>
    cases stack with
    | nil =>
      rw [execute, binary] at h
      simp only [bind_assoc] at h
      rw [bind_ok (pop_cons hs)] at h
      cases hr : op.checkRight r with
      | error e' =>
        rw [hr, bind_error (lift_error e' _)] at h
        cases h
        exact .operands (ofOperands_of_checkRight hr)
      | ok u =>
        rw [hr, bind_ok (lift_ok u _), bind_error (pop_nil rfl)] at h
        cases h
        exact .missing (by rw [hs]; exact Nat.one_lt_two)
    | cons l rest =>
      have ha := apply_harmless (P := fun _ => True) (fun _ _ => trivial) (l := l) (r := r)
        trivial trivial op
      cases hv : op.apply l r with
      | ok v => rw [execute_binary hs hv] at h; cases h
      | error e' =>
        obtain ⟨stack, -, he⟩ := execute_binary_error (p := p) hs hv
        rw [he] at h
        cases h
        rw [hv] at ha
        exact .operands ha

theorem cause_of_compare (h : execute p (.compare c) m = .error e m') :
    Cause p m (.compare c) e := by
  cases hs : m.stack with
  | nil =>
    rw [execute, compare, bind_assoc] at h
    exact .of_pop_nil Nat.two_pos hs h
  | cons r stack =>
    cases stack with
    | nil =>
      rw [execute, compare] at h
      simp only [bind_assoc] at h
      rw [bind_ok (pop_cons hs), bind_error (pop_nil rfl)] at h
      cases h
      exact .missing (by rw [hs]; exact Nat.one_lt_two)
    | cons l rest =>
      have hb := compare_harmless c l r
      cases hv : c.apply l r with
      | ok b => rw [execute_compare hs hv] at h; cases h
      | error e' =>
        rw [execute_compare_error hs hv] at h
        cases h
        rw [hv] at hb
        exact .operands hb

theorem cause_of_jumpIfFalse {code : List Instruction} (hc : m.current.code p = .ok code)
    (h : execute p (.jumpIfFalse t) m = .error e m') : Cause p m (.jumpIfFalse t) e := by
  cases hs : m.stack with
  | nil => exact .of_pop_nil Nat.one_pos hs (by rw [execute] at h; exact h)
  | cons v rest =>
    cases hv : v.isTruthy with
    | true => rw [execute_jumpIfFalse_true hs hv] at h; cases h
    | false =>
      rw [execute, bind_ok (pop_cons hs)] at h
      simp only [hv, Bool.not_false, if_true] at h
      obtain ⟨hl, rfl⟩ := jump_error (m := { m with stack := rest }) hc (error_of_bind_pure h)
      exact .target rfl hc hl

theorem cause_of_buildString (h : execute p (.buildString n) m = .error e m') :
    Cause p m (.buildString n) e := by
  by_cases hn : m.stack.length < n
  · rw [execute, bind_error (popMany_error hn)] at h
    cases h
    exact .missing hn
  · obtain ⟨args, rest, hs, rfl⟩ := exists_operands (Nat.not_lt.1 hn)
    rw [execute_buildString hs] at h
    cases h

theorem cause_of_call (h : execute p (.call n) m = .error e m') : Cause p m (.call n) e := by
  by_cases hn : m.stack.length < n
  · rw [execute, call, bind_assoc, bind_error (popMany_error hn)] at h
    cases h
    exact .missing (Nat.lt_succ_of_lt hn)
  obtain ⟨args, below, hs, rfl⟩ := exists_operands (Nat.not_lt.1 hn)
  cases below with
  | nil =>
    rw [execute, call] at h
    simp only [bind_assoc] at h
    rw [bind_ok (popMany_append hs), bind_error (pop_nil rfl)] at h
    cases h
    exact .missing (by simp [hs, Instr.operands])
  | cons callee rest =>
    cases hcf : callFault p m args.length callee with
    | some e' =>
      rw [execute_call_error hs hcf] at h
      cases h
      exact .callee (by simp [hs]) hcf
    | none =>
      rcases callFault_eq_none hcf with rfl | ⟨k, x, chunk, rfl, hk, ha, hd⟩
      · rw [execute_call_print hs] at h; cases h
      · rw [execute_call_function hs hk ha hd] at h; cases h

theorem cause_of_makeFunction (h : execute p (.makeFunction x) m = .error e m') :
    Cause p m (.makeFunction x) e := by
  rw [execute, makeFunction] at h
  simp only [bind_assoc] at h
  cases hs : m.stack with
  | nil => exact .of_pop_nil Nat.one_pos hs h
  | cons v rest =>
    rw [bind_ok (pop_cons hs)] at h
    cases v with
    | chunk k =>
      cases hk : p.chunks[k]? with
      | some chunk => simp only [hk] at h; cases h
      | none =>
        simp only [hk] at h
        cases h
        exact .chunk (by rw [hs]; rfl) hk
    | null | int _ | float _ | bool _ | string _ | function _ _ | builtin _ =>
      cases h
      exact .noChunk

end

/-- **Every fault has its cause in an instruction and its operands.** -/
theorem cause_of_execute {code : List Instruction} (hc : m.current.code p = .ok code)
    (h : execute p i m = .error e m') : Cause p m i e := by
  cases i with
  | loadConst v => cases h
  | loadName x =>
    cases hv : m.lookup x with
    | ok v => rw [execute_loadName hv] at h; cases h
    | error e' =>
      rw [execute_loadName_error hv] at h
      cases h
      obtain rfl := lookup_error hv
      exact .name hv
  | storeName x =>
    cases hs : m.stack with
    | nil => exact .of_pop_nil Nat.one_pos hs (by rw [execute] at h; exact h)
    | cons v rest => rw [execute_storeName hs] at h; cases h
  | pop =>
    cases hs : m.stack with
    | nil => exact .of_pop_nil Nat.one_pos hs (by rw [execute] at h; exact h)
    | cons v rest => rw [execute_pop hs] at h; cases h
  | ret =>
    cases hs : m.stack with
    | nil => exact .of_pop_nil Nat.one_pos hs (by rw [execute] at h; exact h)
    | cons v rest => rw [execute_ret hs] at h; exact absurd h leave_ne_error
  | binary op => exact cause_of_binary h
  | compare c => exact cause_of_compare h
  | jump t =>
    rw [execute] at h
    obtain ⟨hl, rfl⟩ := jump_error hc (error_of_bind_pure h)
    exact .target rfl hc hl
  | jumpIfFalse t => exact cause_of_jumpIfFalse hc h
  | buildString n => exact cause_of_buildString h
  | call n => exact cause_of_call h
  | makeFunction x => exact cause_of_makeFunction h

/-- A step of a frame in its code fails only after it has fetched an instruction. -/
theorem cause_of_step (hv : m.current.Valid p) (h : step p m = .error e m') :
    ∃ i, m.Next p i ∧ Cause p m.fetched i e := by
  obtain ⟨code, hc, -⟩ := hv
  cases hi : code[m.current.ip]? with
  | none =>
    rw [step_end hc hi] at h
    exact absurd h leave_ne_error
  | some i =>
    rw [step_fetch hc hi] at h
    exact ⟨i, ⟨code, hc, hi⟩, cause_of_execute hc h⟩

theorem callFault_cases {n : Nat} {v : Value} (h : callFault p m n v = some e) :
    (∃ k x, v = .function k x ∧ p.chunks[k]? = none ∧ e = .invalidChunk k) ∨
      (∃ x expected, e = .invalidCallArity x expected n) ∨ e = .callDepthExceeded ∨
        e = .notCallable v.kind := by
  cases v with
  | function k x =>
    simp only [callFault] at h
    cases hk : p.chunks[k]? with
    | none =>
      rw [hk] at h
      exact .inl ⟨k, x, rfl, hk, (Option.some.inj h).symm⟩
    | some c =>
      simp only [hk] at h
      split at h
      · exact .inr (.inl ⟨x, _, (Option.some.inj h).symm⟩)
      · split at h
        · exact .inr (.inr (.inl (Option.some.inj h).symm))
        · cases h
  | builtin b => cases h
  | null | int _ | float _ | bool _ | string _ | chunk _ =>
    exact .inr (.inr (.inr (Option.some.inj h).symm))

theorem Cause.missing_of_underflow (h : Cause p m i .stackUnderflow) :
    m.stack.length < i.operands := by
  cases h with
  | missing h => exact h
  | operands h => cases h
  | callee _ he =>
    rcases callFault_cases he with ⟨_, _, _, _, he⟩ | ⟨_, _, he⟩ | he | he <;> cases he

/-- A chunk that does not exist comes from an operand. -/
theorem Cause.of_invalidChunk {k : Nat} (h : Cause p m i (.invalidChunk k)) :
    p.chunks[k]? = none ∧ ((∃ x, i = .makeFunction x ∧ m.stack.head? = some (.chunk k)) ∨
      ∃ n x, i = .call n ∧ m.stack[n]? = some (.function k x)) := by
  cases h with
  | operands h => cases h
  | chunk hs hk => exact ⟨hk, .inl ⟨_, rfl, hs⟩⟩
  | callee hs he =>
    rcases callFault_cases he with ⟨_, x, rfl, hk, he⟩ | ⟨_, _, he⟩ | he | he <;> cases he
    exact ⟨hk, .inr ⟨_, x, rfl, hs⟩⟩

/-! ## Frames in order -/

/-- The frames of a machine are in order. -/
structure Ordered (p : Program) (m : Machine) : Prop where
  depth : m.frames.length ≤ maxFrames
  layered : Layered (Frame.Valid p) (Frame.Valid p) m.frames

theorem ordered_start : start.Ordered p :=
  ⟨by decide, .module rfl ⟨p.code, rfl, Nat.zero_le _⟩⟩

theorem Follows.valid {f : Frame} (hf : Follows p m f) (h : m.current.Valid p) : f.Valid p := by
  obtain ⟨code, hc, -⟩ := h
  have next : ∀ {i : Instruction}, m.Next p i → m.current.ip + 1 ≤ code.length := by
    rintro i ⟨code', hc', hi⟩
    rw [hc] at hc'
    cases hc'
    exact (List.getElem?_eq_some_iff.1 hi).1
  cases hf with
  | next hi => exact ⟨code, hc, next hi⟩
  | store v hi => exact ⟨code, hc, next hi⟩
  | jump hi ht hl => exact ⟨code, hc, hl hc⟩

theorem Shift.ordered (hm : Shift p m m') (h : m.Ordered p) : m'.Ordered p where
  depth := by
    have hd := h.depth
    cases hm with
    | stays | goes | stores | jumps => exact hd
    | enters _ _ _ hlt => exact hlt
    | leaves hc =>
      rw [frames, hc] at hd
      exact Nat.le_of_succ_le hd
  layered := by
    refine hm.layered h.layered (fun _ hv f hf => hf.valid hv) (fun hv f hf => hf.valid hv) ?_
    intro k x base hk
    exact ⟨p.chunks[k].code, by simp [Frame.code, hk], Nat.zero_le _⟩

/-- Machines that a program can come to: a fresh machine is run any number of times, and every run
    ends, fails or is cut off after some steps. -/
inductive Reached (p : Program) : Machine → Prop
  | start : Reached p start
  | run {m : Machine} (n : Nat) (h : Reached p m) : Reached p (left (runFor p n m))

theorem Reached.ordered (h : Reached p m) : m.Ordered p := by
  induction h with
  | start => exact ordered_start
  | run n _ ih => exact runFor_keeps (fun h hm => hm.ordered h) ih n

/-- **The frames of a machine are always in order**, whatever the program and however often it was
    run, also after it has failed.  There are between 1 and 1024 frames; the outermost one runs the
    module and every other one a chunk of the program; none has left its code.  So a step fails
    only after it has fetched an instruction: it runs out of operands, never out of frames, and a
    chunk that does not exist is always an operand. -/
theorem Reached.frames_valid (h : Reached p m) :
    1 ≤ m.frames.length ∧ m.frames.length ≤ 1024 ∧
    (∃ called f, m.frames = called ++ [f] ∧ f.chunk = none ∧
      ∀ g ∈ called, ∃ k c, g.chunk = some k ∧ p.chunks[k]? = some c) ∧
    (∀ f ∈ m.frames, ∃ code, f.code p = .ok code ∧ f.ip ≤ code.length) ∧
    ∀ e m', step p m = .error e m' → ∃ i, m.Next p i ∧
      (e = .stackUnderflow → m.stack.length < i.operands) ∧
      ∀ k, e = .invalidChunk k → p.chunks[k]? = none ∧
        ((∃ x, i = .makeFunction x ∧ m.stack.head? = some (.chunk k)) ∨
          ∃ n x, i = .call n ∧ m.stack[n]? = some (.function k x)) := by
  obtain ⟨hd, hl⟩ := h.ordered
  have hv := hl.forall
  obtain ⟨called, f, hf, hmod, hcalled⟩ := hl.exists_module
  refine ⟨Nat.succ_pos _, hd, ⟨called, f, hf, hmod, fun g hg => ?_⟩, hv, fun e m' he => ?_⟩
  · obtain ⟨k, hk⟩ := hcalled g hg
    obtain ⟨code, hcode, -⟩ := hv g (by rw [hf]; exact List.mem_append_left _ hg)
    simp only [Frame.code, hk] at hcode
    cases hc : p.chunks[k]? with
    | none => simp [hc] at hcode
    | some c => exact ⟨k, c, hk, hc⟩
  · obtain ⟨i, hi, hcause⟩ := cause_of_step (hv m.current List.mem_cons_self) he
    refine ⟨i, hi, ?_, ?_⟩
    · rintro rfl
      exact hcause.missing_of_underflow
    · rintro k rfl
      exact hcause.of_invalidChunk

/-- Code that the compiler never makes: a constant that is a function, a chunk that is missing, and
    a jump out of the code. -/
def dangling : Program where
  code := [.loadConst (.function 0 "f"), .call 0, .jump 9]
  chunks := [⟨"f", [], [.loadConst (.chunk 7), .makeFunction "g"], 1⟩]

/-- The frames are in order where a run of such code has failed. -/
theorem frames_valid_dangling : ∃ m, Reached dangling m ∧
    runFor dangling 9 start = .error (.invalidChunk 7) m ∧ m.frames.length = 2 ∧
    ∀ f ∈ m.frames, ∃ code, f.code dangling = .ok code ∧ f.ip ≤ code.length := by
  have hr : Reached dangling (left (runFor dangling 9 start)) := .run 9 .start
  exact ⟨_, hr, rfl, rfl, (Reached.frames_valid hr).2.2.2.1⟩

/-! ## Frames that wait -/

/-- **A step leaves the frames alone that wait for the running one.** -/
theorem Shift.callers_suffix (hm : Shift p m m') : m.callers <:+ m'.frames := by
  cases hm with
  | stays | goes | stores | jumps => exact List.suffix_cons _ _
  | enters => exact (List.suffix_cons _ _).trans (List.suffix_cons _ _)
  | leaves hc => rw [hc]; exact List.suffix_rfl

theorem Shift.output_extends (hm : Shift p m m') : m.output.toList <+: m'.output.toList := by
  cases hm with
  | goes _ _ ho => exact ho
  | stays | stores | jumps | enters | leaves => exact List.prefix_rfl

/-- A frame is pushed by a call, on top of the frame that calls. -/
theorem Shift.callers_of_enters (hm : Shift p m m')
    (h : m'.frames.length = m.frames.length + 1) : m'.callers = m.fetched.current :: m.callers := by
  cases hm with
  | stays | goes | stores | jumps => simp [frames, fetched, jumped] at h
  | enters => rfl
  | leaves hc => simp [frames, hc] at h

/-- One more step of a run starts where the run is, unless the run has ended. -/
theorem left_runFor_succ (p : Program) (n : Nat) (m : Machine) :
    left (runFor p (n + 1) m) = left (runFor p n m) ∨
      left (runFor p (n + 1) m) = left (step p (left (runFor p n m))) := by
  by_cases h : ∃ m', runFor p n m = .ok none m'
  · obtain ⟨m', hm⟩ := h
    right
    rw [runFor_add hm, runFor_one rfl, hm]
    rfl
  · left
    rw [runFor_ended (fun m' hm => h ⟨m', hm⟩)]

/-- **Printed lines stay printed.** -/
theorem output_extends_of_le (p : Program) (m : Machine) {i j : Nat} (h : i ≤ j) :
    (left (runFor p i m)).output.toList <+: (left (runFor p j m)).output.toList := by
  induction h with
  | refl => exact List.prefix_rfl
  | @step j _ ih =>
    rcases left_runFor_succ p j m with hs | hs
    · rw [hs]
      exact ih
    · rw [hs]
      exact ih.trans (shift_step p _).output_extends

/-- Frames below the running one stay there until it is their turn. -/
theorem suffix_frames {base : List Frame} (hb : base <:+ m.frames) {n : Nat}
    (hn : ∀ j < n, base.length < (left (runFor p j m)).frames.length) :
    base <:+ (left (runFor p n m)).frames := by
  induction n with
  | zero => exact hb
  | succ n ih =>
    have hwait := ih fun j hj => hn j (Nat.lt_succ_of_lt hj)
    rcases left_runFor_succ p n m with hs | hs
    · rw [hs]
      exact hwait
    · rw [hs]
      -- there is a frame above them, so they all wait
      refine List.IsSuffix.trans ?_ (shift_step p _).callers_suffix
      rcases List.suffix_cons_iff.1 hwait with he | hw
      · have hlt := hn n (Nat.lt_succ_self n)
        rw [he] at hlt
        exact absurd hlt (Nat.lt_irrefl _)
      · exact hw

theorem getLast?_frames (m : Machine) : m.frames.getLast? = some m.moduleFrame := by
  rw [frames, moduleFrame, List.getLast?_cons]

/-- **A function leaves the frames below it alone.**  From the step that pushes a frame until that
    frame is gone, after any number of calls of its own, the frames below are what they were: the
    frame that called, which has only fetched its call, and all those that waited for it; and these
    frames are all there is once the function has returned.  So nothing that a function does
    changes a name of its caller or of the module.  What is printed during a run, calls or not, is
    never taken back. -/
theorem step_isolates (p : Program) (m : Machine) :
    (∀ m₁ n, step p m = .ok none m₁ → m₁.frames.length = m.frames.length + 1 →
      (∀ j < n, m.frames.length < (left (runFor p j m₁)).frames.length) →
        m₁.callers = m.fetched.current :: m.callers ∧
        m₁.callers <:+ (left (runFor p n m₁)).frames ∧
        ((left (runFor p n m₁)).frames.length = m.frames.length →
          (left (runFor p n m₁)).frames = m₁.callers) ∧
        ∀ x, (left (runFor p n m₁)).global? x = m.global? x) ∧
    ∀ i j, i ≤ j →
      (left (runFor p i m)).output.toList <+: (left (runFor p j m)).output.toList := by
  refine ⟨fun m₁ n hs hlen hn => ?_, fun i j => output_extends_of_le p m⟩
  have hshift := shift_step p m
  rw [hs] at hshift
  have hcallers : m₁.callers = m.fetched.current :: m.callers := hshift.callers_of_enters hlen
  have hl : m₁.callers.length = m.frames.length := by rw [hcallers]; rfl
  have hsuffix := suffix_frames (p := p) (List.suffix_cons m₁.current m₁.callers)
    (by rw [hl]; exact hn)
  refine ⟨hcallers, hsuffix, fun h => (hsuffix.eq_of_length (hl.trans h.symm)).symm, fun x => ?_⟩
  -- the module is the last of the frames below
  have hlast : (left (runFor p n m₁)).moduleFrame = m.fetched.moduleFrame := by
    obtain ⟨above, ha⟩ := hsuffix
    have hg := getLast?_frames (left (runFor p n m₁))
    rw [← ha, hcallers, List.getLast?_append_of_ne_nil _ (List.cons_ne_nil _ _)] at hg
    exact Option.some.inj (hg.symm.trans (getLast?_frames m.fetched))
  rw [global?, hlast, global?, moduleFrame, moduleFrame, fetched]
  cases m.callers.getLast? <;> rfl

/-- A function that stores a name of the module, and prints it. -/
def shadowing : Program where
  code := [.loadConst (.int 1), .storeName "x", .loadConst (.function 0 "f"), .call 0, .pop]
  chunks := [⟨"f", [], [.loadConst (.int 2), .storeName "x", .loadName "tampilkan", .loadName "x",
    .call 1, .ret], 1⟩]

/-- The name of the module keeps its value while the function runs and when it has returned. -/
theorem step_isolates_shadowing : ∃ m m₁, step shadowing m = .ok none m₁ ∧
    m₁.frames.length = m.frames.length + 1 ∧
    (∀ j < 6, m.frames.length < (left (runFor shadowing j m₁)).frames.length) ∧
    (left (runFor shadowing 6 m₁)).frames = m₁.callers ∧
    (left (runFor shadowing 6 m₁)).output = #["2"] ∧
    (left (runFor shadowing 6 m₁)).global? "x" = some (.int 1) := by
  have hs : step shadowing (left (runFor shadowing 3 start)) =
      .ok none (left (runFor shadowing 4 start)) := rfl
  have hn : ∀ j < 6, (left (runFor shadowing 3 start)).frames.length <
      (left (runFor shadowing j (left (runFor shadowing 4 start)))).frames.length := by decide
  obtain ⟨-, -, hback, hx⟩ := (step_isolates shadowing _).1 _ 6 hs rfl hn
  exact ⟨_, _, hs, rfl, hn, hback rfl, by decide +kernel, hx "x"⟩

end Machine

end Naskah
