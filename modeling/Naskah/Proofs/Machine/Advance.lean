/-
  What a step does that succeeds and does not end the run (`advance_of_step`): it takes as many
  operands as the instruction needs and pushes as many as it gives, and leaves what is below as it
  is; or it enters a function, or leaves one.
-/
import Naskah.Proofs.Machine.Frames

namespace Naskah

/-- The number of operands that an instruction pushes.  A call pushes the value of what it calls. -/
def Instr.results {τ : Type} : Instr τ → Nat
  | loadConst _ | loadName _ | binary _ | compare _ | buildString _ | call _ | makeFunction _ => 1
  | storeName _ | jumpIfFalse _ | jump _ | ret | pop => 0

namespace Machine

variable {p : Program} {m m' : Machine} {i : Instruction}

/-- What a step that succeeds makes of a machine. -/
inductive Advance (p : Program) (m : Machine) : Machine → Prop
  /-- The running frame goes on, at the next instruction or at the target of a jump. -/
  | goes {i : Instruction} {ip : Nat} {locals : Env} {rest : List Value} {output : Array String}
      (taken pushed : List Value) (hi : m.Next p i) (hr : i ≠ .ret)
      (hip : ip = m.current.ip + 1 ∨ i.target? = some ip) (hs : m.stack = taken ++ rest)
      (ht : taken.length = i.operands) (hp : pushed.length = i.results) :
      Advance p m { m with
        current := { m.current with ip, locals }, stack := pushed ++ rest, output }
  /-- A function is entered. -/
  | enters {k : Nat} {x : String} {args rest : List Value} {chunk : Chunk}
      (hi : m.Next p (.call args.length)) (hs : m.stack = args.reverse ++ .function k x :: rest)
      (hk : p.chunks[k]? = some chunk) (ha : chunk.params.length = args.length)
      (hd : m.frames.length < maxFrames) :
      Advance p m ({ m.fetched with stack := rest }.entered k x args)
  /-- The running frame is left with the value that it returns. -/
  | returns {f : Frame} {fs : List Frame} {v : Value} {rest : List Value}
      (hi : m.Next p .ret) (hs : m.stack = v :: rest) (hc : m.callers = f :: fs) :
      Advance p m { m with
        current := f, callers := fs, stack := v :: rest.drop (rest.length - m.current.base) }
  /-- The running frame is left because its code has ended. -/
  | ends {f : Frame} {fs : List Frame} {code : List Instruction}
      (hcode : m.current.code p = .ok code) (hi : code.length ≤ m.current.ip)
      (hc : m.callers = f :: fs) :
      Advance p m { m with
        current := f, callers := fs
        stack := .null :: m.stack.drop (m.stack.length - m.current.base) }

/-- The next instruction is executed. -/
theorem Advance.next {locals : Env} {rest : List Value} {output : Array String}
    (taken pushed : List Value) (hi : m.Next p i) (hr : i ≠ .ret) (hs : m.stack = taken ++ rest)
    (ht : taken.length = i.operands) (hp : pushed.length = i.results) :
    Advance p m { m.fetched with
      current := { m.fetched.current with locals }, stack := pushed ++ rest, output } :=
  .goes taken pushed hi hr (.inl rfl) hs ht hp

/-- A jump succeeds if it leads to an offset of the code. -/
theorem jump_ok {t : Nat} (h : jump p t m = .ok () m') : m' = m.jumped t := by
  unfold jump at h
  rw [get_bind] at h
  cases hc : m.current.code p with
  | error e => rw [hc, bind_error (lift_error e m)] at h; cases h
  | ok code =>
    rw [hc, bind_ok (lift_ok code m)] at h
    split at h
    · cases h
    · cases h; rfl

theorem bind_pure_ok {α β : Type} {x : MachineM α} {f : α → β} {b : β}
    (h : (x >>= fun a => pure (f a)) m = .ok b m') : ∃ a, x m = .ok a m' := by
  cases hx : x m with
  | error e m₁ => rw [bind_error hx] at h; cases h
  | ok a m₁ =>
    rw [bind_ok hx] at h
    cases h
    exact ⟨a, rfl⟩

/-- An operand that is taken is there. -/
theorem bind_pop_ok {β : Type} {f : Value → MachineM β} {b : β}
    (h : (pop >>= f) m = .ok b m') :
    ∃ v rest, m.stack = v :: rest ∧ f v { m with stack := rest } = .ok b m' := by
  cases hs : m.stack with
  | nil => rw [bind_error (pop_nil hs)] at h; cases h
  | cons v rest =>
    rw [bind_ok (pop_cons hs)] at h
    exact ⟨v, rest, rfl, h⟩

theorem bind_lift_ok {α β : Type} {x : Except Fault α} {f : α → MachineM β} {b : β}
    (h : (lift x >>= f) m = .ok b m') : ∃ a, x = .ok a ∧ f a m = .ok b m' := by
  cases x with
  | error e => rw [bind_error (lift_error e m)] at h; cases h
  | ok a =>
    rw [bind_ok (lift_ok a m)] at h
    exact ⟨a, rfl, h⟩

/-- A call that succeeds has printed a line or entered a function. -/
theorem advance_call {n : Nat} (hi : m.Next p (.call n))
    (h : execute p (.call n) m.fetched = .ok none m') : Advance p m m' := by
  by_cases hn : m.stack.length < n
  · rw [execute, call, bind_error (bind_error (popMany_error (m := m.fetched) hn))] at h
    cases h
  obtain ⟨args, below, hs, rfl⟩ := exists_operands (Nat.not_lt.1 hn)
  cases below with
  | nil =>
    rw [execute, call] at h
    simp only [bind_assoc] at h
    rw [bind_ok (popMany_append (m := m.fetched) hs), bind_error (pop_nil rfl)] at h
    cases h
  | cons callee rest =>
    cases hcf : callFault p m.fetched args.length callee with
    | some e =>
      rw [execute_call_error (m := m.fetched) hs hcf] at h
      cases h
    | none =>
      rcases callFault_eq_none hcf with rfl | ⟨k, x, c, rfl, hc, ha, hd⟩
      · rw [execute_call_print (m := m.fetched) hs] at h
        cases h
        have hs' : m.stack = (args.reverse ++ [.builtin .print]) ++ rest := by rw [hs]; simp
        exact .next _ [.null] hi (by simp) hs' (by simp [Instr.operands]) rfl
      · rw [execute_call_function (m := m.fetched) hs hc ha hd] at h
        cases h
        exact .enters hi hs hc ha hd

/-- A function is made of a chunk that there is. -/
theorem advance_makeFunction {x : String} (hi : m.Next p (.makeFunction x))
    (h : execute p (.makeFunction x) m.fetched = .ok none m') : Advance p m m' := by
  rw [execute, makeFunction] at h
  simp only [bind_assoc] at h
  obtain ⟨v, rest, hs, h⟩ := bind_pop_ok h
  cases v with
  | chunk k =>
    cases hk : p.chunks[k]? with
    | none => simp only [hk] at h; cases h
    | some c =>
      simp only [hk] at h
      cases h
      exact .next [.chunk k] [.function k x] hi (by simp) hs rfl rfl
  | null | int _ | float _ | bool _ | string _ | function _ _ | builtin _ => cases h

/-- A frame that is left, and not the last one, has a caller that goes on. -/
theorem leave_ok {v : Value} (h : leave v m = .ok none m') : ∃ f fs, m.callers = f :: fs ∧
    m' = { m with
      current := f, callers := fs
      stack := v :: m.stack.drop (m.stack.length - m.current.base) } := by
  cases hc : m.callers with
  | nil =>
    rw [leave_module hc] at h
    cases h
  | cons f fs =>
    rw [leave, get_bind] at h
    simp only [hc] at h
    cases h
    exact ⟨f, fs, rfl, rfl⟩

/-- What an instruction does that succeeds. -/
theorem advance_execute (hi : m.Next p i) (h : execute p i m.fetched = .ok none m') :
    Advance p m m' := by
  cases i with
  | loadConst v =>
    cases h
    exact .next [] [v] hi (by simp) rfl rfl rfl
  | loadName x =>
    rw [execute, get_bind] at h
    obtain ⟨v, -, h⟩ := bind_lift_ok h
    cases h
    exact .next [] [v] hi (by simp) rfl rfl rfl
  | storeName x =>
    rw [execute] at h
    obtain ⟨v, rest, hs, h⟩ := bind_pop_ok h
    cases h
    exact .next [v] [] hi (by simp) hs rfl rfl
  | binary op =>
    rw [execute, binary] at h
    simp only [bind_assoc] at h
    obtain ⟨r, _, hs, h⟩ := bind_pop_ok h
    obtain ⟨_, -, h⟩ := bind_lift_ok h
    obtain ⟨l, rest, rfl, h⟩ := bind_pop_ok h
    obtain ⟨v, -, h⟩ := bind_lift_ok h
    cases h
    exact .next [r, l] [v] hi (by simp) hs rfl rfl
  | compare c =>
    rw [execute, compare] at h
    simp only [bind_assoc] at h
    obtain ⟨r, _, hs, h⟩ := bind_pop_ok h
    obtain ⟨l, rest, rfl, h⟩ := bind_pop_ok h
    obtain ⟨b, -, h⟩ := bind_lift_ok h
    cases h
    exact .next [r, l] [.bool b] hi (by simp) hs rfl rfl
  | jumpIfFalse t =>
    rw [execute] at h
    obtain ⟨v, rest, hs, h⟩ := bind_pop_ok h
    cases hv : v.isTruthy with
    | true =>
      simp only [hv, Bool.not_true, Bool.false_eq_true, if_false] at h
      cases h
      exact .next [v] [] hi (by simp) hs rfl rfl
    | false =>
      simp only [hv, Bool.not_false, if_true] at h
      obtain ⟨_, h⟩ := bind_pure_ok h
      rw [jump_ok h]
      exact .goes [v] [] hi (by simp) (.inr rfl) hs rfl rfl
  | jump t =>
    rw [execute] at h
    obtain ⟨_, h⟩ := bind_pure_ok h
    rw [jump_ok h]
    exact .goes [] [] hi (by simp) (.inr rfl) rfl rfl rfl
  | buildString n =>
    by_cases hn : m.stack.length < n
    · rw [execute, bind_error (popMany_error (m := m.fetched) hn)] at h
      cases h
    · obtain ⟨args, rest, hs, rfl⟩ := exists_operands (Nat.not_lt.1 hn)
      rw [execute_buildString (m := m.fetched) hs] at h
      cases h
      exact .next _ [_] hi (by simp) hs (by simp [Instr.operands]) rfl
  | call n => exact advance_call hi h
  | makeFunction x => exact advance_makeFunction hi h
  | ret =>
    rw [execute] at h
    obtain ⟨v, rest, hs, h⟩ := bind_pop_ok h
    obtain ⟨f, fs, hc, rfl⟩ := leave_ok h
    exact .returns hi hs hc
  | pop =>
    rw [execute] at h
    obtain ⟨v, rest, hs, h⟩ := bind_pop_ok h
    cases h
    exact .next [v] [] hi (by simp) hs rfl rfl

/-- **What a step does that succeeds.** -/
theorem advance_of_step (h : step p m = .ok none m') : Advance p m m' := by
  cases hc : m.current.code p with
  | error e =>
    have hs : step p m = .error e m := by
      show (lift (m.current.code p) >>= fun code => _) m = _
      rw [hc, bind_error (lift_error e m)]
    rw [hs] at h
    cases h
  | ok code =>
    cases hi : code[m.current.ip]? with
    | none =>
      rw [step_end hc hi] at h
      obtain ⟨f, fs, hcs, rfl⟩ := leave_ok h
      exact .ends hc (List.getElem?_eq_none_iff.1 hi) hcs
    | some i =>
      rw [step_fetch hc hi] at h
      exact advance_execute ⟨code, hc, hi⟩ h

end Machine

end Naskah
