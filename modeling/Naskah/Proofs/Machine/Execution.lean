/-
  Execution of single instructions as equations: what an instruction does to a machine whose
  operands are known.  Proofs about runs use these equations and never open the machine.
-/
import Naskah.Machine.Step
import Mathlib.Tactic.Common

namespace Naskah.Machine

variable {α β : Type} {p : Program} {m m' : Machine}

theorem bind_ok {x : MachineM α} {f : α → MachineM β} {a : α} (h : x m = .ok a m') :
    (x >>= f) m = f a m' := by
  show EStateM.bind x f m = _
  simp only [EStateM.bind, h]

theorem bind_error {x : MachineM α} {f : α → MachineM β} {e : Fault} (h : x m = .error e m') :
    (x >>= f) m = .error e m' := by
  show EStateM.bind x f m = _
  simp only [EStateM.bind, h]

theorem get_bind (f : Machine → MachineM β) (m : Machine) : (get >>= f) m = f m m := rfl

/-! ## Operands -/

theorem push_eq (v : Value) (m : Machine) : push v m = .ok () { m with stack := v :: m.stack } := rfl

theorem pop_cons {v : Value} {rest : List Value} (h : m.stack = v :: rest) :
    pop m = .ok v { m with stack := rest } := by
  unfold pop
  rw [get_bind, h]
  rfl

theorem popMany_append {args rest : List Value} (h : m.stack = args.reverse ++ rest) :
    popMany args.length m = .ok args { m with stack := rest } := by
  have hl : ¬ m.stack.length < args.length := by rw [h]; simp
  unfold popMany
  rw [get_bind, if_neg hl]
  rw [h, List.drop_left' (by simp), List.take_left' (by simp), List.reverse_reverse]
  rfl

theorem lift_ok (a : α) (m : Machine) : lift (.ok a) m = .ok a m := rfl

theorem lift_error (e : Fault) (m : Machine) : (lift (.error e) : MachineM α) m = .error e m := rfl

/-! ## Fetching -/

/-- The machine after an instruction is fetched. -/
def fetched (m : Machine) : Machine :=
  { m with current := { m.current with ip := m.current.ip + 1 } }

theorem step_fetch {code : List Instruction} {i : Instruction} (hc : m.current.code p = .ok code)
    (hi : code[m.current.ip]? = some i) : step p m = execute p i m.fetched := by
  show (lift (m.current.code p) >>= fun code => _) m = _
  rw [hc, bind_ok (lift_ok code m)]
  simp only [hi]
  rfl

/-- Past the end of its code a frame returns null. -/
theorem step_end {code : List Instruction} (hc : m.current.code p = .ok code)
    (hi : code[m.current.ip]? = none) : step p m = leave .null m := by
  show (lift (m.current.code p) >>= fun code => _) m = _
  rw [hc, bind_ok (lift_ok code m)]
  simp only [hi]

/-! ## Instructions -/

theorem execute_loadConst (v : Value) :
    execute p (.loadConst v) m = .ok none { m with stack := v :: m.stack } := rfl

theorem execute_loadName {name : String} {v : Value} (h : m.lookup name = .ok v) :
    execute p (.loadName name) m = .ok none { m with stack := v :: m.stack } := by
  rw [execute]
  rw [get_bind, h]
  rfl

theorem execute_loadName_error {name : String} {e : Fault} (h : m.lookup name = .error e) :
    execute p (.loadName name) m = .error e m := by
  rw [execute]
  rw [get_bind, h]
  rfl

theorem execute_storeName {v : Value} {rest : List Value} (h : m.stack = v :: rest)
    (name : String) :
    execute p (.storeName name) m = .ok none { m with
      current := { m.current with locals := m.current.locals.set name v }, stack := rest } := by
  rw [execute]
  rw [bind_ok (pop_cons h)]
  rfl

theorem execute_pop {v : Value} {rest : List Value} (h : m.stack = v :: rest) :
    execute p .pop m = .ok none { m with stack := rest } := by
  rw [execute]
  rw [bind_ok (pop_cons h)]
  rfl

theorem execute_ret {v : Value} {rest : List Value} (h : m.stack = v :: rest) :
    execute p .ret m = leave v { m with stack := rest } := by
  rw [execute]
  rw [bind_ok (pop_cons h)]

theorem execute_buildString {args rest : List Value} (h : m.stack = args.reverse ++ rest) :
    execute p (.buildString args.length) m =
      .ok none { m with stack := .string (String.join (args.map Value.text)) :: rest } := by
  rw [execute]
  rw [bind_ok (popMany_append h)]
  rfl

theorem error_of_map {α β : Type} {x : Except Fault α} {f : α → β} {e : Fault}
    (h : x.map f = .error e) : x = .error e := by
  cases x with
  | error e' => cases h; rfl
  | ok a => cases h

theorem onNumbers_error {f : Number → Number → Except Fault Value} {l r : Value} {e : Fault}
    (h : r.asNumber = .error e) : Operation.onNumbers f l r = .error e := by
  rw [Operation.onNumbers, h]; rfl

theorem onInts_error {right : Value → Except Fault Int64} {f : Int64 → Int64 → Int64}
    {l r : Value} {e : Fault} (h : right r = .error e) : Operation.onInts right f l r = .error e := by
  rw [Operation.onInts, h]; rfl

/-- An operation refuses a right operand for the reason that it is checked for. -/
theorem apply_of_checkRight {op : Operation} {l r : Value} {e : Fault}
    (h : op.checkRight r = .error e) : op.apply l r = .error e := by
  cases op with
  | add =>
    cases r with
    | string s => cases h
    | int n | float x => cases h
    | null | bool b | chunk i | function i f | builtin b =>
      exact onNumbers_error (error_of_map (f := fun _ => ()) h)
  | sub | mul | div | mod | pow => exact onNumbers_error (error_of_map h)
  | bitAnd | bitOr | shl | shr => exact onInts_error (error_of_map h)
  | and | or => cases h

theorem execute_binary {l r v : Value} {rest : List Value} {op : Operation}
    (h : m.stack = r :: l :: rest) (hv : op.apply l r = .ok v) :
    execute p (.binary op) m = .ok none { m with stack := v :: rest } := by
  rw [execute, binary]
  cases hr : op.checkRight r with
  | error e => rw [apply_of_checkRight hr] at hv; cases hv
  | ok u =>
    simp only [bind_assoc]
    rw [bind_ok (pop_cons h), hr, bind_ok (lift_ok u _), bind_ok (pop_cons rfl), hv]
    rfl

/-- An operation that fails leaves all but its operands as it is; it may not have taken both. -/
theorem execute_binary_error {l r : Value} {rest : List Value} {op : Operation} {e : Fault}
    (h : m.stack = r :: l :: rest) (he : op.apply l r = .error e) :
    ∃ stack, rest <:+ stack ∧ execute p (.binary op) m = .error e { m with stack } := by
  rw [execute, binary]
  simp only [bind_assoc]
  rw [bind_ok (pop_cons h)]
  cases hr : op.checkRight r with
  | error e' =>
    rw [apply_of_checkRight hr] at he; cases he
    exact ⟨l :: rest, List.suffix_cons l rest, bind_error (lift_error e _)⟩
  | ok u =>
    rw [bind_ok (lift_ok u _), bind_ok (pop_cons rfl), he]
    exact ⟨rest, List.suffix_rfl, bind_error (lift_error e _)⟩

theorem execute_compare {l r : Value} {b : Bool} {rest : List Value} {c : Comparison}
    (h : m.stack = r :: l :: rest) (hb : c.apply l r = .ok b) :
    execute p (.compare c) m = .ok none { m with stack := .bool b :: rest } := by
  rw [execute, compare]
  simp only [bind_assoc]
  rw [bind_ok (pop_cons h), bind_ok (pop_cons rfl), hb]
  rfl

theorem execute_compare_error {l r : Value} {rest : List Value} {c : Comparison} {e : Fault}
    (h : m.stack = r :: l :: rest) (he : c.apply l r = .error e) :
    execute p (.compare c) m = .error e { m with stack := rest } := by
  rw [execute, compare]
  simp only [bind_assoc]
  rw [bind_ok (pop_cons h), bind_ok (pop_cons rfl), he]
  rfl

/-- The machine with the running frame at an offset. -/
def jumped (m : Machine) (target : Nat) : Machine :=
  { m with current := { m.current with ip := target } }

theorem jump_eq {code : List Instruction} {target : Nat} (hc : m.current.code p = .ok code)
    (ht : target ≤ code.length) : jump p target m = .ok () (m.jumped target) := by
  rw [jump, get_bind, hc, bind_ok (lift_ok code m), if_neg (Nat.not_lt.2 ht)]
  rfl

theorem execute_jump {code : List Instruction} {target : Nat} (hc : m.current.code p = .ok code)
    (ht : target ≤ code.length) :
    execute p (.jump target) m = .ok none (m.jumped target) := by
  rw [execute, bind_ok (jump_eq hc ht)]
  rfl

theorem execute_jumpIfFalse_true {v : Value} {rest : List Value} {target : Nat}
    (h : m.stack = v :: rest) (hv : v.isTruthy = true) :
    execute p (.jumpIfFalse target) m = .ok none { m with stack := rest } := by
  rw [execute, bind_ok (pop_cons h)]
  simp only [hv]
  rfl

theorem execute_jumpIfFalse_false {v : Value} {rest : List Value} {code : List Instruction}
    {target : Nat} (h : m.stack = v :: rest) (hv : v.isTruthy = false)
    (hc : m.current.code p = .ok code) (ht : target ≤ code.length) :
    execute p (.jumpIfFalse target) m = .ok none { m.jumped target with stack := rest } := by
  rw [execute, bind_ok (pop_cons h)]
  simp only [hv, Bool.not_false, if_true]
  rw [bind_ok (jump_eq (m := { m with stack := rest }) hc ht)]
  rfl

theorem execute_makeFunction {i : Nat} {rest : List Value} (h : m.stack = .chunk i :: rest)
    (hi : i < p.chunks.length) (name : String) :
    execute p (.makeFunction name) m = .ok none { m with stack := .function i name :: rest } := by
  rw [execute, makeFunction]
  simp only [bind_assoc]
  rw [bind_ok (pop_cons h)]
  simp only [List.getElem?_eq_getElem hi]
  rfl

/-! ## Calls and returns -/

section
variable {args rest : List Value}

theorem execute_call_print (h : m.stack = args.reverse ++ .builtin .print :: rest) :
    execute p (.call args.length) m = .ok none { m with
      stack := .null :: rest
      output := m.output.push (String.intercalate " " (args.map Value.text)) } := by
  rw [execute, call]
  simp only [bind_assoc]
  rw [bind_ok (popMany_append h), bind_ok (pop_cons rfl)]
  rfl

/-- The machine after a function is entered. -/
def entered (m : Machine) (chunk : Nat) (name : String) (args : List Value) : Machine where
  current := { chunk := some chunk, locals := [(name, .function chunk name)], base := m.stack.length }
  callers := m.current :: m.callers
  stack := args ++ m.stack
  output := m.output

theorem execute_call_function {chunk : Nat} {name : String} {c : Chunk}
    (h : m.stack = args.reverse ++ .function chunk name :: rest) (hc : p.chunks[chunk]? = some c)
    (ha : c.params.length = args.length) (hd : m.frames.length < maxFrames) :
    execute p (.call args.length) m =
      .ok none ({ m with stack := rest }.entered chunk name args) := by
  rw [execute, call]
  simp only [bind_assoc]
  rw [bind_ok (popMany_append h), bind_ok (pop_cons rfl)]
  simp only [hc, ha, ne_eq, not_true_eq_false, if_false]
  have hd' : ¬ maxFrames ≤ ({ m with stack := rest } : Machine).frames.length := Nat.not_le.2 hd
  rw [bind_assoc, get_bind, if_neg hd']
  rfl

/-- Why a value cannot be called. -/
def callFault (p : Program) (m : Machine) (n : Nat) : Value → Option Fault
  | .builtin .print => none
  | .function chunk name =>
    match p.chunks[chunk]? with
    | none => some (.invalidChunk chunk)
    | some c =>
      if c.params.length ≠ n then some (.invalidCallArity name c.params.length n)
      else if maxFrames ≤ m.frames.length then some .callDepthExceeded
      else none
  | v => some (.notCallable v.kind)

/-- Values that can be called. -/
theorem callFault_eq_none {n : Nat} {callee : Value} (h : callFault p m n callee = none) :
    callee = .builtin .print ∨ ∃ chunk name c, callee = .function chunk name ∧
      p.chunks[chunk]? = some c ∧ c.params.length = n ∧ m.frames.length < maxFrames := by
  cases callee with
  | builtin b => exact .inl rfl
  | function chunk name =>
    simp only [callFault] at h
    cases hc : p.chunks[chunk]? with
    | none => simp [hc] at h
    | some c =>
      simp only [hc] at h
      split at h
      · cases h
      · next hn =>
        split at h
        · cases h
        · next hd =>
          exact .inr ⟨chunk, name, c, rfl, hc, Decidable.not_not.1 hn, Nat.not_le.1 hd⟩
  | null | int n | float x | bool b | string s | chunk i => cases h

theorem execute_call_error {callee : Value} {e : Fault}
    (h : m.stack = args.reverse ++ callee :: rest) (he : callFault p m args.length callee = some e) :
    execute p (.call args.length) m = .error e { m with stack := rest } := by
  rw [execute, call]
  simp only [bind_assoc]
  rw [bind_ok (popMany_append h), bind_ok (pop_cons rfl)]
  cases callee with
  | builtin b => cases he
  | function chunk name =>
    simp only [callFault] at he
    cases hc : p.chunks[chunk]? with
    | none =>
      simp only [hc] at he ⊢
      cases he; rfl
    | some c =>
      simp only [hc] at he ⊢
      split at he
      · next hn => rw [if_pos hn]; cases he; rfl
      · next hn =>
        rw [if_neg hn, bind_assoc, get_bind]
        split at he
        · next hd =>
          cases he
          have hd' : maxFrames ≤ ({ m with stack := rest } : Machine).frames.length := hd
          rw [if_pos hd']
          rfl
        · cases he
  | null | int n | float x | bool b | string s | chunk i => cases he; rfl

end

theorem leave_module {v : Value} (h : m.callers = []) : leave v m = .ok (some v) m := by
  rw [leave, get_bind]
  simp only [h]
  rfl

theorem leave_frame {v : Value} {f : Frame} {fs : List Frame} {ops below : List Value}
    (h : m.callers = f :: fs) (hs : m.stack = ops ++ below) (hb : m.current.base = below.length) :
    leave v m = .ok none { m with current := f, callers := fs, stack := v :: below } := by
  rw [leave, get_bind]
  simp only [h, hs, hb, List.length_append, Nat.add_sub_cancel, List.drop_left]
  rfl

/-! ## Runs -/

theorem runFor_succ (n : Nat) (m : Machine) :
    runFor p (n + 1) m = match step p m with
      | .ok (some v) m' => .ok (some v) m'
      | .ok none m' => runFor p n m'
      | .error e m' => .error e m' := by
  rw [runFor]
  cases h : step p m with
  | error e m' => rw [bind_error h]
  | ok answer m' =>
    rw [bind_ok h]
    cases answer <;> rfl

/-- A run goes on where a shorter one was interrupted. -/
theorem runFor_add {a : Nat} (h : runFor p a m = .ok none m') (b : Nat) :
    runFor p (a + b) m = runFor p b m' := by
  induction a generalizing m with
  | zero =>
    cases h
    rw [Nat.zero_add]
  | succ a ih =>
    rw [Nat.add_right_comm, runFor_succ]
    rw [runFor_succ] at h
    cases hs : step p m with
    | error e m₁ => rw [hs] at h; cases h
    | ok answer m₁ =>
      rw [hs] at h
      cases answer with
      | some v => cases h
      | none => exact ih h

theorem runFor_one {r : EStateM.Result Fault Machine (Option Value)}
    (h : step p m = r) : runFor p 1 m = r := by
  rw [runFor_succ, h]
  cases r with
  | error e m' => rfl
  | ok answer m' => cases answer <;> rfl

/-- Before a run was interrupted it had not ended. -/
theorem runFor_none {a b : Nat} (h : runFor p (a + b) m = .ok none m') :
    ∃ m₁, runFor p a m = .ok none m₁ := by
  induction a generalizing m with
  | zero => exact ⟨m, rfl⟩
  | succ a ih =>
    rw [Nat.add_right_comm, runFor_succ] at h
    rw [runFor_succ]
    cases hs : step p m with
    | error e m₁ => rw [hs] at h; cases h
    | ok answer m₁ =>
      rw [hs] at h
      cases answer with
      | some v => cases h
      | none => exact ih h

/-- A run that has ended stays as it is. -/
theorem runFor_ended {a : Nat} (h : ∀ m', runFor p a m ≠ .ok none m') (b : Nat) :
    runFor p (a + b) m = runFor p a m := by
  induction a generalizing m with
  | zero => exact absurd rfl (h m)
  | succ a ih =>
    rw [Nat.add_right_comm, runFor_succ, runFor_succ]
    rw [runFor_succ] at h
    cases hs : step p m with
    | error e m₁ => rfl
    | ok answer m₁ =>
      rw [hs] at h
      cases answer with
      | some v => rfl
      | none => exact ih h

end Naskah.Machine
