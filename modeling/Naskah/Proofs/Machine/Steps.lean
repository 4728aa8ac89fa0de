/-
  What a step can do to a machine, whether it succeeds or fails (`Shift`): it goes on to the next
  instruction or to the target of a jump, stores a value, enters a function or leaves one.  Values
  on the stack come from somewhere (`Origin`).  Facts about all machines of a run are proved by
  going through the shifts (`runFor_keeps`).
-/
import Naskah.Proofs.Machine.Safety

namespace Naskah

/-! ## Names -/

theorem Env.get?_set_self (e : Env) (x : String) (v : Value) : (e.set x v).get? x = some v := by
  induction e with
  | nil => simp [Env.set, Env.get?]
  | cons b e ih =>
    obtain ⟨n, w⟩ := b
    rw [Env.set]
    split
    · next h => simp [Env.get?, h]
    · next h =>
      rw [Env.get?, List.lookup_cons, beq_eq_false_iff_ne.2 (Ne.symm h)]
      exact ih

theorem Env.get?_set_of_ne (e : Env) {x y : String} (h : y ≠ x) (v : Value) :
    (e.set x v).get? y = e.get? y := by
  induction e with
  | nil => simp [Env.set, Env.get?, List.lookup_cons, beq_eq_false_iff_ne.2 h]
  | cons b e ih =>
    obtain ⟨n, w⟩ := b
    rw [Env.set]
    split
    · next hn =>
      subst hn
      simp [Env.get?, List.lookup_cons, beq_eq_false_iff_ne.2 h]
    · simp only [Env.get?, List.lookup_cons] at ih ⊢
      rw [ih]

namespace Machine

variable {p : Program} {m : Machine} {i : Instruction}

/-- The machine that is left when a computation has succeeded or failed. -/
def left {α : Type} : EStateM.Result Fault Machine α → Machine
  | .ok _ m => m
  | .error _ m => m

/-- The instruction that the running frame is about to execute. -/
def Next (p : Program) (m : Machine) (i : Instruction) : Prop :=
  ∃ code, m.current.code p = .ok code ∧ code[m.current.ip]? = some i

theorem Next.unique {i i' : Instruction} (h : m.Next p i) (h' : m.Next p i') : i = i' := by
  obtain ⟨code, hc, hi⟩ := h
  obtain ⟨code', hc', hi'⟩ := h'
  rw [hc] at hc'
  cases hc'
  rw [hi] at hi'
  exact Option.some.inj hi'

/-- Where a value on the stack comes from, after an instruction. -/
inductive Origin (m : Machine) (i : Instruction) (v : Value) : Prop
  | operand (h : v ∈ m.stack)
  | plain (h : v.isPlain = true)
  | constant (hi : i = .loadConst v)
  | name {x : String} (hi : i = .loadName x) (h : m.lookup x = .ok v)
  | made {k : Nat} {x : String} {rest : List Value} (hi : i = .makeFunction x)
      (hs : m.stack = .chunk k :: rest) (hv : v = .function k x)

/-- What a step makes of a machine. -/
inductive Shift (p : Program) (m : Machine) : Machine → Prop
  | stays : Shift p m m
  | goes {i : Instruction} {stack : List Value} {output : Array String} (hi : m.Next p i)
      (hs : ∀ v ∈ stack, Origin m i v) (ho : m.output.toList <+: output.toList) :
      Shift p m { m.fetched with stack, output }
  | stores {x : String} {v : Value} {stack : List Value} (hi : m.Next p (.storeName x))
      (hs : m.stack = v :: stack) :
      Shift p m { m.fetched with
        current := { m.fetched.current with locals := m.current.locals.set x v }, stack }
  | jumps {i : Instruction} {t : Nat} {stack : List Value} (hi : m.Next p i)
      (ht : i.target? = some t) (hs : ∀ v ∈ stack, v ∈ m.stack)
      (hl : ∀ {code}, m.current.code p = .ok code → t ≤ code.length) :
      Shift p m { m.jumped t with stack }
  | enters {n k : Nat} {x : String} {args rest : List Value} {chunk : Chunk}
      (hi : m.Next p (.call n)) (hs : m.stack = args.reverse ++ .function k x :: rest)
      (hk : p.chunks[k]? = some chunk) (hd : m.frames.length < maxFrames) :
      Shift p m ({ m.fetched with stack := rest }.entered k x args)
  | leaves {f : Frame} {fs : List Frame} {v : Value} {stack : List Value}
      (hc : m.callers = f :: fs) (hv : v = .null ∨ v ∈ m.stack) (hs : ∀ v ∈ stack, v ∈ m.stack) :
      Shift p m { m with current := f, callers := fs, stack := v :: stack }

/-- Operands are taken and pushed, and nothing else is done. -/
theorem Shift.pushes {stack : List Value} (hi : m.Next p i) (hs : ∀ v ∈ stack, Origin m i v) :
    Shift p m { m.fetched with stack } :=
  .goes hi hs List.prefix_rfl

/-- Operands are taken and nothing else is done. -/
theorem Shift.takes (hi : m.Next p i) (stack : List Value) (hs : ∀ v ∈ stack, v ∈ m.stack) :
    Shift p m { m.fetched with stack } :=
  .pushes hi fun v hv => .operand (hs v hv)

theorem Shift.fails (hi : m.Next p i) : Shift p m m.fetched :=
  .takes hi _ fun _ hv => hv

/-! ## Operands that are missing -/

theorem pop_nil (h : m.stack = []) : pop m = .error .stackUnderflow m := by
  unfold pop
  rw [get_bind, h]
  rfl

theorem popMany_error {n : Nat} (h : m.stack.length < n) :
    popMany n m = .error .stackUnderflow m := by
  unfold popMany
  rw [get_bind, if_pos h]
  rfl

/-- Enough operands are those that are taken, and the rest. -/
theorem exists_operands {stack : List Value} {n : Nat} (h : n ≤ stack.length) :
    ∃ args rest : List Value, stack = args.reverse ++ rest ∧ args.length = n :=
  ⟨(stack.take n).reverse, stack.drop n, by simp, by simp [h]⟩

/-! ## One step -/

section
variable {x : String} {n t : Nat}

theorem lookup_fetched (m : Machine) (x : String) : m.fetched.lookup x = m.lookup x := by
  unfold Machine.lookup global? moduleFrame fetched
  cases m.callers.getLast? <;> rfl

theorem shift_loadName (hi : m.Next p (.loadName x)) :
    Shift p m (left (execute p (.loadName x) m.fetched)) := by
  cases hv : m.lookup x with
  | error e =>
    rw [execute_loadName_error ((lookup_fetched m x).trans hv)]
    exact .fails hi
  | ok v =>
    rw [execute_loadName ((lookup_fetched m x).trans hv)]
    refine .pushes hi (List.forall_mem_cons.2 ⟨.name rfl hv, fun w hw => .operand hw⟩)

theorem shift_storeName (hi : m.Next p (.storeName x)) :
    Shift p m (left (execute p (.storeName x) m.fetched)) := by
  cases hs : m.stack with
  | nil =>
    rw [execute, bind_error (pop_nil (m := m.fetched) hs)]
    exact .fails hi
  | cons v stack =>
    rw [execute_storeName (m := m.fetched) hs]
    exact .stores hi hs

theorem shift_pop (hi : m.Next p .pop) : Shift p m (left (execute p .pop m.fetched)) := by
  cases hs : m.stack with
  | nil =>
    rw [execute, bind_error (pop_nil (m := m.fetched) hs)]
    exact .fails hi
  | cons v stack =>
    rw [execute_pop (m := m.fetched) hs]
    exact .takes hi _ fun w hw => by rw [hs]; exact List.mem_cons_of_mem _ hw

theorem shift_binary {op : Operation} (hi : m.Next p (.binary op)) :
    Shift p m (left (execute p (.binary op) m.fetched)) := by
  cases hs : m.stack with
  | nil =>
    rw [execute, binary, bind_error (bind_error (pop_nil (m := m.fetched) hs))]
    exact .fails hi
  | cons r stack =>
    cases stack with
    | nil =>
      have hnil : Shift p m { m.fetched with stack := [] } := .takes hi [] (by simp)
      rw [execute, binary]
      simp only [bind_assoc]
      rw [bind_ok (pop_cons (m := m.fetched) hs)]
      cases op.checkRight r with
      | error e => exact hnil
      | ok u =>
        rw [bind_ok (lift_ok u _), bind_error (pop_nil rfl)]
        exact hnil
    | cons l rest =>
      have hrest : ∀ v ∈ rest, v ∈ m.stack := fun v hv => by simp [hs, hv]
      have hl : Origin m (.binary op) l := .operand (by simp [hs])
      have hr : Origin m (.binary op) r := .operand (by simp [hs])
      have ha := apply_harmless (fun _ h => .plain h) hl hr op
      cases hv : op.apply l r with
      | ok v =>
        rw [hv] at ha
        rw [execute_binary (m := m.fetched) hs hv]
        exact .pushes hi (List.forall_mem_cons.2 ⟨ha, fun w hw => .operand (hrest w hw)⟩)
      | error e =>
        rw [execute, binary]
        simp only [bind_assoc]
        rw [bind_ok (pop_cons (m := m.fetched) hs)]
        cases op.checkRight r with
        | error e' =>
          exact .takes hi (l :: rest) fun w hw => by rw [hs]; exact List.mem_cons_of_mem _ hw
        | ok u =>
          rw [bind_ok (lift_ok u _), bind_ok (pop_cons rfl), hv]
          exact .takes hi _ hrest

theorem shift_compare {c : Comparison} (hi : m.Next p (.compare c)) :
    Shift p m (left (execute p (.compare c) m.fetched)) := by
  cases hs : m.stack with
  | nil =>
    rw [execute, compare, bind_error (bind_error (pop_nil (m := m.fetched) hs))]
    exact .fails hi
  | cons r stack =>
    cases stack with
    | nil =>
      rw [execute, compare]
      simp only [bind_assoc]
      rw [bind_ok (pop_cons (m := m.fetched) hs), bind_error (pop_nil rfl)]
      exact .takes hi [] (by simp)
    | cons l rest =>
      have hrest : ∀ v ∈ rest, v ∈ m.stack := fun v hv => by simp [hs, hv]
      cases hv : c.apply l r with
      | ok b =>
        rw [execute_compare (m := m.fetched) hs hv]
        exact .pushes hi (List.forall_mem_cons.2 ⟨.plain rfl, fun w hw => .operand (hrest w hw)⟩)
      | error e =>
        rw [execute_compare_error (m := m.fetched) hs hv]
        exact .takes hi _ hrest

/-- A jump leads to its target, or fails. -/
theorem shift_jump_of {stack : List Value} (hi : m.Next p i) (ht : i.target? = some t)
    (hs : ∀ v ∈ stack, v ∈ m.stack) :
    Shift p m (left (jump p t { m.fetched with stack })) := by
  obtain ⟨code, hc, hn⟩ := hi
  have hi : m.Next p i := ⟨code, hc, hn⟩
  have hc' : ({ m.fetched with stack } : Machine).current.code p = .ok code := hc
  by_cases hlt : code.length < t
  · rw [jump, get_bind, hc', bind_ok (lift_ok code _), if_pos hlt]
    exact .takes hi _ hs
  · rw [jump_eq hc' (Nat.not_lt.1 hlt)]
    refine .jumps hi ht hs fun hc'' => ?_
    rw [hc] at hc''
    cases hc''
    exact Nat.not_lt.1 hlt

theorem left_bind_pure {α β : Type} (x : MachineM α) (f : α → β) (m : Machine) :
    left ((x >>= fun a => pure (f a)) m) = left (x m) := by
  cases h : x m with
  | ok a m' => rw [bind_ok h]; rfl
  | error e m' => rw [bind_error h]; rfl

theorem shift_jump (hi : m.Next p (.jump t)) : Shift p m (left (execute p (.jump t) m.fetched)) := by
  rw [execute, left_bind_pure]
  exact shift_jump_of hi rfl fun _ hv => hv

theorem shift_jumpIfFalse (hi : m.Next p (.jumpIfFalse t)) :
    Shift p m (left (execute p (.jumpIfFalse t) m.fetched)) := by
  cases hs : m.stack with
  | nil =>
    rw [execute, bind_error (pop_nil (m := m.fetched) hs)]
    exact .fails hi
  | cons v rest =>
    have hrest : ∀ w ∈ rest, w ∈ m.stack := fun w hw => by rw [hs]; exact List.mem_cons_of_mem _ hw
    cases hv : v.isTruthy with
    | true =>
      rw [execute_jumpIfFalse_true (m := m.fetched) hs hv]
      exact .takes hi _ hrest
    | false =>
      rw [execute, bind_ok (pop_cons (m := m.fetched) hs)]
      simp only [hv, Bool.not_false, if_true]
      rw [left_bind_pure]
      exact shift_jump_of hi rfl hrest

theorem shift_buildString (hi : m.Next p (.buildString n)) :
    Shift p m (left (execute p (.buildString n) m.fetched)) := by
  by_cases hn : m.stack.length < n
  · rw [execute, bind_error (popMany_error (m := m.fetched) hn)]
    exact .fails hi
  · obtain ⟨args, rest, hs, rfl⟩ := exists_operands (Nat.not_lt.1 hn)
    rw [execute_buildString (m := m.fetched) hs]
    refine .pushes hi (List.forall_mem_cons.2 ⟨.plain rfl, fun w hw => .operand ?_⟩)
    rw [hs]
    exact List.mem_append_right _ hw

theorem shift_call (hi : m.Next p (.call n)) :
    Shift p m (left (execute p (.call n) m.fetched)) := by
  by_cases hn : m.stack.length < n
  · rw [execute, call, bind_error (bind_error (popMany_error (m := m.fetched) hn))]
    exact .fails hi
  obtain ⟨args, below, hs, rfl⟩ := exists_operands (Nat.not_lt.1 hn)
  cases below with
  | nil =>
    rw [execute, call]
    simp only [bind_assoc]
    rw [bind_ok (popMany_append (m := m.fetched) hs), bind_error (pop_nil rfl)]
    exact .takes hi [] (by simp)
  | cons callee rest =>
    have hrest : ∀ w ∈ rest, w ∈ m.stack := fun w hw => by
      rw [hs]; exact List.mem_append_right _ (List.mem_cons_of_mem _ hw)
    cases hcf : callFault p m.fetched args.length callee with
    | some e =>
      rw [execute_call_error (m := m.fetched) hs hcf]
      exact .takes hi _ hrest
    | none =>
      rcases callFault_eq_none hcf with rfl | ⟨k, x, c, rfl, hc, ha, hd⟩
      · rw [execute_call_print (m := m.fetched) hs]
        refine .goes hi (List.forall_mem_cons.2 ⟨.plain rfl, fun w hw => .operand (hrest w hw)⟩) ?_
        rw [Array.toList_push]
        exact List.prefix_append _ _
      · rw [execute_call_function (m := m.fetched) hs hc ha hd]
        exact .enters hi hs hc hd

theorem shift_makeFunction (hi : m.Next p (.makeFunction x)) :
    Shift p m (left (execute p (.makeFunction x) m.fetched)) := by
  cases hs : m.stack with
  | nil =>
    rw [execute, makeFunction, bind_error (bind_error (pop_nil (m := m.fetched) hs))]
    exact .fails hi
  | cons v rest =>
    have hrest : ∀ w ∈ rest, w ∈ m.stack := fun w hw => by rw [hs]; exact List.mem_cons_of_mem _ hw
    have hfail : Shift p m { m.fetched with stack := rest } := .takes hi _ hrest
    cases v with
    | chunk k =>
      cases hk : p.chunks[k]? with
      | some c =>
        rw [execute_makeFunction (m := m.fetched) hs (List.getElem?_eq_some_iff.1 hk).1]
        exact .pushes hi (List.forall_mem_cons.2 ⟨.made rfl hs rfl, fun w hw => .operand (hrest w hw)⟩)
      | none =>
        rw [execute, makeFunction]
        simp only [bind_assoc]
        rw [bind_ok (pop_cons (m := m.fetched) hs)]
        simp only [hk]
        exact hfail
    | null | int _ | float _ | bool _ | string _ | function _ _ | builtin _ =>
      rw [execute, makeFunction]
      simp only [bind_assoc]
      rw [bind_ok (pop_cons (m := m.fetched) hs)]
      exact hfail

theorem shift_leave {v : Value} {stack : List Value} (hi : m.Next p i) (hv : v ∈ m.stack)
    (hs : ∀ w ∈ stack, w ∈ m.stack) :
    Shift p m (left (leave v { m.fetched with stack })) := by
  cases hc : m.callers with
  | nil =>
    rw [leave_module (m := { m.fetched with stack }) hc]
    exact .takes hi _ hs
  | cons f fs =>
    rw [leave, get_bind]
    simp only [fetched, hc]
    exact .leaves hc (.inr hv) fun w hw => hs w (List.mem_of_mem_drop hw)

theorem shift_ret (hi : m.Next p .ret) : Shift p m (left (execute p .ret m.fetched)) := by
  cases hs : m.stack with
  | nil =>
    rw [execute, bind_error (pop_nil (m := m.fetched) hs)]
    exact .fails hi
  | cons v rest =>
    rw [execute_ret (m := m.fetched) hs]
    refine shift_leave hi (by rw [hs]; exact List.mem_cons_self) fun w hw => ?_
    rw [hs]
    exact List.mem_cons_of_mem _ hw

end

/-- **What a step does.** -/
theorem shift_step (p : Program) (m : Machine) : Shift p m (left (step p m)) := by
  cases hc : m.current.code p with
  | error e =>
    have hs : step p m = .error e m := by
      show (lift (m.current.code p) >>= fun code => _) m = _
      rw [hc, bind_error (lift_error e m)]
    rw [hs]
    exact .stays
  | ok code =>
    cases hi : code[m.current.ip]? with
    | none =>
      rw [step_end hc hi]
      cases hcs : m.callers with
      | nil =>
        rw [leave_module hcs]
        exact .stays
      | cons f fs =>
        rw [leave, get_bind]
        simp only [hcs]
        exact .leaves hcs (.inl rfl) fun w hw => List.mem_of_mem_drop hw
    | some i =>
      rw [step_fetch hc hi]
      have hi : m.Next p i := ⟨code, hc, hi⟩
      cases i with
      | loadConst v =>
        exact .pushes hi (List.forall_mem_cons.2 ⟨.constant rfl, fun w hw => .operand hw⟩)
      | loadName x => exact shift_loadName hi
      | storeName x => exact shift_storeName hi
      | binary op => exact shift_binary hi
      | compare c => exact shift_compare hi
      | jumpIfFalse t => exact shift_jumpIfFalse hi
      | jump t => exact shift_jump hi
      | buildString n => exact shift_buildString hi
      | call n => exact shift_call hi
      | makeFunction x => exact shift_makeFunction hi
      | ret => exact shift_ret hi
      | pop => exact shift_pop hi

/-- **What steps keep holds up to the last step of a run.** -/
theorem runFor_cases {P : Machine → Prop}
    (hstep : ∀ {m m' : Machine}, P m → step p m = .ok none m' → P m') (h : P m) (n : Nat) :
    ∃ m', P m' ∧ (runFor p n m = .ok none m' ∨ runFor p n m = step p m') := by
  induction n generalizing m with
  | zero => exact ⟨m, h, .inl rfl⟩
  | succ n ih =>
    rw [runFor]
    cases hs : step p m with
    | error e m' => exact ⟨m, h, .inr (by rw [bind_error hs, hs])⟩
    | ok answer m' =>
      rw [bind_ok hs]
      cases answer with
      | some v => exact ⟨m, h, .inr (by rw [hs]; rfl)⟩
      | none => exact ih (hstep h hs)

/-- **What shifts keep holds however a run ends.** -/
theorem runFor_keeps {P : Machine → Prop} (hshift : ∀ {m m' : Machine}, P m → Shift p m m' → P m')
    (h : P m) (n : Nat) : P (left (runFor p n m)) := by
  have hstep : ∀ {m m' : Machine}, P m → step p m = .ok none m' → P m' := by
    intro m m' hm hs
    have hsh := shift_step p m
    rw [hs] at hsh
    exact hshift hm hsh
  obtain ⟨m', hm', hr | hr⟩ := runFor_cases hstep h n
  · rw [hr]
    exact hm'
  · rw [hr]
    exact hshift hm' (shift_step p m')

end Machine

/-! ## Frames -/

/-- Frames with a property, the module last: one property of the module, and one of the functions
    that it has called. -/
inductive Layered (M F : Frame → Prop) : List Frame → Prop
  | module {f : Frame} (hc : f.chunk = none) (h : M f) : Layered M F [f]
  | call {f : Frame} {fs : List Frame} {k : Nat} (hc : f.chunk = some k) (h : F f)
      (hs : Layered M F fs) : Layered M F (f :: fs)

namespace Layered

variable {M F : Frame → Prop} {f f' : Frame} {fs : List Frame}

/-- The frame on top changes. -/
theorem update (h : Layered M F (f :: fs)) (hc : f'.chunk = f.chunk)
    (hM : f.chunk = none → fs = [] → M f → M f') (hF : ∀ k, f.chunk = some k → F f → F f') :
    Layered M F (f' :: fs) := by
  cases h with
  | module hn h => exact .module (hc.trans hn) (hM hn rfl h)
  | call hk h hs => exact .call (hc.trans hk) (hF _ hk h) hs

theorem tail {g : Frame} (h : Layered M F (f :: g :: fs)) : Layered M F (g :: fs) := by
  cases h with
  | call _ _ hs => exact hs

theorem eq_nil (h : Layered M F (f :: fs)) (hc : f.chunk = none) : fs = [] ∧ M f := by
  cases h with
  | module _ h => exact ⟨rfl, h⟩
  | call hk => rw [hc] at hk; cases hk

/-- The module has its property. -/
theorem moduleFrame {m : Machine} (h : Layered M F m.frames) : M m.moduleFrame := by
  have last : ∀ {fs : List Frame}, Layered M F fs → ∀ f ∈ fs.getLast?, M f := by
    intro fs h
    induction h with
    | module _ h =>
      rintro _ ⟨⟩
      exact h
    | call _ _ hs ih =>
      cases hs with
      | module => exact ih
      | call => exact ih
  refine last h _ ?_
  rw [Machine.frames, Machine.moduleFrame, List.getLast?_cons]
  rfl

end Layered

namespace Machine

variable {p : Program} {m m' : Machine}

theorem Next.of_module {i : Instruction} (hi : m.Next p i) (hc : m.current.chunk = none) :
    p.code[m.current.ip]? = some i := by
  obtain ⟨code, he, hi⟩ := hi
  simp only [Frame.code, hc] at he
  cases he
  exact hi

/-- What becomes of the frame that runs, as long as it runs or waits. -/
inductive Follows (p : Program) (m : Machine) : Frame → Prop
  | next {i : Instruction} (hi : m.Next p i) : Follows p m m.fetched.current
  | store {x : String} (v : Value) (hi : m.Next p (.storeName x)) :
      Follows p m { m.fetched.current with locals := m.current.locals.set x v }
  | jump {i : Instruction} {t : Nat} (hi : m.Next p i) (ht : i.target? = some t)
      (hl : ∀ {code}, m.current.code p = .ok code → t ≤ code.length) :
      Follows p m { m.current with ip := t }

/-- **What a step does to the frames**: properties that the running frame keeps, and that the
    frames of functions begin with, are kept by all frames. -/
theorem Shift.layered {M F : Frame → Prop} (hm : Shift p m m') (h : Layered M F m.frames)
    (hM : m.current.chunk = none → M m.current → ∀ f, Follows p m f → M f)
    (hF : F m.current → ∀ f, Follows p m f → F f)
    (hnew : ∀ k x base, k < p.chunks.length →
      F { chunk := some k, locals := [(x, .function k x)], base }) :
    Layered M F m'.frames := by
  have follow : ∀ {f : Frame}, Follows p m f → f.chunk = m.current.chunk →
      Layered M F (f :: m.callers) := fun hf hc =>
    h.update hc (fun hn _ hk => hM hn hk _ hf) fun _ _ hk => hF hk _ hf
  cases hm with
  | stays => exact h
  | goes hi => exact follow (.next hi) rfl
  | stores hi => exact follow (.store _ hi) rfl
  | jumps hi ht _ hl => exact follow (.jump hi ht hl) rfl
  | enters hi _ hk =>
    exact .call rfl (hnew _ _ _ (List.getElem?_eq_some_iff.1 hk).1) (follow (.next hi) rfl)
  | leaves hc =>
    rw [frames, hc] at h
    exact h.tail

end Machine

end Naskah
