/-
  Runs of verified programs.  While a verified program runs, the operands of every frame fit the
  slots in front of its next instruction (`Running`); a step keeps this, or ends the run with no
  operands left (`Resting`), or fails for a reason that lies in the values and not in the code
  (`safe_step`).  A machine at rest can be started again.
-/
import Naskah.Proofs.Machine.Execution
import Naskah.Proofs.Machine.Slots

namespace Naskah

/-- Faults that only wrong code leads to. -/
def Fault.isInternal : Fault → Bool
  | stackUnderflow | jumpOutOfBounds _ | invalidChunk _ | typeMismatch .chunk => true
  | _ => false

/-- Faults that lie in the operands of an operation or a comparison. -/
def Fault.ofOperands : Fault → Bool
  | typeMismatch .chunk => false
  | typeMismatch _ | divisionByZero | integerOverflow | invalidShift _ => true
  | _ => false

theorem Fault.isInternal_of_ofOperands {e : Fault} (h : e.ofOperands = true) :
    e.isInternal = false := by
  cases e with
  | typeMismatch expected => cases expected <;> first | rfl | cases h
  | divisionByZero | integerOverflow | invalidShift n => rfl
  | _ => cases h

/-- A program all of whose code is verified. -/
structure Program.Verified (p : Program) : Prop where
  code : Naskah.Verified p.chunks.length [] p.code
  chunks : ∀ c ∈ p.chunks,
    Naskah.Verified p.chunks.length (List.replicate c.params.length .value) c.code

/-- Values that a run of a program can compute with. -/
def Value.Sound (p : Program) : Value → Prop
  | function i _ => i < p.chunks.length
  | chunk _ => False
  | _ => True

/-- An operand that is what its slot says. -/
def Slot.Fits (p : Program) : Slot → Value → Prop
  | value, v => v.Sound p
  | chunk i, v => v = .chunk i ∧ i < p.chunks.length

/-- Operands, the topmost first, that fit their slots. -/
abbrev Fit (p : Program) (slots : List Slot) (ops : List Value) : Prop :=
  List.Forall₂ (Slot.Fits p) slots ops

/-- A frame in verified code, with the slots in front of its next instruction. -/
structure Frame.Stands (p : Program) (f : Frame) (code : List Instruction)
    (entry slots : List Slot) : Prop where
  code_eq : f.code p = .ok code
  verified : Verified p.chunks.length entry code
  slots_eq : Instr.effects p.chunks.length (code.take f.ip) entry = some slots
  locals : ∀ x ∈ f.locals, x.2.Sound p

/-- Frames that wait for the value of a call, and the operands of all of them. -/
inductive Waiting (p : Program) : List Frame → List Value → Prop
  | nobody : Waiting p [] []
  | caller {f : Frame} {fs : List Frame} {code : List Instruction} {entry slots : List Slot}
      {ops below : List Value} (hf : f.Stands p code entry (.value :: slots))
      (hip : f.ip < code.length) (hops : Fit p slots ops) (hbase : f.base = below.length)
      (h : Waiting p fs below) : Waiting p (f :: fs) (ops ++ below)

namespace Machine

/-- A machine in the middle of a run: the slots of the running frame, its operands `ops`, and the
    operands `below` of the frames that wait. -/
structure Progress (p : Program) (m : Machine) (code : List Instruction)
    (entry slots : List Slot) (ops below : List Value) : Prop where
  stands : m.current.Stands p code entry slots
  stack_eq : m.stack = ops ++ below
  fit : Fit p slots ops
  base : m.current.base = below.length
  waiting : Waiting p m.callers below
  module : (m.frames.map Frame.chunk).getLast? = some none

/-- A machine that has an instruction to execute. -/
def Running (p : Program) (m : Machine) : Prop :=
  ∃ code entry slots ops below, Progress p m code entry slots ops below ∧
    m.current.ip < code.length

/-- A machine between two runs. -/
structure Resting (p : Program) (m : Machine) : Prop where
  module : m.current.chunk = none
  callers : m.callers = []
  stack : m.stack = []
  stands : ∃ code entry, m.current.Stands p code entry []
  base : m.current.base = 0

/-- A step that keeps a machine running, ends its run, or fails for want of right values. -/
def Safe (p : Program) : EStateM.Result Fault Machine (Option Value) → Prop
  | .ok none m => m.Running p
  | .ok (some _) m => m.Resting p
  | .error e _ => e.isInternal = false

end Machine

/-! ## Operations -/

/-- An outcome with a property, or a fault that lies in the operands. -/
def Harmless {α : Type} (P : α → Prop) : Except Fault α → Prop
  | .ok a => P a
  | .error e => e.ofOperands = true

namespace Harmless

variable {α β : Type} {P : α → Prop} {Q : β → Prop}

theorem bind {x : Except Fault α} {f : α → Except Fault β} (h : Harmless P x)
    (hf : ∀ a, P a → Harmless Q (f a)) : Harmless Q (x >>= f) := by
  cases x with
  | ok a => exact hf a h
  | error e => exact h

theorem map {x : Except Fault α} {f : α → β} (h : Harmless P x) (hf : ∀ a, P a → Q (f a)) :
    Harmless Q (x.map f) := by
  cases x with
  | ok a => exact hf a h
  | error e => exact h

end Harmless

open Arithmetic

section
variable {p : Program}

theorem asNumber_harmless (v : Value) : Harmless (fun _ => True) v.asNumber := by
  unfold Value.asNumber
  split
  · trivial
  · rfl

theorem asInt_harmless (v : Value) : Harmless (fun _ => True) v.asInt := by
  cases v <;> trivial

theorem asShift_harmless (v : Value) : Harmless (fun _ => True) v.asShift := by
  refine (asInt_harmless v).bind fun n _ => ?_
  split
  · trivial
  · rfl

theorem checked_harmless (n : Int) : Harmless (fun _ => True) (checked n) := by
  unfold checked
  split
  · trivial
  · rfl

theorem remInt_harmless (a b : Int64) : Harmless (fun _ => True) (remInt a b) := by
  unfold remInt
  split
  · trivial
  · rfl

theorem modInt_harmless (a b : Int64) : Harmless (fun _ => True) (modInt a b) := by
  unfold modInt
  split
  · rfl
  · exact (remInt_harmless a b).bind fun _ _ => trivial

theorem modFloat_harmless (x y : Float) : Harmless (fun _ => True) (modFloat x y) := by
  unfold modFloat
  split
  · rfl
  · trivial

theorem divFloat_harmless (x y : Float) : Harmless (fun _ => True) (divFloat x y) := by
  unfold divFloat
  split
  · rfl
  · trivial

theorem mulPow_harmless (acc base : Int64) (n : Nat) :
    Harmless (fun _ => True) (mulPow acc base n) := by
  fun_induction mulPow acc base n with
  | case1 => trivial
  | case2 => exact checked_harmless _
  | case3 acc base n _ _ _ ih =>
    exact (checked_harmless _).bind fun acc' _ => (checked_harmless _).bind fun square _ =>
      ih acc' square
  | case4 acc base n _ _ _ ih => exact (checked_harmless _).bind fun square _ => ih square

theorem powInt_harmless (a : Int64) (n : Nat) : Harmless (fun _ => True) (powInt a n) := by
  unfold powInt
  split
  · rfl
  · exact mulPow_harmless 1 a n

section
variable {P : Value → Prop} (hP : ∀ v : Value, v.isPlain = true → P v)
include hP

theorem pow_harmless (a b : Number) : Harmless P (Arithmetic.pow a b) := by
  match a, b with
  | .int a, .int n =>
    simp only [Arithmetic.pow]
    split
    · exact (powInt_harmless _ _).map fun _ _ => hP _ rfl
    · exact hP _ rfl
  | .int _, .float _ | .float _, .int _ | .float _, .float _ => exact hP _ rfl

theorem numeric_harmless {onInts : Int64 → Int64 → Except Fault Int64}
    {onFloats : Float → Float → Except Fault Float}
    (hi : ∀ a b, Harmless (fun _ => True) (onInts a b))
    (hf : ∀ x y, Harmless (fun _ => True) (onFloats x y)) (a b : Number) :
    Harmless P (numeric onInts onFloats a b) := by
  match a, b with
  | .int a, .int b => exact (hi a b).map fun _ _ => hP _ rfl
  | .int _, .float _ | .float _, .int _ | .float _, .float _ =>
    exact (hf _ _).map fun _ _ => hP _ rfl

omit hP in
theorem onNumbers_harmless {f : Number → Number → Except Fault Value}
    (hf : ∀ a b, Harmless P (f a b)) (l r : Value) : Harmless P (Operation.onNumbers f l r) :=
  (asNumber_harmless r).bind fun b _ => (asNumber_harmless l).bind fun a _ => hf a b

theorem onInts_harmless {right : Value → Except Fault Int64} {f : Int64 → Int64 → Int64}
    (hr : ∀ v, Harmless (fun _ => True) (right v)) (l r : Value) :
    Harmless P (Operation.onInts right f l r) :=
  (hr r).bind fun _ _ => (asInt_harmless l).bind fun _ _ => hP _ rfl

/-- An operation computes a new value, or hands one of its operands on. -/
theorem apply_harmless {l r : Value} (hl : P l) (hr : P r) (op : Operation) :
    Harmless P (op.apply l r) := by
  cases op with
  | add =>
    simp only [Operation.apply]
    split
    · exact hP _ rfl
    · rfl
    · refine onNumbers_harmless (numeric_harmless hP ?_ ?_) _ _
      · exact fun _ _ => checked_harmless _
      · exact fun _ _ => trivial
  | sub | mul =>
    refine onNumbers_harmless (numeric_harmless hP ?_ ?_) l r
    · exact fun _ _ => checked_harmless _
    · exact fun _ _ => trivial
  | div =>
    refine onNumbers_harmless (fun a b => ?_) l r
    exact (divFloat_harmless _ _).map fun _ _ => hP _ rfl
  | mod => exact onNumbers_harmless (numeric_harmless hP modInt_harmless modFloat_harmless) l r
  | pow => exact onNumbers_harmless (pow_harmless hP) l r
  | bitAnd | bitOr => exact onInts_harmless hP asInt_harmless l r
  | shl | shr => exact onInts_harmless hP asShift_harmless l r
  | and =>
    simp only [Operation.apply]
    split
    · exact hr
    · exact hl
  | or =>
    simp only [Operation.apply]
    split
    · exact hl
    · exact hr

end

theorem Value.sound_of_isPlain {v : Value} (h : v.isPlain = true) : v.Sound p := by
  cases v with
  | chunk i | function i f => cases h
  | _ => trivial

theorem compare_harmless (c : Comparison) (l r : Value) :
    Harmless (fun _ => True) (c.apply l r) := by
  unfold Comparison.apply
  split <;> trivial

end

/-! ## Operands -/

section
variable {p : Program} {slots : List Slot} {ops : List Value}

/-- The operands below a number of values. -/
theorem Fit.takeValues {n : Nat} {rest : List Slot} (hf : Fit p slots ops)
    (ht : Naskah.takeValues n slots = some rest) :
    ∃ vs ops', ops = vs ++ ops' ∧ vs.length = n ∧ (∀ v ∈ vs, v.Sound p) ∧ Fit p rest ops' := by
  induction n generalizing slots ops with
  | zero => cases ht; exact ⟨[], ops, rfl, rfl, by simp, hf⟩
  | succ n ih =>
    cases hf with
    | nil => cases ht
    | @cons s v slots ops hv hf =>
      cases s with
      | chunk i => cases ht
      | value =>
        obtain ⟨vs, ops', rfl, rfl, hvs, hf'⟩ := ih hf ht
        exact ⟨v :: vs, ops', rfl, rfl, List.forall_mem_cons.2 ⟨hv, hvs⟩, hf'⟩

theorem Fit.takeValue {rest : List Slot} (hf : Fit p slots ops)
    (ht : Naskah.takeValues 1 slots = some rest) :
    ∃ v ops', ops = v :: ops' ∧ v.Sound p ∧ Fit p rest ops' := by
  obtain ⟨vs, ops', rfl, hl, hvs, hf'⟩ := hf.takeValues ht
  obtain ⟨v, rfl⟩ := List.length_eq_one_iff.1 hl
  exact ⟨v, ops', rfl, hvs v (by simp), hf'⟩

theorem Fit.takeTwoValues {rest : List Slot} (hf : Fit p slots ops)
    (ht : Naskah.takeValues 2 slots = some rest) :
    ∃ r l ops', ops = r :: l :: ops' ∧ r.Sound p ∧ l.Sound p ∧ Fit p rest ops' := by
  obtain ⟨vs, ops', rfl, hl, hvs, hf'⟩ := hf.takeValues ht
  obtain ⟨r, l, rfl⟩ := List.length_eq_two.1 hl
  exact ⟨r, l, ops', rfl, hvs r (by simp), hvs l (by simp), hf'⟩

theorem Fit.replicate {vs : List Value} (h : ∀ v ∈ vs, v.Sound p) :
    Fit p (List.replicate vs.length .value) vs := by
  induction vs with
  | nil => exact .nil
  | cons v vs ih => exact .cons (h v (by simp)) (ih fun w hw => h w (by simp [hw]))

theorem Fit.takeChunk {i : Nat} (h : Fit p (.chunk i :: slots) ops) :
    ∃ ops', ops = .chunk i :: ops' ∧ i < p.chunks.length ∧ Fit p slots ops' := by
  cases h with
  | cons hv hf =>
    obtain ⟨rfl, hlt⟩ := hv
    exact ⟨_, rfl, hlt, hf⟩

theorem Fit.eq_nil (h : Fit p [] ops) : ops = [] := by
  cases h; rfl

end

/-! ## Verified code -/

section
variable {n k : Nat} {code : List Instruction} {entry slots : List Slot} {i : Instruction}

theorem Verified.take (h : Verified n entry code) (k : Nat) :
    (Instr.effects n (code.take k) entry).isSome := by
  have ht := h.total
  rw [← List.take_append_drop k code, Instr.effects_append] at ht
  exact Option.isSome_of_isSome_bind ht

/-- The slots after an instruction. -/
theorem Verified.next (h : Verified n entry code)
    (hs : Instr.effects n (code.take k) entry = some slots) (hi : code[k]? = some i) :
    ∃ slots', i.effect n slots = some slots' ∧
      Instr.effects n (code.take (k + 1)) entry = some slots' := by
  obtain ⟨slots', hs'⟩ := Option.isSome_iff_exists.1 (h.take (k + 1))
  refine ⟨slots', ?_, hs'⟩
  rw [List.take_add_one, hi, Option.toList_some, Instr.effects_append, hs, Option.bind_some,
    Instr.effects_cons, Option.bind_eq_some_iff] at hs'
  obtain ⟨slots₂, he, hn⟩ := hs'
  rw [he]; exact hn

/-- Only a return stands at the end of verified code. -/
theorem Verified.next_lt (h : Verified n entry code) (hi : code[k]? = some i) (hret : i ≠ .ret) :
    k + 1 < code.length := by
  obtain ⟨hlt, rfl⟩ := List.getElem?_eq_some_iff.1 hi
  by_contra hge
  refine hret ?_
  have hlast := h.returns
  rw [List.getLast?_eq_getElem?, show code.length - 1 = k by omega, hi] at hlast
  exact Option.some.inj hlast

end

/-! ## Names -/

theorem Env.sound_set {p : Program} {v : Value} (hv : v.Sound p) {name : String} :
    ∀ {e : Env}, (∀ x ∈ e, x.2.Sound p) → ∀ x ∈ e.set name v, x.2.Sound p
  | [], _, x, hx => by
    rw [Env.set, List.mem_singleton] at hx
    rw [hx]; exact hv
  | (n, w) :: e, he, x, hx => by
    rw [Env.set] at hx
    split at hx
    · rcases List.mem_cons.1 hx with rfl | hx
      · exact hv
      · exact he x (by simp [hx])
    · rcases List.mem_cons.1 hx with rfl | hx
      · exact he (n, w) (by simp)
      · exact Env.sound_set hv (fun y hy => he y (by simp [hy])) x hx

theorem Env.sound_get? {p : Program} {e : Env} {name : String} {v : Value}
    (he : ∀ x ∈ e, x.2.Sound p) (h : e.get? name = some v) : v.Sound p := by
  obtain ⟨l₁, l₂, rfl, -⟩ := List.lookup_eq_some_iff.1 h
  exact he (name, v) (by simp)

theorem Waiting.locals {p : Program} {fs : List Frame} {below : List Value}
    (h : Waiting p fs below) : ∀ f ∈ fs, ∀ x ∈ f.locals, x.2.Sound p := by
  induction h with
  | nobody => simp
  | caller hf _ _ _ _ ih =>
    intro f hm
    rcases List.mem_cons.1 hm with rfl | hm
    · exact hf.locals
    · exact ih f hm

namespace Machine

section
variable {p : Program} {m : Machine} {code : List Instruction} {entry slots : List Slot}
  {ops below : List Value}

theorem Progress.moduleFrame_locals (h : Progress p m code entry slots ops below) :
    ∀ x ∈ m.moduleFrame.locals, x.2.Sound p := by
  unfold moduleFrame
  cases hl : m.callers.getLast? with
  | none => exact h.stands.locals
  | some f => exact h.waiting.locals f (List.mem_of_getLast? hl)

theorem Progress.lookup (h : Progress p m code entry slots ops below) {name : String} {v : Value}
    (hv : m.lookup name = .ok v) : v.Sound p := by
  unfold Machine.lookup at hv
  cases hl : (m.current.locals.get? name).or (m.global? name) with
  | some w =>
    rw [hl] at hv
    cases hv
    rcases Option.or_eq_some_iff.1 hl with hl | ⟨-, hl⟩
    · exact Env.sound_get? h.stands.locals hl
    · exact Env.sound_get? h.moduleFrame_locals hl
  | none =>
    simp only [hl] at hv
    split at hv
    · cases hv
      trivial
    · cases hv

/-- A name that means nothing is unbound. -/
theorem lookup_error {name : String} {e : Fault} (h : m.lookup name = .error e) :
    e = .unboundName name := by
  unfold Machine.lookup at h
  split at h
  · cases h
  · split at h <;> cases h
    rfl

/-! ## Going on in the code -/

/-- The slots after the next instruction. -/
theorem Progress.next {i : Instruction} (h : Progress p m code entry slots ops below)
    (hi : code[m.current.ip]? = some i) :
    ∃ slots', i.effect p.chunks.length slots = some slots' ∧
      Instr.effects p.chunks.length (code.take (m.current.ip + 1)) entry = some slots' :=
  h.stands.verified.next h.stands.slots_eq hi

theorem Progress.next_lt {i : Instruction} (h : Progress p m code entry slots ops below)
    (hi : code[m.current.ip]? = some i) (hret : i ≠ .ret) : m.current.ip + 1 < code.length :=
  h.stands.verified.next_lt hi hret

/-- A machine goes on after an instruction that does not return. -/
theorem Progress.goesOn {i : Instruction} {m' : Machine} {locals : Env} {slots' : List Slot}
    {ops' : List Value} (h : Progress p m code entry slots ops below)
    (hi : code[m.current.ip]? = some i) (hret : i ≠ .ret)
    (he : i.effect p.chunks.length slots = some slots')
    (hcur : m'.current = { m.fetched.current with locals }) (hloc : ∀ x ∈ locals, x.2.Sound p)
    (hcall : m'.callers = m.callers) (hstack : m'.stack = ops' ++ below) (hfit : Fit p slots' ops') :
    m'.Running p := by
  obtain ⟨slots₂, he₂, hs⟩ := h.next hi
  rw [he] at he₂; cases he₂
  refine ⟨code, entry, slots', ops', below,
    ⟨⟨?_, h.stands.verified, ?_, ?_⟩, hstack, hfit, ?_, ?_, ?_⟩, ?_⟩
  · rw [hcur]; exact h.stands.code_eq
  · rw [hcur]; exact hs
  · rw [hcur]; exact hloc
  · rw [hcur]; exact h.base
  · rw [hcall]; exact h.waiting
  · rw [frames, hcur, hcall]; exact h.module
  · rw [hcur]; exact h.next_lt hi hret

/-- A machine goes on where a jump leads to. -/
theorem Progress.jumpsTo {i : Instruction} {m' : Machine} {t : Nat}
    (h : Progress p m code entry slots ops below) (hi : code[m.current.ip]? = some i)
    (ht : i.target? = some t) (hcur : m'.current = { m.fetched.current with ip := t })
    (hcall : m'.callers = m.callers) (hstack : m'.stack = below) : m'.Running p := by
  obtain ⟨hlt, hs⟩ := h.stands.verified.jumps i (List.mem_of_getElem? hi) t ht
  refine ⟨code, entry, [], [], below,
    ⟨⟨?_, h.stands.verified, ?_, ?_⟩, hstack, .nil, ?_, ?_, ?_⟩, ?_⟩
  · rw [hcur]; exact h.stands.code_eq
  · rw [hcur]; exact hs
  · rw [hcur]; exact h.stands.locals
  · rw [hcur]; exact h.base
  · rw [hcall]; exact h.waiting
  · rw [frames, hcur, hcall]; exact h.module
  · rw [hcur]; exact hlt

/-! ## One step -/

theorem callFault_harmless {k : Nat} {callee : Value} {e : Fault} (hc : callee.Sound p)
    (he : callFault p m k callee = some e) : e.isInternal = false := by
  cases callee with
  | function i name =>
    simp only [Machine.callFault, List.getElem?_eq_getElem hc] at he
    split at he
    · cases he; rfl
    · split at he
      · cases he; rfl
      · cases he
  | builtin b => cases he
  | null | int n | float x | bool b | string s | chunk i => cases he; rfl

section Step
variable (h : Progress p m code entry slots ops below)
include h

theorem Progress.fetched_stack : m.fetched.stack = ops ++ below := h.stack_eq

theorem Progress.loadConst {v : Value} (hi : code[m.current.ip]? = some (.loadConst v)) :
    Safe p (execute p (.loadConst v) m.fetched) := by
  obtain ⟨slots', he, -⟩ := h.next hi
  obtain ⟨s, hs, rfl⟩ := Option.map_eq_some_iff.1 he
  have hfits : s.Fits p v := by
    cases v with
    | chunk i =>
      simp only [constSlot, Option.ite_none_right_eq_some, Option.some.injEq] at hs
      obtain ⟨hlt, rfl⟩ := hs
      exact ⟨rfl, hlt⟩
    | null | int n | float x | bool b | string s => cases hs; trivial
    | function i f | builtin b => cases hs
  rw [execute_loadConst]
  exact h.goesOn hi (by simp) he rfl h.stands.locals rfl
    (congrArg (_ :: ·) h.fetched_stack) (.cons hfits h.fit)

theorem Progress.loadName {name : String} (hi : code[m.current.ip]? = some (.loadName name)) :
    Safe p (execute p (.loadName name) m.fetched) := by
  have hf : m.fetched.lookup name = m.lookup name := by
    unfold Machine.lookup global? moduleFrame fetched
    cases m.callers.getLast? <;> rfl
  cases hv : m.lookup name with
  | ok v =>
    rw [execute_loadName (hf.trans hv)]
    exact h.goesOn hi (by simp) rfl rfl h.stands.locals rfl
      (congrArg (_ :: ·) h.fetched_stack) (.cons (h.lookup hv) h.fit)
  | error e =>
    rw [execute_loadName_error (hf.trans hv), lookup_error hv]
    rfl

theorem Progress.storeName {name : String} (hi : code[m.current.ip]? = some (.storeName name)) :
    Safe p (execute p (.storeName name) m.fetched) := by
  obtain ⟨slots', he, -⟩ := h.next hi
  obtain ⟨v, ops', rfl, hv, hf⟩ := h.fit.takeValue he
  rw [execute_storeName h.fetched_stack]
  exact h.goesOn hi (by simp) he rfl (Env.sound_set hv h.stands.locals) rfl rfl hf

theorem Progress.pop (hi : code[m.current.ip]? = some .pop) :
    Safe p (execute p .pop m.fetched) := by
  obtain ⟨slots', he, -⟩ := h.next hi
  obtain ⟨v, ops', rfl, -, hf⟩ := h.fit.takeValue he
  rw [execute_pop h.fetched_stack]
  exact h.goesOn hi (by simp) he rfl h.stands.locals rfl rfl hf

theorem Progress.binary {op : Operation} (hi : code[m.current.ip]? = some (.binary op)) :
    Safe p (execute p (.binary op) m.fetched) := by
  obtain ⟨slots', he, -⟩ := h.next hi
  obtain ⟨rest, ht, rfl⟩ := Option.map_eq_some_iff.1 he
  obtain ⟨r, l, ops', rfl, hr, hl, hf⟩ := h.fit.takeTwoValues ht
  have ha := apply_harmless (fun _ => Value.sound_of_isPlain) hl hr op
  cases hv : op.apply l r with
  | ok v =>
    rw [hv] at ha
    rw [execute_binary h.fetched_stack hv]
    exact h.goesOn hi (by simp) he rfl h.stands.locals rfl rfl (.cons ha hf)
  | error e =>
    rw [hv] at ha
    obtain ⟨stack, -, hs⟩ := execute_binary_error (p := p) h.fetched_stack hv
    rw [hs]
    exact Fault.isInternal_of_ofOperands ha

theorem Progress.compare {c : Comparison} (hi : code[m.current.ip]? = some (.compare c)) :
    Safe p (execute p (.compare c) m.fetched) := by
  obtain ⟨slots', he, -⟩ := h.next hi
  obtain ⟨rest, ht, rfl⟩ := Option.map_eq_some_iff.1 he
  obtain ⟨r, l, ops', rfl, -, -, hf⟩ := h.fit.takeTwoValues ht
  have ha := compare_harmless c l r
  cases hv : c.apply l r with
  | ok b =>
    rw [execute_compare h.fetched_stack hv]
    have hfit : Fit p (.value :: rest) (.bool b :: ops') := .cons trivial hf
    exact h.goesOn hi (by simp) he rfl h.stands.locals rfl rfl hfit
  | error e =>
    rw [hv] at ha
    rw [execute_compare_error h.fetched_stack hv]
    exact Fault.isInternal_of_ofOperands ha

theorem Progress.jump {t : Nat} (hi : code[m.current.ip]? = some (.jump t)) :
    Safe p (execute p (.jump t) m.fetched) := by
  obtain ⟨slots', he, -⟩ := h.next hi
  obtain ⟨rfl, rfl⟩ := eq_nil_of_noSlots he
  have ht := (h.stands.verified.jumps _ (List.mem_of_getElem? hi) t rfl).1
  have hc : m.fetched.current.code p = .ok code := h.stands.code_eq
  have hops := Fit.eq_nil h.fit
  rw [execute_jump hc (Nat.le_of_lt ht)]
  exact h.jumpsTo hi rfl rfl rfl (by rw [hops] at h; exact h.stack_eq)

theorem Progress.jumpIfFalse {t : Nat} (hi : code[m.current.ip]? = some (.jumpIfFalse t)) :
    Safe p (execute p (.jumpIfFalse t) m.fetched) := by
  obtain ⟨slots', he, -⟩ := h.next hi
  obtain ⟨rest, ht, hn⟩ := Option.bind_eq_some_iff.1 he
  obtain ⟨rfl, rfl⟩ := eq_nil_of_noSlots hn
  obtain ⟨v, ops', rfl, hv, hf⟩ := h.fit.takeValue ht
  have hlt := (h.stands.verified.jumps _ (List.mem_of_getElem? hi) t rfl).1
  have hc : m.fetched.current.code p = .ok code := h.stands.code_eq
  cases Fit.eq_nil hf
  cases hb : v.isTruthy with
  | true =>
    rw [execute_jumpIfFalse_true h.fetched_stack hb]
    exact h.goesOn hi (by simp) he rfl h.stands.locals rfl rfl hf
  | false =>
    rw [execute_jumpIfFalse_false h.fetched_stack hb hc (Nat.le_of_lt hlt)]
    exact h.jumpsTo hi rfl rfl rfl rfl

theorem Progress.buildString {k : Nat} (hi : code[m.current.ip]? = some (.buildString k)) :
    Safe p (execute p (.buildString k) m.fetched) := by
  obtain ⟨slots', he, -⟩ := h.next hi
  obtain ⟨rest, ht, rfl⟩ := Option.map_eq_some_iff.1 he
  obtain ⟨vs, ops', rfl, hl, -, hf⟩ := h.fit.takeValues ht
  have hs : m.fetched.stack = vs.reverse.reverse ++ (ops' ++ below) := by
    rw [h.fetched_stack, List.reverse_reverse, List.append_assoc]
  rw [show k = vs.reverse.length by simp [hl], execute_buildString hs]
  have hfit : Fit p (.value :: rest)
      (.string (String.join (vs.reverse.map Value.text)) :: ops') := .cons trivial hf
  exact h.goesOn hi (by simp) he rfl h.stands.locals rfl rfl hfit

theorem Progress.makeFunction {name : String}
    (hi : code[m.current.ip]? = some (.makeFunction name)) :
    Safe p (execute p (.makeFunction name) m.fetched) := by
  obtain ⟨slots', he, -⟩ := h.next hi
  obtain ⟨rest, ht, rfl⟩ := Option.map_eq_some_iff.1 he
  cases slots with
  | nil => cases ht
  | cons s slots =>
    cases s with
    | value => cases ht
    | chunk i =>
      obtain rfl := Option.some.inj ht
      obtain ⟨ops', rfl, hlt, hf⟩ := Fit.takeChunk h.fit
      rw [execute_makeFunction h.fetched_stack hlt]
      have hfit : Fit p (.value :: slots) (.function i name :: ops') := .cons hlt hf
      exact h.goesOn hi (by simp) he rfl h.stands.locals rfl rfl hfit

theorem Progress.call (hp : p.Verified) {k : Nat} (hi : code[m.current.ip]? = some (.call k)) :
    Safe p (execute p (.call k) m.fetched) := by
  obtain ⟨slots', he, hs⟩ := h.next hi
  obtain ⟨rest, ht, rfl⟩ := Option.map_eq_some_iff.1 he
  obtain ⟨vs, ops', rfl, hl, hvs, hf⟩ := h.fit.takeValues ht
  rcases vs.eq_nil_or_concat with rfl | ⟨args, callee, rfl⟩
  · cases hl
  obtain rfl : args.reverse.length = k := by simpa using hl
  have hargs : ∀ v ∈ args.reverse.reverse, v.Sound p := fun v hv => hvs v (by simp_all)
  have hstack : m.fetched.stack = args.reverse.reverse ++ callee :: (ops' ++ below) := by
    rw [h.fetched_stack]; simp
  cases hcf : Machine.callFault p m.fetched args.reverse.length callee with
  | some e =>
    rw [execute_call_error hstack hcf]
    exact callFault_harmless (hvs callee (by simp)) hcf
  | none =>
    rcases callFault_eq_none hcf with rfl | ⟨i, name, c, rfl, hc, ha, hd⟩
    · rw [execute_call_print hstack]
      have hfit : Fit p (.value :: rest) (.null :: ops') := .cons trivial hf
      exact h.goesOn hi (by simp) he rfl h.stands.locals rfl rfl hfit
    · rw [execute_call_function hstack hc ha hd]
      have hv := hp.chunks c (List.mem_of_getElem? hc)
      -- the frame that calls waits for one more value
      have hw : Waiting p (m.fetched.current :: m.callers) (ops' ++ below) :=
        .caller ⟨h.stands.code_eq, h.stands.verified, hs, h.stands.locals⟩
          (h.next_lt hi (by simp)) hf h.base h.waiting
      refine ⟨c.code, _, _, args.reverse, ops' ++ below,
        ⟨⟨by simp [Frame.code, entered, hc], hv, rfl, ?_⟩, rfl, ?_, rfl, hw, h.module⟩, ?_⟩
      · intro x hx
        rw [entered, List.mem_singleton] at hx
        rw [hx]
        exact (List.getElem?_eq_some_iff.1 hc).1
      · rw [ha]
        exact Fit.replicate fun v hv => hargs v (by simpa using hv)
      · exact List.length_pos_of_mem (List.mem_of_getLast? hv.returns)

theorem Progress.ret (hi : code[m.current.ip]? = some .ret) :
    Safe p (execute p .ret m.fetched) := by
  obtain ⟨slots', he, hs⟩ := h.next hi
  obtain ⟨rest, ht, hn⟩ := Option.bind_eq_some_iff.1 he
  obtain ⟨rfl, rfl⟩ := eq_nil_of_noSlots hn
  obtain ⟨v, ops', rfl, hv, hf⟩ := h.fit.takeValue ht
  cases Fit.eq_nil hf
  have hstack : m.fetched.stack = v :: below := h.stack_eq
  rw [execute_ret hstack]
  have hw := h.waiting
  have hb := h.base
  have hm := h.module
  generalize hcs : m.callers = cs at hw
  cases hw with
  | nobody =>
    rw [leave_module (m := { m.fetched with stack := [] }) hcs]
    rw [frames, hcs] at hm
    exact ⟨Option.some.inj hm, hcs, rfl,
      ⟨code, entry, h.stands.code_eq, h.stands.verified, hs, h.stands.locals⟩, hb⟩
  | @caller f fs code' entry' slots' ops' below' hst hip hops hbase hrest =>
    have hs : (ops' ++ below') = [] ++ (ops' ++ below') := rfl
    rw [leave_frame (m := { m.fetched with stack := ops' ++ below' }) hcs hs hb]
    rw [frames, hcs] at hm
    exact ⟨code', entry', .value :: slots', v :: ops', below',
      ⟨hst, rfl, .cons hv hops, hbase, hrest, hm⟩, hip⟩

end Step

end

variable {p : Program} {m : Machine}

/-- **A step of a verified program is safe.** -/
theorem safe_step (hp : p.Verified) (h : m.Running p) : Safe p (step p m) := by
  obtain ⟨code, entry, slots, ops, below, h, hip⟩ := h
  have hi := List.getElem?_eq_getElem hip
  rw [step_fetch h.stands.code_eq hi]
  revert hi
  generalize code[m.current.ip] = i
  intro hi
  cases i with
  | loadConst v => exact h.loadConst hi
  | loadName name => exact h.loadName hi
  | storeName name => exact h.storeName hi
  | binary op => exact h.binary hi
  | compare c => exact h.compare hi
  | jumpIfFalse t => exact h.jumpIfFalse hi
  | jump t => exact h.jump hi
  | buildString k => exact h.buildString hi
  | call k => exact h.call hp hi
  | makeFunction name => exact h.makeFunction hi
  | ret => exact h.ret hi
  | pop => exact h.pop hi

/-- **Every run of a verified program is safe**, however many steps it is given. -/
theorem safe_runFor (hp : p.Verified) (h : m.Running p) (n : Nat) : Safe p (runFor p n m) := by
  induction n generalizing m with
  | zero => exact h
  | succ n ih =>
    have hs := safe_step hp h
    rw [runFor]
    cases hr : step p m with
    | error e m' =>
      rw [hr] at hs
      rw [bind_error hr]
      exact hs
    | ok answer m' =>
      rw [hr] at hs
      rw [bind_ok hr]
      cases answer with
      | some v => exact hs
      | none => exact ih hs

theorem running_start (hp : p.Verified) : start.Running p := by
  refine ⟨p.code, [], [], [], [], ⟨⟨rfl, hp.code, rfl, ?_⟩, rfl, .nil, rfl, .nobody, rfl⟩, ?_⟩
  · intro x hx
    rw [start, List.mem_singleton] at hx
    rw [hx]; trivial
  · exact List.length_pos_of_mem (List.mem_of_getLast? hp.code.returns)

/-- **A machine at rest can be run again**: it goes on in the code that is left, or there is none
    and the run ends at once. -/
theorem Resting.runFor (hp : p.Verified) (h : m.Resting p) (n : Nat) :
    runFor p n m = .ok none m ∨ Safe p (runFor p n m) := by
  obtain ⟨code, entry, hst⟩ := h.stands
  by_cases hip : m.current.ip < code.length
  · right
    refine safe_runFor hp ⟨code, entry, [], [], [], ⟨hst, h.stack, .nil, h.base, ?_, ?_⟩, hip⟩ n
    · rw [h.callers]; exact .nobody
    · rw [frames, h.callers]; exact congrArg some h.module
  · cases n with
    | zero => exact .inl rfl
    | succ n =>
      right
      have hs : step p m = .ok (some .null) m :=
        (step_end hst.code_eq (List.getElem?_eq_none (Nat.not_lt.1 hip))).trans
          (leave_module h.callers)
      rw [Machine.runFor, bind_ok hs]
      exact h

end Machine

end Naskah
