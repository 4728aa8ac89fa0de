/-
  Runs of the machine that follow the meaning of a tree.  `Follows` says that a machine gets to
  where a part of the tree leads: it goes on from the state that the part leaves, or stops with the
  same fault, output and names of the module; and if the part was cut off after `n` rounds, it makes
  at least `n` steps.

  The code of an expression makes the machine follow its value (`Expr.follows`).
-/
import Naskah.Proofs.Machine.Execution
import Naskah.Proofs.Tree.Generate
import Naskah.Proofs.Tree.Meaning

namespace Naskah

open Naskah.Tree

/-! ## Parts of lists -/

/-- A part of a list that begins at a place. -/
def LiesAt {α : Type} (whole : List α) (pos : Nat) (part : List α) : Prop :=
  part <+: whole.drop pos

namespace LiesAt

variable {α : Type} {whole a b : List α} {pos : Nat}

theorem append_iff :
    LiesAt whole pos (a ++ b) ↔ LiesAt whole pos a ∧ LiesAt whole (pos + a.length) b := by
  unfold LiesAt
  rw [← List.drop_drop]
  constructor
  · rintro ⟨t, ht⟩
    rw [← ht, List.append_assoc]
    exact ⟨List.prefix_append _ _, by rw [List.drop_left]; exact List.prefix_append _ _⟩
  · rintro ⟨⟨t, ht⟩, hb⟩
    rw [← ht, List.drop_left] at hb
    rw [← ht]
    exact (List.prefix_append_right_inj a).2 hb

theorem cons_iff {x : α} :
    LiesAt whole pos (x :: a) ↔ whole[pos]? = some x ∧ LiesAt whole (pos + 1) a := by
  rw [← List.singleton_append, append_iff]
  refine and_congr_left fun _ => ?_
  unfold LiesAt
  rw [← List.head?_drop]
  cases whole.drop pos with
  | nil => simp
  | cons y l => simp [eq_comm]

theorem nil : LiesAt whole pos [] :=
  List.nil_prefix

theorem length_le (h : LiesAt whole pos a) (hne : a ≠ []) : pos + a.length ≤ whole.length := by
  have hl := List.IsPrefix.length_le h
  rw [List.length_drop] at hl
  have := List.length_pos_iff.2 hne
  omega

end LiesAt

open Machine

/-! ## Following -/

/-- The machine gets to where a run of a tree leads. -/
def Follows {α : Type} (p : Program) (outer : Option Env) (n : Nat) (m : Machine)
    (r : EStateM.Result Halt Store α) (after : α → Store → Machine → Prop) : Prop :=
  match r with
  | .ok x s => ∃ k m', runFor p k m = .ok none m' ∧ after x s m'
  | .error (.fault e) s => ∃ k m', runFor p k m = .error e m' ∧ m'.output = s.output ∧
      m'.moduleFrame.locals = outer.getD s.env
  | .error .cut _ => ∃ k m', n ≤ k ∧ runFor p k m = .ok none m'

namespace Follows

variable {α β : Type} {p : Program} {outer : Option Env} {n : Nat} {m m' : Machine}
  {mid : α → Store → Machine → Prop} {after : β → Store → Machine → Prop} {s : Store}

theorem done {x : β} (h : after x s m) : Follows p outer n m (.ok x s) after :=
  ⟨0, m, rfl, h⟩

/-- Fewer rounds ask for fewer steps. -/
theorem mono {r : EStateM.Result Halt Store β} {k : Nat} (hk : k ≤ n)
    (h : Follows p outer n m r after) : Follows p outer k m r after := by
  cases r with
  | ok x s => exact h
  | error e s =>
    cases e with
    | fault e => exact h
    | cut =>
      obtain ⟨j, m₁, hn, hj⟩ := h
      exact ⟨j, m₁, Nat.le_trans hk hn, hj⟩

/-- Steps on the way; they count as rounds. -/
theorem run {r : EStateM.Result Halt Store β} {k : Nat} (hk : runFor p k m = .ok none m')
    (h : Follows p outer n m' r after) : Follows p outer (k + n) m r after := by
  cases r with
  | ok x s =>
    obtain ⟨j, m₁, hj, ha⟩ := h
    exact ⟨k + j, m₁, by rw [runFor_add hk, hj], ha⟩
  | error e s =>
    cases e with
    | fault e =>
      obtain ⟨j, m₁, hj, ha⟩ := h
      exact ⟨k + j, m₁, by rw [runFor_add hk, hj], ha⟩
    | cut =>
      obtain ⟨j, m₁, hn, hj⟩ := h
      exact ⟨k + j, m₁, Nat.add_le_add_left hn k, by rw [runFor_add hk, hj]⟩

theorem step {r : EStateM.Result Halt Store β} (hs : Machine.step p m = .ok none m')
    (h : Follows p outer n m' r after) : Follows p outer (n + 1) m r after :=
  Nat.add_comm 1 n ▸ h.run (runFor_one hs)

/-- A step that fails. -/
theorem fault {e : Fault} (hs : Machine.step p m = .error e m') (ho : m'.output = s.output)
    (hg : m'.moduleFrame.locals = outer.getD s.env) :
    Follows p outer n m (.error (.fault e) s) after :=
  ⟨1, m', runFor_one hs, ho, hg⟩

/-- Steps after the end. -/
theorem onward {r : EStateM.Result Halt Store β} {after' : β → Store → Machine → Prop}
    (h : Follows p outer n m r after)
    (ha : ∀ x s m', after x s m' → Follows p outer n m' (.ok x s) after') :
    Follows p outer n m r after' := by
  cases r with
  | ok x s =>
    obtain ⟨k, m₁, hk, hx⟩ := h
    exact ((ha x s m₁ hx).run hk).mono (Nat.le_add_left n k)
  | error e s => cases e <;> exact h

/-- **One part after the other**: a fault and a cut end both. -/
theorem bind {x : Exec α} {f : α → Exec β} (hx : Follows p outer n m (x s) mid)
    (hf : ∀ v s' m', mid v s' m' → Follows p outer n m' (f v s') after) :
    Follows p outer n m ((x >>= f) s) after := by
  show Follows p outer n m (EStateM.bind x f s) after
  unfold EStateM.bind
  cases hr : x s with
  | ok v s' =>
    rw [hr] at hx
    obtain ⟨k, m₁, hk, hm⟩ := hx
    exact ((hf v s' m₁ hm).run hk).mono (Nat.le_add_left n k)
  | error e s' =>
    rw [hr] at hx
    cases e <;> exact hx

theorem imp {r : EStateM.Result Halt Store β} {after' : β → Store → Machine → Prop}
    (h : Follows p outer n m r after) (hi : ∀ x s m', after x s m' → after' x s m') :
    Follows p outer n m r after' :=
  h.onward fun x s m' hx => .done (hi x s m' hx)

end Follows

/-! ## Frames -/

/-- A frame that runs: all of the machine but the offset, the operands and the store. -/
structure Activation where
  chunk : Option Nat
  base : Nat
  callers : List Frame

/-- The machine in a frame. -/
def Activation.machine (a : Activation) (ip : Nat) (stack : List Value) (s : Store) : Machine where
  current := ⟨a.chunk, ip, s.env, a.base⟩
  callers := a.callers
  stack := stack
  output := s.output

/-- The frame runs the given code; `depth` frames are alive, and `outer` are the names of the module
    if the frame is not the module. -/
structure Activation.Runs (a : Activation) (p : Program) (code : List Instruction)
    (outer : Option Env) (depth : Nat) : Prop where
  code : ∀ f : Frame, f.chunk = a.chunk → f.code p = .ok code
  outer : a.callers.getLast?.map Frame.locals = outer
  depth : a.callers.length + 1 = depth

namespace Activation.Runs

variable {a : Activation} {p : Program} {code : List Instruction} {outer : Option Env}
  {depth pos : Nat} {ops : List Value} {s : Store}

theorem moduleFrame (h : a.Runs p code outer depth) :
    (a.machine pos ops s).moduleFrame.locals = outer.getD s.env := by
  rw [← h.outer]
  unfold Machine.moduleFrame machine
  cases a.callers.getLast? <;> rfl

theorem lookup (h : a.Runs p code outer depth) {w : World} (hw : w.outer = outer) (x : String) :
    (a.machine pos ops s).lookup x = w.lookup s.env x := by
  rw [Machine.lookup, Machine.global?, h.moduleFrame, World.lookup, hw]
  rfl

theorem step (h : a.Runs p code outer depth) {i : Instruction} (hi : code[pos]? = some i) :
    Machine.step p (a.machine pos ops s) = execute p i (a.machine (pos + 1) ops s) :=
  step_fetch (h.code _ rfl) hi

/-- A step that changes nothing but the operands. -/
theorem follows_step {β : Type} {after : β → Store → Machine → Prop} {n : Nat} {i : Instruction}
    {r : EStateM.Result Halt Store β} {m' : Machine} (h : a.Runs p code outer depth)
    (hi : code[pos]? = some i) (he : execute p i (a.machine (pos + 1) ops s) = .ok none m')
    (hr : Follows p outer n m' r after) : Follows p outer n (a.machine pos ops s) r after :=
  (hr.step ((h.step hi).trans he)).mono (Nat.le_succ n)

theorem follows_fault {β : Type} {after : β → Store → Machine → Prop} {n : Nat} {i : Instruction}
    {e : Fault} {stack : List Value} (h : a.Runs p code outer depth) (hi : code[pos]? = some i)
    (he : execute p i (a.machine (pos + 1) ops s) = .error e (a.machine (pos + 1) stack s)) :
    Follows p outer n (a.machine pos ops s) (.error (.fault e) s) after :=
  .fault ((h.step hi).trans he) rfl h.moduleFrame

end Activation.Runs

/-- What the frame at hand needs to follow a tree: the world calls as the machine does. -/
structure Followed (p : Program) (code : List Instruction) (a : Activation) (w : World)
    (n depth : Nat) : Prop where
  runs : a.Runs p code w.outer depth
  rounds : w.rounds = n
  call : ∀ {ip : Nat} (callee : Value) (args ops : List Value) (s : Store),
    code[ip]? = some (.call args.length) →
      Follows p w.outer n (a.machine ip (args.reverse ++ callee :: ops) s) (w.call callee args s)
        fun v s' m' => m' = a.machine (ip + 1) (v :: ops) s'

/-! ## Expressions -/

namespace Followed

variable {p : Program} {code : List Instruction} {a : Activation} {w : World} {n depth pos : Nat}
  {ops : List Value} {s : Store}

theorem load (hw : Followed p code a w n depth) {x : String}
    (h : code[pos]? = some (.loadName x)) :
    Follows p w.outer n (a.machine pos ops s) (w.load x s)
      fun v s' m' => m' = a.machine (pos + 1) (v :: ops) s' := by
  have hl : ∀ ip, (a.machine ip ops s).lookup x = w.lookup s.env x :=
    fun _ => hw.runs.lookup rfl x
  show Follows _ _ _ _ (Exec.lift (w.lookup s.env x) s) _
  cases hx : w.lookup s.env x with
  | ok v => exact hw.runs.follows_step h (execute_loadName ((hl _).trans hx)) (.done rfl)
  | error e => exact hw.runs.follows_fault h (execute_loadName_error ((hl _).trans hx))

theorem apply (hw : Followed p code a w n depth) {o : Sign} (l r : Value)
    (h : code[pos]? = some o.instr) :
    Follows p w.outer n (a.machine pos (r :: l :: ops) s) (Exec.lift (o.apply l r) s)
      fun v s' m' => m' = a.machine (pos + 1) (v :: ops) s' := by
  have hcompare : ∀ c, code[pos]? = some (.compare c) →
      Follows p w.outer n (a.machine pos (r :: l :: ops) s)
        (Exec.lift ((c.apply l r).map Value.bool) s)
          fun v s' m' => m' = a.machine (pos + 1) (v :: ops) s' := by
    intro c hc
    cases hx : c.apply l r with
    | ok b => exact hw.runs.follows_step hc (execute_compare rfl hx) (.done rfl)
    | error e => exact hw.runs.follows_fault hc (execute_compare_error rfl hx)
  cases o with
  | binary op =>
    show Follows _ _ _ _ (Exec.lift (op.apply l r) s) _
    cases hx : op.apply l r with
    | ok v => exact hw.runs.follows_step h (execute_binary rfl hx) (.done rfl)
    | error e =>
      obtain ⟨stack, -, he⟩ := execute_binary_error (p := p) (m := a.machine (pos + 1) _ s) rfl hx
      exact hw.runs.follows_fault h he
  | compare c => exact hcompare c h
  | equal => exact hcompare .eq h
  | notEqual => exact hcompare .ne h

end Followed

namespace Tree

variable {p : Program} {code : List Instruction} {a : Activation} {w : World} {n depth : Nat}

/-- The operand of a text in a string with holes. -/
def textValues (s : String) : List Value :=
  if s = "" then [] else [.string s]

theorem length_textValues (s : String) : (textValues s).length = if s = "" then 0 else 1 := by
  unfold textValues
  split <;> rfl

theorem join_textValues (s : String) (vs : List Value) :
    String.join ((textValues s ++ vs).map Value.text) = s ++ String.join (vs.map Value.text) := by
  unfold textValues
  split
  · next h => simp [h]
  · rw [List.cons_append, List.nil_append, List.map_cons, String.join_cons]
    rfl

theorem follows_text (hw : Followed p code a w n depth) {β : Type}
    {after : β → Store → Machine → Prop} {r : EStateM.Result Halt Store β} {t : String} {pos : Nat}
    {ops : List Value} {s : Store} (h : LiesAt code pos (textCode t))
    (hr : Follows p w.outer n
      (a.machine (pos + (textCode t : List Instruction).length) ((textValues t).reverse ++ ops) s)
        r after) :
    Follows p w.outer n (a.machine pos ops s) r after := by
  unfold textCode at h hr
  unfold textValues at hr
  split at h
  · next he =>
    rw [if_pos he, if_pos he] at hr
    exact hr
  · next he =>
    rw [if_neg he, if_neg he] at hr
    exact hw.runs.follows_step (LiesAt.cons_iff.1 h).1 (execute_loadConst _) hr

mutual

/-- **The code of an expression puts its value on the stack.** -/
theorem Expr.follows (hw : Followed p code a w n depth) : ∀ (e : Expr) {pos : Nat}
    (ops : List Value) (s : Store), LiesAt code pos e.code →
      Follows p w.outer n (a.machine pos ops s) (e.eval w s)
        fun v s' m' => m' = a.machine (pos + e.size) (v :: ops) s'
  | .int _, pos, ops, s, h | .float _, pos, ops, s, h | .bool _, pos, ops, s, h => by
    rw [Expr.code, LiesAt.cons_iff] at h
    rw [Expr.eval, Expr.size, Expr.code]
    exact hw.runs.follows_step h.1 (execute_loadConst _) (.done rfl)
  | .string q (.last t), pos, ops, s, h => by
    rw [Expr.code, LiesAt.cons_iff] at h
    rw [Expr.eval, Template.eval, Expr.size, Expr.code]
    exact hw.runs.follows_step h.1 (execute_loadConst _) (.done rfl)
  | .string q (.hole t e rest), pos, ops, s, h => by
    have hcode : (Expr.string q (.hole t e rest)).code (τ := Nat) =
        (Template.hole t e rest).code ++ [.buildString (Template.hole t e rest).count] := by
      rw [Expr.code, Template.code]
    rw [hcode, LiesAt.append_iff, LiesAt.cons_iff] at h
    rw [Expr.eval, Expr.size, hcode]
    refine ((Template.hole t e rest).follows hw ops s h.1).bind fun text s₁ m₁ h₁ => ?_
    obtain ⟨vs, hl, rfl, rfl⟩ := h₁
    refine hw.runs.follows_step (by rw [hl]; exact h.2.1) (execute_buildString rfl) (.done ?_)
    rw [List.length_append, ← Nat.add_assoc]
    rfl
  | .name x, pos, ops, s, h => by
    rw [Expr.code, LiesAt.cons_iff] at h
    rw [Expr.eval, Expr.size, Expr.code]
    exact hw.load h.1
  | .call f args, pos, ops, s, h => by
    rw [Expr.code, List.cons_append, LiesAt.cons_iff, LiesAt.append_iff, LiesAt.cons_iff] at h
    obtain ⟨hf, ha, hc, -⟩ := h
    rw [Expr.eval, Expr.size, Expr.code]
    refine (hw.load hf).bind fun callee s₁ m₁ h₁ => ?_
    subst h₁
    refine (follows_all hw args _ _ ha).bind fun vs s₂ m₂ h₂ => ?_
    obtain ⟨hl, rfl⟩ := h₂
    refine (hw.call callee vs ops s₂ (by rw [hl]; exact hc)).imp fun v s₃ m₃ h₃ => ?_
    rw [h₃]
    congr 1
    simp
    omega
  | .print args, pos, ops, s, h => by
    rw [Expr.code, List.cons_append, LiesAt.cons_iff, LiesAt.append_iff, LiesAt.cons_iff,
      LiesAt.cons_iff] at h
    obtain ⟨hf, ha, hb, hc, -⟩ := h
    rw [Expr.eval, Expr.size, Expr.code]
    refine (hw.load hf).bind fun callee s₁ m₁ h₁ => ?_
    subst h₁
    refine (follows_all hw args _ _ ha).bind fun vs s₂ m₂ h₂ => ?_
    obtain ⟨hl, rfl⟩ := h₂
    refine hw.runs.follows_step (by rw [hl]; exact hb) (execute_buildString rfl) ?_
    refine (hw.call callee [_] ops s₂ hc).imp fun v s₃ m₃ h₃ => ?_
    rw [h₃]
    congr 1
    simp
    omega
  | .apply o l r, pos, ops, s, h => by
    rw [Expr.code, LiesAt.append_iff, LiesAt.append_iff, LiesAt.cons_iff] at h
    obtain ⟨⟨hl, hr⟩, ho, -⟩ := h
    rw [List.length_append, ← Nat.add_assoc] at ho
    rw [Expr.eval, Expr.size, Expr.code]
    refine (l.follows hw ops s hl).bind fun x s₁ m₁ h₁ => ?_
    subst h₁
    refine (r.follows hw _ _ hr).bind fun y s₂ m₂ h₂ => ?_
    subst h₂
    refine (hw.apply x y ho).imp fun v s₃ m₃ h₃ => ?_
    rw [h₃, List.length_append, List.length_append, ← Nat.add_assoc, ← Nat.add_assoc]
    rfl

theorem Template.follows (hw : Followed p code a w n depth) : ∀ (t : Template) {pos : Nat}
    (ops : List Value) (s : Store), LiesAt code pos t.code →
      Follows p w.outer n (a.machine pos ops s) (t.eval w s)
        fun text s' m' => ∃ vs : List Value, vs.length = t.count ∧
          String.join (vs.map Value.text) = text ∧
            m' = a.machine (pos + (t.code : List Instruction).length) (vs.reverse ++ ops) s'
  | .last t, pos, ops, s, h => by
    rw [Template.code] at h
    rw [Template.eval, Template.code]
    refine follows_text hw h (.done ⟨textValues t, ?_, ?_, rfl⟩)
    · rw [Template.count, length_textValues]
    · have := join_textValues t []
      simpa using this
  | .hole t e rest, pos, ops, s, h => by
    rw [Template.code, LiesAt.append_iff, LiesAt.append_iff] at h
    obtain ⟨⟨ht, he⟩, hr⟩ := h
    rw [List.length_append, ← Nat.add_assoc] at hr
    rw [Template.eval, Template.code]
    refine follows_text hw ht ?_
    refine (e.follows hw _ s he).bind fun v s₁ m₁ h₁ => ?_
    subst h₁
    refine (rest.follows hw _ _ hr).bind fun text s₂ m₂ h₂ => ?_
    obtain ⟨vs, hl, rfl, rfl⟩ := h₂
    refine .done ⟨textValues t ++ v :: vs, ?_, ?_, ?_⟩
    · rw [Template.count, List.length_append, length_textValues, List.length_cons, hl]
      omega
    · rw [join_textValues, List.map_cons, String.join_cons, String.append_assoc]
    · simp [Nat.add_assoc]

theorem follows_all (hw : Followed p code a w n depth) : ∀ (es : List Expr) {pos : Nat}
    (ops : List Value) (s : Store), LiesAt code pos (codeAll es) →
      Follows p w.outer n (a.machine pos ops s) (evalAll w es s)
        fun vs s' m' => vs.length = es.length ∧
          m' = a.machine (pos + (codeAll es : List Instruction).length) (vs.reverse ++ ops) s'
  | [], pos, ops, s, h => by
    rw [evalAll, codeAll]
    exact .done ⟨rfl, rfl⟩
  | e :: es, pos, ops, s, h => by
    rw [codeAll, LiesAt.append_iff] at h
    rw [evalAll, codeAll]
    refine (e.follows hw ops s h.1).bind fun v s₁ m₁ h₁ => ?_
    subst h₁
    refine (follows_all hw es _ _ h.2).bind fun vs s₂ m₂ h₂ => ?_
    obtain ⟨hl, rfl⟩ := h₂
    refine .done ⟨by simp [hl], ?_⟩
    simp [Nat.add_assoc]

end

end Tree

end Naskah
