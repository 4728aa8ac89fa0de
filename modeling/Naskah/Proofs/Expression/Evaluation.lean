/-
  The code of an expression computes its value.  `Leads` says that a number of steps take the
  machine to where an evaluation leads: right behind the code with the value on top of the stack, or
  to the same fault; nothing else changes but the output, which is that of the evaluation.

  The code of a tree leads to the value of its formula (`Means.leads`), whatever stands below on
  the stack, so the code of tokens that call no function does (`runFor_expression`).  It does not
  if the name of the builtin belongs to a function (`runFor_rebound`).
-/
import Naskah.Proofs.Block.Pieces
import Naskah.Proofs.Expression.Formula
import Naskah.Proofs.Layout

namespace Naskah

open Asm

namespace Machine

/-- The machine with its running frame at an offset, and with other operands and output. -/
def moved (m : Machine) (ip : Nat) (stack : List Value) (output : Array String) : Machine :=
  { m with current := { m.current with ip }, stack, output }

end Machine

open Machine

namespace Expression

open Evaluation

/-! ## Steps and evaluations -/

/-- With `n` steps from an offset, operands and output the machine gets to where an evaluation
    leads.  When that fails, the operands in `floor` are still there. -/
def Leads {α : Type} (p : Program) (m : Machine) (floor : List Value) (n ip : Nat)
    (stack : List Value) (out : Array String) (r : EStateM.Result Fault (Array String) α)
    (after : α → List Value → Prop) : Prop :=
  match r with
  | .ok a out' => ∃ stack', after a stack' ∧
      runFor p n (m.moved ip stack out) = .ok none (m.moved (ip + n) stack' out')
  | .error e out' => ∃ ip' stack', floor <:+ stack' ∧
      runFor p n (m.moved ip stack out) = .error e (m.moved ip' stack' out')

namespace Leads

variable {α β : Type} {p : Program} {m : Machine} {floor floor' stack stack' : List Value}
  {n n₁ n₂ ip : Nat} {out out' : Array String} {after : α → List Value → Prop}

theorem done {a : α} (h : after a stack) : Leads p m floor 0 ip stack out (.ok a out) after :=
  ⟨stack, h, rfl⟩

theorem lower {r : EStateM.Result Fault (Array String) α} (hf : floor' <:+ floor)
    (h : Leads p m floor n ip stack out r after) : Leads p m floor' n ip stack out r after := by
  cases r with
  | ok a out' => exact h
  | error e out' =>
    obtain ⟨ip', stack', hs, hr⟩ := h
    exact ⟨ip', stack', hf.trans hs, hr⟩

theorem imp {r : EStateM.Result Fault (Array String) α} {after' : α → List Value → Prop}
    (h : Leads p m floor n ip stack out r after) (hi : ∀ a st, after a st → after' a st) :
    Leads p m floor n ip stack out r after' := by
  cases r with
  | ok a out' =>
    obtain ⟨stack', ha, hr⟩ := h
    exact ⟨stack', hi a stack' ha, hr⟩
  | error e out' => exact h

/-- Steps on the way. -/
theorem run {r : EStateM.Result Fault (Array String) α}
    (hrun : runFor p n₁ (m.moved ip stack out) = .ok none (m.moved (ip + n₁) stack' out'))
    (h : Leads p m floor n₂ (ip + n₁) stack' out' r after) :
    Leads p m floor (n₁ + n₂) ip stack out r after := by
  cases r with
  | ok a out₂ =>
    obtain ⟨stack₂, ha, hr⟩ := h
    exact ⟨stack₂, ha, by rw [runFor_add hrun, hr, Nat.add_assoc]⟩
  | error e out₂ =>
    obtain ⟨ip', stack₂, hs, hr⟩ := h
    exact ⟨ip', stack₂, hs, by rw [runFor_add hrun, hr]⟩

/-- **One evaluation after the other**: a fault ends both. -/
theorem bind {x : Evaluation α} {f : α → Evaluation β} {after' : β → List Value → Prop}
    (hx : Leads p m floor n₁ ip stack out (x out) after)
    (hf : ∀ a stack' out', after a stack' →
      Leads p m floor n₂ (ip + n₁) stack' out' (f a out') after') :
    Leads p m floor (n₁ + n₂) ip stack out ((x >>= f) out) after' := by
  show Leads p m floor _ ip stack out (EStateM.bind x f out) after'
  unfold EStateM.bind
  cases hr : x out with
  | ok a out' =>
    rw [hr] at hx
    obtain ⟨stack', ha, hrun⟩ := hx
    exact (hf a stack' out' ha).run hrun
  | error e out' =>
    rw [hr] at hx
    obtain ⟨ip', stack', hs, hrun⟩ := hx
    have hend : ∀ m', runFor p n₁ (m.moved ip stack out) ≠ .ok none m' := by
      intro m' hm'
      rw [hrun] at hm'
      cases hm'
    exact ⟨ip', stack', hs, by rw [runFor_ended hend, hrun]⟩

/-- The value is made into something else, without a step. -/
theorem map {x : Evaluation α} {f : α → β} {after' : β → List Value → Prop}
    (hx : Leads p m floor n ip stack out (x out) after)
    (hf : ∀ a st, after a st → after' (f a) st) :
    Leads p m floor n ip stack out ((x >>= fun a => pure (f a)) out) after' := by
  rw [← Nat.add_zero n]
  exact hx.bind fun a st _ ha => done (hf a st ha)

end Leads

/-! ## Instructions -/

/-- The frame at hand runs the given code, and no function stands under the name of the builtin. -/
structure Ready (p : Program) (m : Machine) (whole : List Instruction) : Prop where
  code : m.current.code p = .ok whole
  prints : ∀ k x, m.lookup Builtin.print.name ≠ .ok (.function k x)

namespace Ready

variable {p : Program} {m : Machine} {whole : List Instruction} {floor stack stack' : List Value}
  {ip : Nat} {out out' : Array String} {i : Instruction}

theorem step (hm : Ready p m whole) (hi : whole[ip]? = some i) :
    Machine.step p (m.moved ip stack out) = execute p i (m.moved (ip + 1) stack out) :=
  step_fetch hm.code hi

theorem succeeds {α : Type} {after : α → List Value → Prop} {a : α} (hm : Ready p m whole)
    (hi : whole[ip]? = some i)
    (he : execute p i (m.moved (ip + 1) stack out) = .ok none (m.moved (ip + 1) stack' out'))
    (ha : after a stack') : Leads p m floor 1 ip stack out (.ok a out') after :=
  ⟨stack', ha, runFor_one ((hm.step hi).trans he)⟩

theorem fails {α : Type} {after : α → List Value → Prop} {e : Fault} (hm : Ready p m whole)
    (hi : whole[ip]? = some i)
    (he : execute p i (m.moved (ip + 1) stack out) = .error e (m.moved (ip + 1) stack' out'))
    (hf : floor <:+ stack') : Leads p m floor 1 ip stack out (.error e out') after :=
  ⟨ip + 1, stack', hf, runFor_one ((hm.step hi).trans he)⟩

theorem lookup_moved (x : String) : (m.moved ip stack out).lookup x = m.lookup x := by
  unfold Machine.lookup global? moduleFrame moved
  cases m.callers.getLast? <;> rfl

theorem const (hm : Ready p m whole) {v : Value} (hi : whole[ip]? = some (.loadConst v)) :
    Leads p m stack 1 ip stack out ((pure v : Evaluation Value) out) fun v st => st = v :: stack :=
  hm.succeeds hi (execute_loadConst v) rfl

theorem load (hm : Ready p m whole) {x : String} (hi : whole[ip]? = some (.loadName x)) :
    Leads p m stack 1 ip stack out (lift (m.lookup x) out)
      fun v st => m.lookup x = .ok v ∧ st = v :: stack := by
  cases hx : m.lookup x with
  | ok v => exact hm.succeeds hi (execute_loadName ((lookup_moved x).trans hx)) ⟨rfl, rfl⟩
  | error e =>
    exact hm.fails hi (execute_loadName_error ((lookup_moved x).trans hx)) List.suffix_rfl

theorem binary (hm : Ready p m whole) {op : Operation} (l r : Value)
    (hi : whole[ip]? = some (.binary op)) :
    Leads p m stack 1 ip (r :: l :: stack) out (lift (op.apply l r) out)
      fun v st => st = v :: stack := by
  cases hv : op.apply l r with
  | ok v => exact hm.succeeds hi (execute_binary rfl hv) rfl
  | error e =>
    obtain ⟨stack', hs, he⟩ := execute_binary_error (p := p)
      (m := m.moved (ip + 1) (r :: l :: stack) out) rfl hv
    exact hm.fails hi he hs

theorem compare (hm : Ready p m whole) {c : Comparison} (l r : Value)
    (hi : whole[ip]? = some (.compare c)) :
    Leads p m stack 1 ip (r :: l :: stack) out
      ((do return .bool (← lift (c.apply l r)) : Evaluation Value) out)
        fun v st => st = v :: stack := by
  cases hv : c.apply l r with
  | ok b => exact hm.succeeds hi (execute_compare rfl hv) rfl
  | error e => exact hm.fails hi (execute_compare_error rfl hv) List.suffix_rfl

theorem join (hm : Ready p m whole) (stack : List Value) (out : Array String) (vs : List Value)
    (hi : whole[ip]? = some (.buildString vs.length)) :
    Leads p m stack 1 ip (vs.reverse ++ stack) out
      ((pure (.string (textOf vs)) : Evaluation Value) out) fun v st => st = v :: stack :=
  hm.succeeds hi (execute_buildString rfl) rfl

/-- Calling what stands under the name of the builtin prints, or fails. -/
theorem call (hm : Ready p m whole) {line : String} {callee : Value}
    (hc : m.lookup Builtin.print.name = .ok callee) (hi : whole[ip]? = some (.call 1)) :
    Leads p m stack 1 ip (.string line :: callee :: stack) out (Evaluation.call line callee out)
      fun v st => st = v :: stack := by
  have hstack : (m.moved (ip + 1) (.string line :: callee :: stack) out).stack =
      [Value.string line].reverse ++ callee :: stack := rfl
  cases callee with
  | builtin b =>
    cases b with
    | print => exact hm.succeeds hi (execute_call_print hstack) rfl
  | function k x => exact absurd hc (hm.prints k x)
  | null | int | float | bool | string | chunk =>
    exact hm.fails hi (execute_call_error hstack rfl) List.suffix_rfl

end Ready

/-! ## Trees -/

section
variable {p : Program} {m : Machine} {whole : List Instruction} {ρ : Label → Nat}

theorem leafCode_of_literal {t : Token} {v : Value} (h : literal? t = some v) :
    leafCode t = [.op (.loadConst v)] := by
  cases t with
  | integer l =>
    obtain ⟨n, hn, rfl⟩ := Option.map_eq_some_iff.1 h
    rw [leafCode, hn]
    rfl
  | float l =>
    obtain ⟨x, hx, rfl⟩ := Option.map_eq_some_iff.1 h
    rw [leafCode, hx]
    rfl
  | boolean l => cases h; rfl
  | keyword | operator | compound | bracket | punctuation | string | identifier => cases h

/-- The values of the parts of a string without holes. -/
theorem PartsMean.eval_texts {parts : List StringPart} {fs : List Formula}
    (h : PartsMean parts fs) (ht : parts.all isText = true) (look : String → Except Fault Value)
    (out : Array String) :
    evalAll look fs out = .ok (parts.map fun q => .string (partText q)) out := by
  induction parts generalizing fs with
  | nil =>
    cases h
    rfl
  | cons part parts ih =>
    rw [List.all_cons, Bool.and_eq_true] at ht
    cases h with
    | hole => cases ht.1
    | text s hs =>
      rw [evalAll]
      show EStateM.bind _ _ out = _
      rw [EStateM.bind, Formula.eval]
      show (evalAll look _ >>= fun vs => pure (Value.string s :: vs)) out = _
      show EStateM.bind _ _ out = _
      rw [EStateM.bind, ih hs ht.2]
      rfl

theorem text_map_string (ss : List String) : textOf (ss.map .string) = String.join ss := by
  rw [textOf, List.map_map]
  congr 1
  exact List.map_id ss

theorem textOf_cons (v : Value) (vs : List Value) : textOf (v :: vs) = v.text ++ textOf vs := by
  rw [textOf, List.map_cons, String.join_cons]
  rfl

/-- Values on the stack that make the same text as those of an evaluation. -/
def Kept (n : Nat) (stack vs st : List Value) : Prop :=
  ∃ kept : List Value, kept.length = n ∧ textOf kept = textOf vs ∧ st = kept.reverse ++ stack

theorem Kept.cons {n : Nat} {v : Value} {stack vs st : List Value}
    (h : Kept n (v :: stack) vs st) : Kept (n + 1) stack (v :: vs) st := by
  obtain ⟨kept, hl, ht, rfl⟩ := h
  refine ⟨v :: kept, by rw [List.length_cons, hl], ?_, by simp⟩
  rw [textOf_cons, textOf_cons, ht]

mutual

/-- **The code of a tree puts the value of its formula on the stack.** -/
theorem Means.leads (hm : Ready p m whole) : ∀ {t : Term} {f : Formula}, Means t f →
    ∀ {pos : Nat} (stack : List Value) (out : Array String), Located ρ whole pos t.code →
      Leads p m stack (size t.code) pos stack out (f.eval m.lookup out)
        fun v st => st = v :: stack
  | .leaf t, _, .literal h, pos, stack, out, hs => by
    rw [Term.code, leafCode_of_literal h] at hs ⊢
    rw [Formula.eval]
    exact hm.const (Located.op_iff.1 hs).1
  | .leaf _, _, .name l, pos, stack, out, hs => by
    rw [Term.code, leafCode] at hs ⊢
    rw [Formula.eval]
    exact (hm.load (Located.op_iff.1 hs).1).imp fun v st h => h.2
  | .leaf (.string s), _, .string h, pos, stack, out, hs => by
    rw [Term.code, leafCode, stringCode] at hs ⊢
    rw [Formula.eval]
    split at hs
    · next ht =>
      rw [if_pos ht]
      have htexts := h.eval_texts ht m.lookup out
      show Leads p m _ _ _ _ _ (EStateM.bind _ _ out) _
      rw [EStateM.bind, htexts]
      have htext : textOf (s.parts.map fun q => .string (partText q)) =
          String.join (s.parts.map partText) := by
        rw [← text_map_string, List.map_map]
        rfl
      show Leads p m _ _ _ _ _ ((pure (.string (textOf _)) : Evaluation Value) out) _
      rw [htext]
      exact hm.const (Located.op_iff.1 hs).1
    · next ht =>
      rw [if_neg ht]
      rw [joinCode, Located.append_iff] at hs
      rw [joinCode, size_append]
      refine (h.leads hm stack out hs.1).bind fun vs st out' hst => ?_
      obtain ⟨kept, hl, ht, rfl⟩ := hst
      rw [← hl] at hs
      rw [← ht]
      exact hm.join stack out' kept (Located.op_iff.1 hs.2).1
  | .call .print args, _, .print h, pos, stack, out, hs => by
    rw [Term.code, Callee.code, Term.codeAll_eq_map] at hs ⊢
    rw [List.cons_append, Located.op_iff, Located.append_iff, Located.op_iff, Located.op_iff] at hs
    obtain ⟨hload, hargs, hjoin, hcall, -⟩ := hs
    rw [Formula.eval]
    have hsize : size (Asm.op (.loadName Builtin.print.name) :: (args.map Term.code).flatten ++
        [.op (.buildString (args.map Term.code).length), .op (.call 1)]) =
        1 + (size (args.map Term.code).flatten + (1 + 1)) := by
      simp
      omega
    rw [hsize]
    refine ((hm.load hload).lower List.suffix_rfl).bind fun callee st out₁ hst => ?_
    obtain ⟨hc, rfl⟩ := hst
    refine ((h.leads hm _ out₁ hargs).lower (List.suffix_cons _ _)).bind fun vs st out₂ hst => ?_
    obtain ⟨hl, rfl⟩ := hst
    rw [List.length_map, ← hl] at hjoin
    obtain ⟨st, rfl, hrun⟩ := hm.join (callee :: stack) out₂ vs hjoin
    exact (hm.call hc hcall).run hrun
  | .group e, _, .group h, pos, stack, out, hs => by
    rw [Term.code] at hs ⊢
    exact h.leads hm stack out hs
  | .apply s l r, _, .binary ho hl hr, pos, stack, out, hs => by
    rw [Term.code, signCode, ho] at hs ⊢
    rw [Located.append_iff, Located.append_iff, Located.op_iff, size_append, ← Nat.add_assoc] at hs
    obtain ⟨⟨hls, hrs⟩, hi, -⟩ := hs
    rw [Formula.eval, size_append, size_append, Nat.add_assoc]
    refine (hl.leads hm stack out hls).bind fun a st out₁ hst => ?_
    subst hst
    refine ((hr.leads hm _ out₁ hrs).lower (List.suffix_cons _ _)).bind fun b st out₂ hst => ?_
    subst hst
    exact hm.binary a b hi
  | .apply s l r, _, .compare ho hl hr, pos, stack, out, hs => by
    rw [Term.code, signCode, ho] at hs ⊢
    rw [Located.append_iff, Located.append_iff, Located.op_iff, size_append, ← Nat.add_assoc] at hs
    obtain ⟨⟨hls, hrs⟩, hi, -⟩ := hs
    rw [Formula.eval, size_append, size_append, Nat.add_assoc]
    refine (hl.leads hm stack out hls).bind fun a st out₁ hst => ?_
    subst hst
    refine ((hr.leads hm _ out₁ hrs).lower (List.suffix_cons _ _)).bind fun b st out₂ hst => ?_
    subst hst
    exact hm.compare a b hi

/-- The code of arguments puts their values on the stack, the last one on top. -/
theorem AllMean.leads (hm : Ready p m whole) : ∀ {ts : List Term} {fs : List Formula},
    AllMean ts fs → ∀ {pos : Nat} (stack : List Value) (out : Array String),
      Located ρ whole pos (ts.map Term.code).flatten →
      Leads p m stack (size (ts.map Term.code).flatten) pos stack out (evalAll m.lookup fs out)
        fun vs st => vs.length = ts.length ∧ st = vs.reverse ++ stack
  | _, _, .nil, pos, stack, out, hs => by
    rw [evalAll]
    exact .done ⟨rfl, rfl⟩
  | t :: ts, _, .cons h hall, pos, stack, out, hs => by
    rw [List.map_cons, List.flatten_cons] at hs ⊢
    rw [Located.append_iff] at hs
    rw [evalAll, size_append]
    refine (h.leads hm stack out hs.1).bind fun v st out₁ hst => ?_
    subst hst
    refine ((hall.leads hm _ out₁ hs.2).lower (List.suffix_cons _ _)).map fun vs st hst => ?_
    obtain ⟨hl, rfl⟩ := hst
    simp [hl]

/-- The code of the parts of a string puts values on the stack that make the same text; there are
    none for empty texts. -/
theorem PartsMean.leads (hm : Ready p m whole) : ∀ {parts : List StringPart} {fs : List Formula},
    PartsMean parts fs → ∀ {pos : Nat} (stack : List Value) (out : Array String),
      Located ρ whole pos (parts.filterMap partCode?).flatten →
      Leads p m stack (size (parts.filterMap partCode?).flatten) pos stack out
        (evalAll m.lookup fs out) (Kept (parts.filterMap partCode?).length stack)
  | _, _, .nil, pos, stack, out, hs => by
    rw [evalAll]
    exact .done ⟨[], rfl, rfl, rfl⟩
  | .text s :: parts, _, .text _ hall, pos, stack, out, hs => by
    rw [List.filterMap_cons, partCode?] at hs ⊢
    rw [evalAll, Formula.eval]
    by_cases he : s.isEmpty = true
    · simp only [if_pos he] at hs ⊢
      rw [← Nat.zero_add (size _)]
      have hempty : Leads p m stack 0 pos stack out (.ok (Value.string s) out) fun v st =>
          v = Value.string s ∧ st = stack := .done ⟨rfl, rfl⟩
      refine Leads.bind hempty ?_
      rintro _ st out₁ ⟨rfl, rfl⟩
      refine (hall.leads hm st out₁ hs).map fun vs st' hst => ?_
      obtain ⟨kept, hl, ht, rfl⟩ := hst
      refine ⟨kept, hl, ?_, rfl⟩
      rw [ht, textOf_cons, String.isEmpty_iff.1 he]
      exact String.empty_append.symm
    · simp only [if_neg he, List.flatten_cons] at hs ⊢
      rw [Located.append_iff] at hs
      rw [size_append]
      refine (hm.const (Located.op_iff.1 hs.1).1).bind fun v st out₁ hst => ?_
      subst hst
      refine ((hall.leads hm _ out₁ hs.2).lower (List.suffix_cons _ _)).map fun vs st hst => ?_
      exact hst.cons
  | .hole code :: parts, _, .hole hc ht he h hall, pos, stack, out, hs => by
    rw [List.filterMap_cons, partCode?] at hs ⊢
    simp only [List.flatten_cons, ← code_of_tree hc ht he] at hs ⊢
    rw [Located.append_iff] at hs
    rw [evalAll, size_append]
    refine (h.leads hm stack out hs.1).bind fun v st out₁ hst => ?_
    subst hst
    refine ((hall.leads hm _ out₁ hs.2).lower (List.suffix_cons _ _)).map fun vs st hst => ?_
    exact hst.cons

end

end

/-! ## Assembly -/

theorem isPlain_of_literal {t : Token} {v : Value} (h : literal? t = some v) :
    v.isPlain = true := by
  cases t with
  | integer l | float l =>
    obtain ⟨_, -, rfl⟩ := Option.map_eq_some_iff.1 h
    rfl
  | boolean l => cases h; rfl
  | keyword | operator | compound | bracket | punctuation | string | identifier => cases h

mutual

theorem Means.expressionCode : ∀ {t : Term} {f : Formula}, Means t f → ExpressionCode t.code
  | .leaf _, _, .literal h => by
    rw [Term.code, leafCode_of_literal h]
    exact .const (isPlain_of_literal h)
  | .leaf _, _, .name l => by
    rw [Term.code, leafCode]
    exact .name l.text
  | .leaf _, _, .string h => by
    rw [Term.code, leafCode]
    exact stringCode_sound h.sound
  | .call .print args, _, .print h => by
    rw [Term.code, Term.codeAll_eq_map]
    exact (Operand.code_yields (o := .print (args.map Term.code)) h.expressionCode).of_ok
      (by simp [Operand.code, joinCode, Callee.code])
  | .group _, _, .group h => by
    rw [Term.code]
    exact h.expressionCode
  | .apply _ _ _, _, .binary ho hl hr => by
    rw [Term.code, signCode, ho]
    exact .binary _ hl.expressionCode hr.expressionCode
  | .apply _ _ _, _, .compare ho hl hr => by
    rw [Term.code, signCode, ho]
    exact .compare _ hl.expressionCode hr.expressionCode

theorem AllMean.expressionCode : ∀ {ts : List Term} {fs : List Formula}, AllMean ts fs →
    ∀ g ∈ ts.map Term.code, ExpressionCode g
  | _, _, .nil => by simp
  | _, _, .cons h hs => by
    rw [List.map_cons, List.forall_mem_cons]
    exact ⟨h.expressionCode, hs.expressionCode⟩

theorem PartsMean.sound : ∀ {parts : List StringPart} {fs : List Formula}, PartsMean parts fs →
    ∀ part ∈ parts, part.Sound
  | _, _, .nil => by simp
  | _, _, .text _ hs => List.forall_mem_cons.2 ⟨trivial, hs.sound⟩
  | _, _, .hole hc ht he h hs => by
    refine List.forall_mem_cons.2 ⟨?_, hs.sound⟩
    rw [← code_of_tree hc ht he]
    exact h.expressionCode

end

/-! ## Main statement -/

/-- **Expressions.**  The code of tokens that call no function can be assembled.  Wherever it lies
    in the code at hand, the machine evaluates the formula of the tokens: it gets right behind the
    code with the value on top of the stack, or stops with the first fault of the evaluation.  But
    for that and the lines that are printed, the machine stays as it was.  (Parts of a text are
    counted in 32 bits, so this is about fewer than `2 ^ 32` of them.) -/
theorem runFor_expression {r : Resolver} {line : UInt32} {ts : List Token} {code : List Asm}
    (hc : compile r line ts = .ok code) (hfree : CallFree ts) :
    ∃ resolved, assemble code = .ok resolved ∧ (∃ f, Denotes r ts f) ∧
      ∀ (f : Formula) (p : Program) (m : Machine) (whole : List Instruction), Denotes r ts f →
        m.current.code p = .ok whole → LiesAt whole m.current.ip resolved →
        (∀ k x, m.lookup Builtin.print.name ≠ .ok (.function k x)) →
        match f.eval m.lookup m.output with
        | .ok v out => runFor p resolved.length m =
            .ok none (m.moved (m.current.ip + resolved.length) (v :: m.stack) out)
        | .error e out => ∃ ip stack, m.stack <:+ stack ∧
            runFor p resolved.length m = .error e (m.moved ip stack out) := by
  obtain ⟨f₀, hf₀⟩ := hfree.exists_denotes hc
  have hexpr : ExpressionCode code := by
    obtain ⟨t, ht, he, hmeans⟩ := hf₀
    rw [← code_of_tree hc ht he]
    exact hmeans.expressionCode
  have hassemble : assemble code = .ok ((instrs code).map (Instr.relabel (place code))) :=
    assemble_eq_ok_iff.2
      ⟨by simp [hexpr.marks], by simp [hexpr.marks], by simp [hexpr.targets], rfl⟩
  refine ⟨_, hassemble, ⟨f₀, hf₀⟩, fun f p m whole hf hcode hlies hprint => ?_⟩
  obtain ⟨t, ht, he, hmeans⟩ := hf
  obtain rfl := code_of_tree hc ht he
  have hleads := hmeans.leads ⟨hcode, hprint⟩ m.stack m.output (.of_lies hlies hexpr.marks)
  rw [List.length_map]
  cases hr : f.eval m.lookup m.output with
  | ok v out =>
    rw [hr] at hleads
    obtain ⟨_, rfl, hrun⟩ := hleads
    exact hrun
  | error e out =>
    rw [hr] at hleads
    exact hleads

/-- The tokens of `b adalah salah`. -/
def sampleHole : List Token :=
  [.identifier ⟨"b", 2⟩, .keyword .equal, .boolean ⟨"salah", 2⟩]

def sampleHoleCode : List Asm :=
  [.loadName "b", .loadConst (.bool false), .compare .eq].map .op

/-- The tokens of `a || tampilkan("b? ...")`, with the code of a hole, and one that is passed
    over. -/
def sampleLine : List Token :=
  [.identifier ⟨"a", 2⟩, .operator (.binary .or), .punctuation .dollar, .keyword .print,
    .bracket .openRound, .string ⟨[.text "b? ", .hole sampleHoleCode, .text ""], 2⟩,
    .bracket .closeRound]

def sampleLineCode (τ : Type) : List (Instr τ) :=
  [.loadName "a", .loadName Builtin.print.name, .loadConst (.string "b? "), .loadName "b",
    .loadConst (.bool false), .compare .eq, .buildString 2, .buildString 1, .call 1, .binary .or]

def sampleFormula : Formula :=
  .binary .or (.name "a") (.print [.join [.const (.string "b? "),
    .compare .eq (.name "b") (.const (.bool false)), .const (.string "")]])

/-- The code of the line in the middle of a module, and a machine in front of it. -/
def sampleProgram : Program where
  code := .pop :: (sampleLineCode Nat ++ [.ret])
  chunks := []

def sampleMachine (locals : Env) : Machine where
  current := { chunk := none, ip := 1, locals }
  stack := [.int 3]
  output := #["x"]

theorem compile_sampleHole : compile sampleScope 2 sampleHole = .ok sampleHoleCode := by
  decide +kernel

theorem callFree_sampleHole : CallFree sampleHole := by
  refine .intro (fun l h => ?_) (by simp [sampleHole])
  simp [sampleHole, visible, isSilent, List.infix_cons_iff] at h

theorem callFree_sampleLine : CallFree sampleLine := by
  refine .intro (fun l h => ?_) ?_
  · simp [sampleLine, visible, isSilent, List.infix_cons_iff] at h
  · intro s hs code hcode
    obtain rfl : code = sampleHoleCode := by
      simp only [sampleLine, List.mem_cons, Token.string.injEq, reduceCtorEq, false_or, or_false,
        List.not_mem_nil] at hs
      simpa [hs] using hcode
    exact .intro compile_sampleHole callFree_sampleHole

theorem denotes_sampleLine : Denotes sampleScope sampleLine sampleFormula := by
  refine ⟨.apply (.operator (.binary .or)) (.leaf (.identifier ⟨"a", 2⟩)) (.call .print
    [.leaf (.string ⟨[.text "b? ", .hole sampleHoleCode, .text ""], 2⟩)]), ⟨?_, ?_⟩, ?_, ?_⟩
  · exact .apply (by decide) (.leaf rfl) (.call rfl trivial (by simpa using .leaf trivial))
  · exact .apply (.leaf _) (.call _ (by simpa using .leaf _)) trivial trivial
  · rfl
  · refine .binary rfl (.name _) (.print (.cons (.string (.text _ ?_)) .nil))
    refine .hole (t := .apply (.keyword .equal) (.leaf (.identifier ⟨"b", 2⟩))
      (.leaf (.boolean ⟨"salah", 2⟩))) compile_sampleHole ⟨?_, ?_⟩ rfl ?_ (.text _ .nil)
    · exact .apply (by decide) (.leaf rfl) (.leaf trivial)
    · exact .apply (.leaf _) (.leaf _) trivial trivial
    · exact .compare rfl (.name _) (.literal (by decide))

/-- Both operands are evaluated and the string is filled; without a meaning for `b` the run stops
    in the middle of the string. -/
theorem runFor_sampleLine :
    compile sampleScope 2 sampleLine = .ok ((sampleLineCode Label).map .op) ∧ CallFree sampleLine ∧
      runFor sampleProgram 10 (sampleMachine [("a", .int 7), ("b", .bool false)]) =
        .ok none ((sampleMachine [("a", .int 7), ("b", .bool false)]).moved 11 [.int 7, .int 3]
          #["x", "b? benar"]) ∧
      ∃ ip stack, [.int 3] <:+ stack ∧ runFor sampleProgram 10 (sampleMachine [("a", .int 7)]) =
        .error (.unboundName "b") ((sampleMachine [("a", .int 7)]).moved ip stack #["x"]) := by
  have hc : compile sampleScope 2 sampleLine = .ok ((sampleLineCode Label).map .op) := by
    decide +kernel
  obtain ⟨resolved, hr, -, hrun⟩ := runFor_expression hc callFree_sampleLine
  obtain rfl : sampleLineCode Nat = resolved := Except.ok.inj (Eq.trans (by rfl) hr)
  have hlies : LiesAt sampleProgram.code 1 (sampleLineCode Nat) := ⟨[.ret], rfl⟩
  have hprint : ∀ m : Machine, m.lookup Builtin.print.name = .ok (.builtin .print) →
      ∀ k x, m.lookup Builtin.print.name ≠ .ok (.function k x) := by
    intro m hm k x h
    rw [hm] at h
    cases h
  refine ⟨hc, callFree_sampleLine, ?_, ?_⟩
  · exact hrun sampleFormula sampleProgram (sampleMachine [("a", .int 7), ("b", .bool false)]) _
      denotes_sampleLine rfl hlies (hprint _ rfl)
  · exact hrun sampleFormula sampleProgram (sampleMachine [("a", .int 7)]) _ denotes_sampleLine rfl
      hlies (hprint _ rfl)

/-- The tokens of `tampilkan(1)`. -/
def printOne : List Token :=
  [.keyword .print, .bracket .openRound, .integer ⟨"1", 1⟩, .bracket .closeRound]

def printOneCode (τ : Type) : List (Instr τ) :=
  [.loadName Builtin.print.name, .loadConst (.int 1), .buildString 1, .call 1]

/-- The code of the line in a module that has given the name of the builtin to a function. -/
def reboundProgram : Program where
  code := [.loadConst (.chunk 0), .makeFunction Builtin.print.name,
    .storeName Builtin.print.name] ++ (printOneCode Nat ++ [.ret])
  chunks := [⟨"f", [⟨"x", .any⟩], [.loadConst (.int 7), .ret], 1⟩]

theorem callFree_printOne : CallFree printOne := by
  refine .intro (fun l h => ?_) (by simp [printOne])
  simp [printOne, visible, isSilent, List.infix_cons_iff] at h

theorem denotes_printOne : Denotes sampleScope printOne (.print [.const (.int 1)]) := by
  refine ⟨.call .print [.leaf (.integer ⟨"1", 1⟩)], ⟨?_, ?_⟩, rfl, ?_⟩
  · have hone : (int64OfString? "1").isSome = true := rfl
    exact .call rfl trivial (List.forall_mem_singleton.2 (.leaf hone))
  · exact .call _ (by simpa using .leaf _)
  · exact .print (.cons (.literal (by decide)) .nil)

/-- **A name can be taken from the builtin**: a function is called instead, nothing is printed, and
    the value is that of the function. -/
theorem runFor_rebound :
    compile sampleScope 1 printOne = .ok ((printOneCode Label).map .op) ∧ CallFree printOne ∧
      Denotes sampleScope printOne (.print [.const (.int 1)]) ∧ ∃ m m' m'',
        runFor reboundProgram 3 start = .ok none m ∧
          LiesAt reboundProgram.code m.current.ip (printOneCode Nat) ∧
          runFor reboundProgram 4 m = .ok none m' ∧ m'.frames.length = m.frames.length + 1 ∧
          runFor reboundProgram 10 start = .ok (some (.int 7)) m'' ∧ m''.output = #[] := by
  have hc : compile sampleScope 1 printOne = .ok ((printOneCode Label).map .op) := by
    decide +kernel
  exact ⟨hc, callFree_printOne, denotes_printOne, _, _, _, rfl, ⟨[.ret], rfl⟩, rfl, rfl, rfl, rfl⟩

end Expression

end Naskah
