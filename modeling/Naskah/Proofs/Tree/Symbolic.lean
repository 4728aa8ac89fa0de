/-
  The symbolic code of statements, and what it is assembled to.  Labels are handed out in the order
  in which the statements are read: a loop takes two before its body, a chain of conditions one for
  its end and one for each guard, from the last to the first, after all its bodies.

  The code of a statement marks each of its labels once (`Stmt.wired`), and with its labels placed
  it is the code with offsets (`Stmt.resolve`).  So the code of a function and of a module can be
  assembled, and to what is known (`assemble_body`).
-/
import Naskah.Proofs.Assembly
import Naskah.Proofs.Tree.Reading

namespace Naskah.Tree

/-! ## Symbolic code -/

mutual

/-- The number of labels handed out while a statement is read. -/
def Stmt.labels : Stmt → Nat
  | .function _ _ body => labelsOf body
  | .loop _ body => 2 + labelsOf body
  | .cond _ body rest => labelsOf body + rest.labels + (1 + rest.guards) + 1
  | .simple _ | .stop | .skip => 0

/-- The number of labels handed out in the bodies of clauses. -/
def Rest.labels : Rest → Nat
  | .done => 0
  | .last body => labelsOf body
  | .further _ body rest => labelsOf body + rest.labels

/-- The number of clauses with a guard. -/
def Rest.guards : Rest → Nat
  | .done | .last _ => 0
  | .further _ _ rest => rest.guards + 1

def labelsOf : List Stmt → Nat
  | [] => 0
  | st :: body => st.labels + labelsOf body

end

/-- The symbolic code of a clause with a guard, in front of the clauses after it. -/
def clauseAsm (guard body : List Asm) (next exit : Label) (rest : List Asm) : List Asm :=
  guard ++ [.op (.jumpIfFalse next)] ++ body ++ [.op (.jump exit), .mark next] ++ rest

mutual

/-- The symbolic code of a statement after `k` chunks and `n` labels. -/
def Stmt.asm (k n : Nat) (exits : Exits Label) : Stmt → List Asm
  | .function f _ body => (bindFunction (k + countOf body) f).map .op
  | .simple s => s.code.map .op
  | .loop guard body =>
    [.mark ⟨n⟩] ++ guard.asm ++ [.op (.jumpIfFalse ⟨n + 1⟩)] ++
      asmOf k (n + 2) ⟨⟨n⟩, ⟨n + 1⟩⟩ body ++ [.op (.jump ⟨n⟩), .mark ⟨n + 1⟩]
  | .stop => [.op (.jump exits.leave)]
  | .skip => [.op (.jump exits.again)]
  | .cond guard body rest =>
    let exit := n + labelsOf body + rest.labels
    clauseAsm guard.asm (asmOf k n exits body) ⟨exit + rest.guards + 1⟩ ⟨exit⟩
      (rest.asm (k + countOf body) (n + labelsOf body) exits exit) ++ [.mark ⟨exit⟩]

/-- The symbolic code of the clauses after the first, where `exit` is the label behind them. -/
def Rest.asm (k n : Nat) (exits : Exits Label) (exit : Nat) : Rest → List Asm
  | .done => []
  | .last body => asmOf k n exits body
  | .further guard body rest =>
    clauseAsm guard.asm (asmOf k n exits body) ⟨exit + rest.guards + 1⟩ ⟨exit⟩
      (rest.asm (k + countOf body) (n + labelsOf body) exits exit)

def asmOf (k n : Nat) (exits : Exits Label) : List Stmt → List Asm
  | [] => []
  | st :: body => st.asm k n exits ++ asmOf (k + st.count) (n + st.labels) exits body

end

/-! ## Code without jumps -/

section
variable {τ σ : Type} (f : τ → σ)

theorem relabel_textCode (s : String) : (textCode s).map (Instr.relabel f) = textCode s := by
  unfold textCode
  split <;> rfl

theorem Sign.relabel_instr (o : Sign) : (o.instr : Instr τ).relabel f = o.instr := by
  cases o <;> rfl

mutual

/-- The code of an expression says nothing about labels. -/
theorem Expr.relabel_code : ∀ e : Expr, e.code.map (Instr.relabel f) = e.code
  | .int _ | .float _ | .bool _ | .string _ (.last _) | .name _ => by
    rw [Expr.code, Expr.code]
    rfl
  | .string _ (.hole s e rest) => by
    rw [Expr.code, Expr.code]
    simp [relabel_textCode, e.relabel_code, rest.relabel_code, Instr.relabel]
  | .call g args => by
    rw [Expr.code, Expr.code]
    simp [relabel_codeAll args, Instr.relabel]
  | .print args => by
    rw [Expr.code, Expr.code]
    simp [relabel_codeAll args, Instr.relabel]
  | .apply o l r => by
    rw [Expr.code, Expr.code]
    simp [l.relabel_code, r.relabel_code, o.relabel_instr]

theorem Template.relabel_code : ∀ t : Template, t.code.map (Instr.relabel f) = t.code
  | .last s => by rw [Template.code, Template.code, relabel_textCode]
  | .hole s e rest => by
    rw [Template.code, Template.code]
    simp [relabel_textCode, e.relabel_code, rest.relabel_code]

theorem relabel_codeAll : ∀ es : List Expr, (codeAll es).map (Instr.relabel f) = codeAll es
  | [] => rfl
  | e :: es => by
    rw [codeAll, codeAll, List.map_append, e.relabel_code, relabel_codeAll es]

end

theorem relabel_valueCode (value : Option Expr) :
    (valueCode value).map (Instr.relabel f) = valueCode value := by
  cases value with
  | none => rfl
  | some e => exact e.relabel_code f

theorem Simple.relabel_code (s : Simple) : s.code.map (Instr.relabel f) = s.code := by
  cases s <;> simp [Simple.code, relabel_valueCode, Expr.relabel_code, Instr.relabel]

end

theorem Expr.length_code (e : Expr) : (e.code (τ := Label)).length = e.size := by
  rw [Expr.size, ← e.relabel_code Label.index, List.length_map]

/-- Code that says nothing about labels jumps nowhere. -/
theorem targets_eq_nil {code : List (Instr Label)} {code₀ : List (Instr Empty)}
    (h : code₀.map (Instr.relabel Empty.elim) = code) : Asm.targets (code.map .op) = [] := by
  subst h
  induction code₀ with
  | nil => rfl
  | cons i code₀ ih =>
    have hi : (i.relabel Empty.elim : Instr Label).target? = none := by
      rw [Instr.target?_relabel]
      cases i.target? with
      | none => rfl
      | some t => exact t.elim
    rw [List.map_cons, List.map_cons, Asm.targets_op, hi, ih]
    rfl

theorem marks_map_op (code : List (Instr Label)) : Asm.marks (code.map .op) = [] := by
  induction code with
  | nil => rfl
  | cons i code ih => exact ih

theorem instrs_map_op (code : List (Instr Label)) : Asm.instrs (code.map .op) = code := by
  induction code with
  | nil => rfl
  | cons i code ih => rw [List.map_cons, Asm.instrs_op, ih]

theorem Expr.marks_asm (e : Expr) : Asm.marks e.asm = [] :=
  marks_map_op _

theorem Expr.targets_asm (e : Expr) : Asm.targets e.asm = [] :=
  targets_eq_nil (e.relabel_code Empty.elim)

theorem Expr.instrs_asm (e : Expr) : Asm.instrs e.asm = e.code :=
  instrs_map_op _

/-! ## Labels -/

/-- Symbolic code whose labels have the numbers `own`, each marked once and jumped to, and that
    jumps to its own labels and to those around it only. -/
structure Wired (own : Nat → Prop) (outer : List Label) (a : List Asm) : Prop where
  own : ∀ l ∈ Asm.marks a, own l.index
  nodup : (Asm.marks a).Nodup
  used : ∀ l ∈ Asm.marks a, l ∈ Asm.targets a
  placed : ∀ l ∈ Asm.targets a, l ∈ Asm.marks a ∨ l ∈ outer

namespace Wired

variable {own own₁ own₂ : Nat → Prop} {outer : List Label} {a b : List Asm}

theorem straight (hm : Asm.marks a = []) (ht : Asm.targets a = []) : Wired own outer a :=
  ⟨by simp [hm], by simp [hm], by simp [hm], by simp [ht]⟩

theorem mono {outer' : List Label} (h : Wired own₁ outer a) (ho : ∀ i, own₁ i → own i)
    (hs : ∀ l ∈ outer, l ∈ outer') : Wired own outer' a where
  own l hl := ho _ (h.own l hl)
  nodup := h.nodup
  used := h.used
  placed l hl := (h.placed l hl).imp_right (hs l)

theorem jump {l : Label} (hl : l ∈ outer) : Wired own outer [.op (.jump l)] where
  own := by simp
  nodup := by simp
  used := by simp
  placed l' hl' := by
    obtain rfl : l' = l := by simpa [Instr.target?, eq_comm] using hl'
    exact .inr hl

theorem branch {l : Label} (hl : l ∈ outer) : Wired own outer [.op (.jumpIfFalse l)] where
  own := by simp
  nodup := by simp
  used := by simp
  placed l' hl' := by
    obtain rfl : l' = l := by simpa [Instr.target?, eq_comm] using hl'
    exact .inr hl

theorem append (ha : Wired own₁ outer a) (hb : Wired own₂ outer b)
    (hd : ∀ i, own₁ i → ¬ own₂ i) : Wired (fun i => own₁ i ∨ own₂ i) outer (a ++ b) where
  own l hl := by
    rw [Asm.marks_append, List.mem_append] at hl
    exact hl.imp (ha.own l) (hb.own l)
  nodup := by
    rw [Asm.marks_append, List.nodup_append]
    refine ⟨ha.nodup, hb.nodup, fun x hx y hy he => ?_⟩
    subst he
    exact hd _ (ha.own x hx) (hb.own x hy)
  used l hl := by
    rw [Asm.marks_append, List.mem_append] at hl
    rw [Asm.targets_append, List.mem_append]
    exact hl.imp (ha.used l) (hb.used l)
  placed l hl := by
    rw [Asm.targets_append, List.mem_append] at hl
    rw [Asm.marks_append, List.mem_append]
    rcases hl with hl | hl
    · exact (ha.placed l hl).imp_left .inl
    · exact (hb.placed l hl).imp_left .inr

/-- A clause is wired with a new label behind its body. -/
theorem clause {guard body rest : List Asm} {next exit : Label} (hm : Asm.marks guard = [])
    (ht : Asm.targets guard = []) (hb : Wired own₁ (exit :: outer) body)
    (hr : Wired own₂ (exit :: outer) rest) (hd : ∀ i, own₁ i → ¬ own₂ i)
    (h₁ : ¬ own₁ next.index) (h₂ : ¬ own₂ next.index) :
    Wired (fun i => own₁ i ∨ own₂ i ∨ i = next.index) (exit :: outer)
      (clauseAsm guard body next exit rest) := by
  have hmarks : Asm.marks (clauseAsm guard body next exit rest) =
      Asm.marks body ++ next :: Asm.marks rest := by simp [clauseAsm, hm]
  have htargets : Asm.targets (clauseAsm guard body next exit rest) =
      next :: Asm.targets body ++ exit :: Asm.targets rest := by simp [clauseAsm, ht, Instr.target?]
  constructor
  · intro l hl
    rw [hmarks, List.mem_append, List.mem_cons] at hl
    rcases hl with hl | rfl | hl
    · exact .inl (hb.own l hl)
    · exact .inr (.inr rfl)
    · exact .inr (.inl (hr.own l hl))
  · rw [hmarks, List.nodup_append, List.nodup_cons]
    refine ⟨hb.nodup, ⟨fun hn => h₂ (hr.own _ hn), hr.nodup⟩, fun x hx y hy he => ?_⟩
    subst he
    rcases List.mem_cons.1 hy with rfl | hy
    · exact h₁ (hb.own _ hx)
    · exact hd _ (hb.own x hx) (hr.own x hy)
  · intro l hl
    rw [hmarks, List.mem_append, List.mem_cons] at hl
    rw [htargets]
    rcases hl with hl | rfl | hl
    · simp [hb.used l hl]
    · simp
    · simp [hr.used l hl]
  · intro l hl
    rw [htargets, List.cons_append, List.mem_cons, List.mem_append, List.mem_cons] at hl
    rw [hmarks, List.mem_append, List.mem_cons]
    rcases hl with rfl | hl | rfl | hl
    · exact .inl (.inr (.inl rfl))
    · exact (hb.placed l hl).imp_left .inl
    · exact .inr (List.mem_cons_self ..)
    · exact (hr.placed l hl).imp_left fun h => .inr (.inr h)

/-- A chain is wired with a new label behind it. -/
theorem chain {exit : Label} (h : Wired own (exit :: outer) a) (hx : exit ∈ Asm.targets a)
    (hn : ¬ own exit.index) :
    Wired (fun i => own i ∨ i = exit.index) outer (a ++ [.mark exit]) where
  own l hl := by
    rw [Asm.marks_append, List.mem_append] at hl
    rcases hl with hl | hl
    · exact .inl (h.own l hl)
    · exact .inr (by rw [List.mem_singleton.1 hl])
  nodup := by
    rw [Asm.marks_append, List.nodup_append]
    refine ⟨h.nodup, by simp, fun x hx y hy he => ?_⟩
    subst he
    rw [List.mem_singleton.1 hy] at hx
    exact hn (h.own _ hx)
  used l hl := by
    rw [Asm.marks_append, List.mem_append] at hl
    rw [Asm.targets_append, List.mem_append]
    rcases hl with hl | hl
    · exact .inl (h.used l hl)
    · exact .inl (by rw [List.mem_singleton.1 hl]; exact hx)
  placed l hl := by
    rw [Asm.targets_append, List.mem_append] at hl
    rw [Asm.marks_append, List.mem_append]
    rcases hl with hl | hl
    · rcases h.placed l hl with hl | hl
      · exact .inl (.inl hl)
      · rcases List.mem_cons.1 hl with rfl | hl
        · exact .inl (.inr (List.mem_singleton.2 rfl))
        · exact .inr hl
    · cases hl

/-- A loop is wired with new labels before and behind it. -/
theorem loop {guard body : List Asm} {start stop : Label} (hm : Asm.marks guard = [])
    (ht : Asm.targets guard = []) (hb : Wired own [start, stop] body) (hne : start ≠ stop)
    (h₁ : ¬ own start.index) (h₂ : ¬ own stop.index) :
    Wired (fun i => i = start.index ∨ i = stop.index ∨ own i) outer
      ([.mark start] ++ guard ++ [.op (.jumpIfFalse stop)] ++ body ++
        [.op (.jump start), .mark stop]) := by
  generalize hl : [.mark start] ++ guard ++ [.op (.jumpIfFalse stop)] ++ body ++
    [.op (.jump start), .mark stop] = code
  have hmarks : Asm.marks code = start :: (Asm.marks body ++ [stop]) := by simp [← hl, hm]
  have htargets : Asm.targets code = stop :: (Asm.targets body ++ [start]) := by
    simp [← hl, ht, Instr.target?]
  have hbody : ∀ {l}, l ∈ Asm.marks body → l ≠ start ∧ l ≠ stop := by
    intro l hl
    exact ⟨fun he => h₁ (he ▸ hb.own l hl), fun he => h₂ (he ▸ hb.own l hl)⟩
  constructor
  · intro l hl
    rw [hmarks, List.mem_cons, List.mem_append, List.mem_singleton] at hl
    rcases hl with rfl | hl | rfl
    · exact .inl rfl
    · exact .inr (.inr (hb.own l hl))
    · exact .inr (.inl rfl)
  · rw [hmarks, List.nodup_cons, List.nodup_append]
    refine ⟨fun hs => ?_, hb.nodup, by simp, fun x hx y hy he => ?_⟩
    · rcases List.mem_append.1 hs with hs | hs
      · exact (hbody hs).1 rfl
      · exact hne (List.mem_singleton.1 hs)
    · exact (hbody hx).2 (he.trans (List.mem_singleton.1 hy))
  · intro l hl
    rw [hmarks, List.mem_cons, List.mem_append, List.mem_singleton] at hl
    rw [htargets]
    rcases hl with rfl | hl | rfl
    · simp
    · simp [hb.used l hl]
    · simp
  · intro l hl
    rw [htargets, List.mem_cons, List.mem_append, List.mem_singleton] at hl
    rw [hmarks]
    rcases hl with rfl | hl | rfl
    · simp
    · rcases hb.placed l hl with hl | hl
      · simp [hl]
      · left
        simp only [List.mem_cons, List.not_mem_nil, or_false] at hl
        rcases hl with rfl | rfl <;> simp
    · simp

end Wired

/-- The labels from `n` on, `count` of them. -/
def labelRange (n count i : Nat) : Prop :=
  n ≤ i ∧ i < n + count

theorem exit_mem_clauseAsm (guard body : List Asm) (next exit : Label) (rest : List Asm) :
    exit ∈ Asm.targets (clauseAsm guard body next exit rest) := by
  simp [clauseAsm, Instr.target?]

mutual

/-- The code of a statement is wired with the labels handed out for it. -/
theorem Stmt.wired {ctx : Context} {inFunction inLoop : Bool} {exits : Exits Label}
    {outer : List Label} (ho : inLoop = true → exits.again ∈ outer ∧ exits.leave ∈ outer) :
    ∀ {st : Stmt}, st.fits ctx inFunction inLoop = true → ∀ k n,
      Wired (labelRange n st.labels) outer (st.asm k n exits)
  | .function f params body, _, k, n => by
    rw [Stmt.asm]
    exact .straight (marks_map_op _) rfl
  | .simple s, _, k, n => by
    rw [Stmt.asm]
    exact .straight (marks_map_op _) (targets_eq_nil (s.relabel_code Empty.elim))
  | .loop guard body, h, k, n => by
    rw [Stmt.fits, Bool.and_eq_true] at h
    have hb : Wired (labelRange (n + 2) (labelsOf body)) [⟨n⟩, ⟨n + 1⟩]
        (asmOf k (n + 2) ⟨⟨n⟩, ⟨n + 1⟩⟩ body) := wired_body (fun _ => by simp) h.2 k (n + 2)
    rw [Stmt.asm, Stmt.labels]
    refine (Wired.loop guard.marks_asm guard.targets_asm hb (by simp) ?_ ?_).mono ?_ fun _ h => h
    all_goals simp only [labelRange]
    all_goals omega
  | .stop, h, k, n => by
    rw [Stmt.fits] at h
    rw [Stmt.asm]
    exact .jump (ho h).2
  | .skip, h, k, n => by
    rw [Stmt.fits] at h
    rw [Stmt.asm]
    exact .jump (ho h).1
  | .cond guard body rest, h, k, n => by
    simp only [Stmt.fits, Bool.and_eq_true] at h
    have hb := wired_body ho h.1.2 k n
    have hr := Rest.wired ho h.2 (k + countOf body) (n + labelsOf body)
      (n + labelsOf body + rest.labels) (Nat.le_refl _)
    rw [Stmt.asm, Stmt.labels]
    refine (Wired.chain (Wired.clause guard.marks_asm guard.targets_asm
      (hb.mono (fun _ h => h) fun _ => List.mem_cons_of_mem _) hr ?_ ?_ ?_)
        (exit_mem_clauseAsm ..) ?_).mono ?_ fun _ h => h
    all_goals simp only [labelRange]
    all_goals omega

theorem Rest.wired {ctx : Context} {inFunction inLoop : Bool} {exits : Exits Label}
    {outer : List Label} (ho : inLoop = true → exits.again ∈ outer ∧ exits.leave ∈ outer) :
    ∀ {rest : Rest}, rest.fits ctx inFunction inLoop = true → ∀ k n exit, n + rest.labels ≤ exit →
      Wired (fun i => labelRange n rest.labels i ∨ labelRange (exit + 1) rest.guards i)
        (⟨exit⟩ :: outer) (rest.asm k n exits exit)
  | .done, _, k, n, exit, _ => by
    rw [Rest.asm]
    exact .straight rfl rfl
  | .last body, h, k, n, exit, _ => by
    rw [Rest.fits] at h
    rw [Rest.asm, Rest.labels]
    exact (wired_body ho h k n).mono (fun _ => .inl) fun _ => List.mem_cons_of_mem _
  | .further guard body rest, h, k, n, exit, hx => by
    simp only [Rest.fits, Bool.and_eq_true] at h
    rw [Rest.labels] at hx
    have hb := wired_body ho h.1.2 k n
    have hr := Rest.wired ho h.2 (k + countOf body) (n + labelsOf body) exit (by omega)
    rw [Rest.asm, Rest.labels, Rest.guards]
    refine (Wired.clause guard.marks_asm guard.targets_asm
      (hb.mono (fun _ h => h) fun _ => List.mem_cons_of_mem _) hr ?_ ?_ ?_).mono ?_ fun _ h => h
    all_goals simp only [labelRange]
    all_goals omega

theorem wired_body {ctx : Context} {inFunction inLoop : Bool} {exits : Exits Label}
    {outer : List Label} (ho : inLoop = true → exits.again ∈ outer ∧ exits.leave ∈ outer) :
    ∀ {body : List Stmt}, bodyFits ctx inFunction inLoop body = true → ∀ k n,
      Wired (labelRange n (labelsOf body)) outer (asmOf k n exits body)
  | [], _, k, n => by
    rw [asmOf]
    exact .straight rfl rfl
  | st :: body, h, k, n => by
    rw [bodyFits, Bool.and_eq_true] at h
    rw [asmOf, labelsOf]
    refine ((Stmt.wired ho h.1 k n).append (wired_body ho h.2 (k + st.count) (n + st.labels))
      ?_).mono ?_ fun _ h => h
    all_goals simp only [labelRange]
    all_goals omega

end

/-! ## Offsets -/

/-- The labels of code that stands at an offset are placed where their marks are. -/
def Placed (ρ : Label → Nat) (pos : Nat) (a : List Asm) : Prop :=
  ∀ p ∈ Asm.offsetsFrom pos a, ρ p.1 = p.2

section
variable {ρ : Label → Nat} {pos : Nat}

theorem placed_append {a b : List Asm} :
    Placed ρ pos (a ++ b) ↔ Placed ρ pos a ∧ Placed ρ (pos + (Asm.instrs a).length) b := by
  simp only [Placed, Asm.offsetsFrom_append, List.mem_append, or_imp, forall_and]

theorem placed_op {i : Instr Label} {a : List Asm} :
    Placed ρ pos (.op i :: a) ↔ Placed ρ (pos + 1) a := Iff.rfl

theorem placed_mark {l : Label} {a : List Asm} :
    Placed ρ pos (.mark l :: a) ↔ ρ l = pos ∧ Placed ρ pos a := by
  simp [Placed, Asm.offsetsFrom]

end

mutual

theorem Stmt.length_asm (k n : Nat) (exits : Exits Label) : ∀ st : Stmt,
    (Asm.instrs (st.asm k n exits)).length = st.size
  | .function f params body => by
    rw [Stmt.asm, instrs_map_op]
    rfl
  | .simple s => by
    rw [Stmt.asm, instrs_map_op, Stmt.size, ← s.relabel_code Label.index, List.length_map]
  | .loop guard body => by
    rw [Stmt.asm, Stmt.size]
    simp only [Asm.instrs_append, List.length_append, guard.instrs_asm, guard.length_code,
      length_asmOf k (n + 2) ⟨⟨n⟩, ⟨n + 1⟩⟩ body]
    simp
  | .stop | .skip => by
    rw [Stmt.asm]
    rfl
  | .cond guard body rest => by
    rw [Stmt.asm, Stmt.size, clauseAsm]
    simp only [Asm.instrs_append, List.length_append, guard.instrs_asm, guard.length_code,
      length_asmOf k n exits body, Rest.length_asm]
    simp

theorem Rest.length_asm (k n : Nat) (exits : Exits Label) (exit : Nat) : ∀ rest : Rest,
    (Asm.instrs (rest.asm k n exits exit)).length = rest.size
  | .done => by
    rw [Rest.asm]
    rfl
  | .last body => by
    rw [Rest.asm, Rest.size, length_asmOf k n exits body]
  | .further guard body rest => by
    rw [Rest.asm, Rest.size, clauseAsm]
    simp only [Asm.instrs_append, List.length_append, guard.instrs_asm, guard.length_code,
      length_asmOf k n exits body, Rest.length_asm]
    simp

theorem length_asmOf (k n : Nat) (exits : Exits Label) : ∀ body : List Stmt,
    (Asm.instrs (asmOf k n exits body)).length = lengthOf body
  | [] => by
    rw [asmOf]
    rfl
  | st :: body => by
    rw [asmOf, lengthOf, Asm.instrs_append, List.length_append, Stmt.length_asm, length_asmOf]

end

/-- A clause whose labels are placed. -/
theorem clause_resolve {ρ : Label → Nat} {pos : Nat} {guard : Expr} {body rest : List Asm}
    {next exit : Label} (hp : Placed ρ pos (clauseAsm guard.asm body next exit rest)) :
    let inner := pos + guard.size + 1
    let after := inner + (Asm.instrs body).length + 1
    Placed ρ inner body ∧ Placed ρ after rest ∧
      (Asm.instrs (clauseAsm guard.asm body next exit rest)).map (Instr.relabel ρ) =
        guard.code ++ [.jumpIfFalse after] ++ (Asm.instrs body).map (Instr.relabel ρ) ++
          [.jump (ρ exit)] ++ (Asm.instrs rest).map (Instr.relabel ρ) := by
  simp only [clauseAsm, placed_append, placed_op, placed_mark, Asm.instrs_append, Asm.instrs_op,
    Asm.instrs_mark, Asm.instrs_nil, List.length_append, List.length_cons, List.length_nil,
    guard.instrs_asm, guard.length_code] at hp ⊢
  obtain ⟨⟨⟨-, hb⟩, hn, -⟩, hr⟩ := hp
  refine ⟨?_, ?_, ?_⟩
  · simpa [Nat.add_assoc] using hb
  · simpa [Nat.add_assoc] using hr
  · have hn : ρ next = pos + guard.size + 1 + (Asm.instrs body).length + 1 := by omega
    simp [guard.relabel_code, Instr.relabel, hn]

mutual

/-- **With its labels placed, symbolic code is the code with offsets.** -/
theorem Stmt.resolve {ctx : Context} {inFunction inLoop : Bool} {exits : Exits Label}
    {ρ : Label → Nat} {offsets : Exits Nat}
    (he : inLoop = true → offsets = ⟨ρ exits.again, ρ exits.leave⟩) :
    ∀ {st : Stmt}, st.fits ctx inFunction inLoop = true → ∀ {k n pos : Nat},
      Placed ρ pos (st.asm k n exits) →
        (Asm.instrs (st.asm k n exits)).map (Instr.relabel ρ) = st.code k pos offsets
  | .function f params body, _, k, n, pos, _ => by
    rw [Stmt.asm, Stmt.code, instrs_map_op]
    rfl
  | .simple s, _, k, n, pos, _ => by
    rw [Stmt.asm, Stmt.code, instrs_map_op, s.relabel_code]
  | .loop guard body, h, k, n, pos, hp => by
    rw [Stmt.fits, Bool.and_eq_true] at h
    rw [Stmt.asm] at hp ⊢
    simp only [placed_append, placed_op, placed_mark, Asm.instrs_append, Asm.instrs_op,
      Asm.instrs_mark, Asm.instrs_nil, List.length_append, List.length_cons, List.length_nil,
      guard.instrs_asm, guard.length_code, length_asmOf] at hp ⊢
    obtain ⟨⟨⟨⟨⟨hs, -⟩, -⟩, -⟩, hb⟩, hn, -⟩ := hp
    rw [show pos + (0 + guard.size + (0 + 1)) = pos + guard.size + 1 by omega] at hb
    have hn : ρ ⟨n + 1⟩ = pos + guard.size + 1 + lengthOf body + 1 := by omega
    have hbody : _ = codeOf k (pos + guard.size + 1)
        ⟨pos, pos + guard.size + 1 + lengthOf body + 1⟩ body :=
      resolve_body (fun _ => by rw [hs, hn]) h.2 hb
    rw [Stmt.code]
    simp [guard.relabel_code, Instr.relabel, hs, hn, hbody]
  | .stop, h, k, n, pos, _ => by
    rw [Stmt.fits] at h
    rw [Stmt.asm, Stmt.code, he h]
    rfl
  | .skip, h, k, n, pos, _ => by
    rw [Stmt.fits] at h
    rw [Stmt.asm, Stmt.code, he h]
    rfl
  | .cond guard body rest, h, k, n, pos, hp => by
    simp only [Stmt.fits, Bool.and_eq_true] at h
    rw [Stmt.asm, placed_append, placed_mark] at hp
    obtain ⟨hclause, hx, -⟩ := hp
    obtain ⟨hb, hr, hc⟩ := clause_resolve hclause
    simp only [clauseAsm, Asm.instrs_append, List.length_append, guard.instrs_asm,
      guard.length_code, length_asmOf, Rest.length_asm] at hx
    rw [length_asmOf] at hr hc
    have hx : ρ ⟨n + labelsOf body + rest.labels⟩ =
        pos + guard.size + 1 + lengthOf body + 1 + rest.size := by
      rw [hx]
      simp
      omega
    rw [Stmt.asm, Stmt.code, Asm.instrs_append, List.map_append, hc, hx, resolve_body he h.1.2 hb,
      Rest.resolve he h.2 hr hx]
    simp

theorem Rest.resolve {ctx : Context} {inFunction inLoop : Bool} {exits : Exits Label}
    {ρ : Label → Nat} {offsets : Exits Nat}
    (he : inLoop = true → offsets = ⟨ρ exits.again, ρ exits.leave⟩) :
    ∀ {rest : Rest}, rest.fits ctx inFunction inLoop = true → ∀ {k n exit pos : Nat},
      Placed ρ pos (rest.asm k n exits exit) → ρ ⟨exit⟩ = pos + rest.size →
        (Asm.instrs (rest.asm k n exits exit)).map (Instr.relabel ρ) = rest.code k pos offsets
  | .done, _, k, n, exit, pos, _, _ => by
    rw [Rest.asm, Rest.code]
    rfl
  | .last body, h, k, n, exit, pos, hp, _ => by
    rw [Rest.fits] at h
    rw [Rest.asm] at hp ⊢
    rw [Rest.code, resolve_body he h hp]
  | .further guard body rest, h, k, n, exit, pos, hp, hx => by
    simp only [Rest.fits, Bool.and_eq_true] at h
    rw [Rest.asm] at hp ⊢
    obtain ⟨hb, hr, hc⟩ := clause_resolve hp
    rw [length_asmOf] at hr hc
    have hx : ρ ⟨exit⟩ = pos + guard.size + 1 + lengthOf body + 1 + rest.size := by
      rw [hx, Rest.size]
      omega
    rw [Rest.code, hc, hx, resolve_body he h.1.2 hb, Rest.resolve he h.2 hr hx]

theorem resolve_body {ctx : Context} {inFunction inLoop : Bool} {exits : Exits Label}
    {ρ : Label → Nat} {offsets : Exits Nat}
    (he : inLoop = true → offsets = ⟨ρ exits.again, ρ exits.leave⟩) :
    ∀ {body : List Stmt}, bodyFits ctx inFunction inLoop body = true → ∀ {k n pos : Nat},
      Placed ρ pos (asmOf k n exits body) →
        (Asm.instrs (asmOf k n exits body)).map (Instr.relabel ρ) = codeOf k pos offsets body
  | [], _, k, n, pos, _ => by
    rw [asmOf, codeOf]
    rfl
  | st :: body, h, k, n, pos, hp => by
    rw [bodyFits, Bool.and_eq_true] at h
    rw [asmOf, placed_append, Stmt.length_asm] at hp
    rw [asmOf, codeOf, Asm.instrs_append, List.map_append, Stmt.resolve he h.1 hp.1,
      resolve_body he h.2 hp.2]

end

/-! ## Assembly -/

theorem lookup_of_nodup : ∀ {l : List (Label × Nat)}, (l.map Prod.fst).Nodup →
    ∀ p ∈ l, l.lookup p.1 = some p.2
  | (x, v) :: l, h, p, hp => by
    rw [List.map_cons, List.nodup_cons] at h
    rw [List.lookup_cons]
    rcases List.mem_cons.1 hp with rfl | hp
    · simp
    · have hne : p.1 ≠ x := fun he => h.1 (List.mem_map.2 ⟨p, hp, he⟩)
      rw [beq_false_of_ne hne]
      exact lookup_of_nodup h.2 p hp

/-- Code that is wired without labels around it can be assembled; its labels are placed. -/
theorem Wired.assemble {own : Nat → Prop} {a : List Asm} (h : Wired own [] a) :
    ∃ ρ, Placed ρ 0 a ∧ Asm.assemble a = .ok ((Asm.instrs a).map (Instr.relabel ρ)) := by
  refine ⟨Asm.place a, fun p hp => ?_, Asm.assemble_eq_ok_iff.2 ⟨h.nodup, h.used, ?_, rfl⟩⟩
  · have hn := h.nodup
    rw [← Asm.map_fst_offsetsFrom 0] at hn
    have hl : (Asm.offsets a).lookup p.1 = some p.2 := lookup_of_nodup hn p hp
    rw [Asm.place, hl]
    rfl
  · exact fun l hl => (h.placed l hl).resolve_right List.not_mem_nil

theorem Wired.append_straight {own : Nat → Prop} {outer : List Label} {a b : List Asm}
    (ha : Wired own outer a) (hm : Asm.marks b = []) (ht : Asm.targets b = []) :
    Wired own outer (a ++ b) := by
  have hb : Wired (fun _ => False) outer b := .straight hm ht
  exact (ha.append hb fun _ _ => id).mono (by simp) fun _ h => h

theorem Wired.straight_append {own : Nat → Prop} {outer : List Label} {a b : List Asm}
    (hb : Wired own outer b) (hm : Asm.marks a = []) (ht : Asm.targets a = []) :
    Wired own outer (a ++ b) := by
  have ha : Wired (fun _ => False) outer a := .straight hm ht
  exact (ha.append hb fun _ => False.elim).mono (by simp) fun _ h => h

/-- The code that stores arguments. -/
def paramsAsm (params : List Binder) : List Asm :=
  params.map fun b => .op (.storeName b.name)

theorem marks_paramsAsm (params : List Binder) : Asm.marks (paramsAsm params) = [] := by
  induction params with
  | nil => rfl
  | cons b bs ih => exact ih

theorem targets_paramsAsm (params : List Binder) : Asm.targets (paramsAsm params) = [] := by
  induction params with
  | nil => rfl
  | cons b bs ih => exact ih

theorem instrs_paramsAsm (params : List Binder) :
    Asm.instrs (paramsAsm params) = params.map fun b => .storeName b.name := by
  induction params with
  | nil => rfl
  | cons b bs ih => exact congrArg (_ :: ·) ih

/-- **The symbolic code of a function is assembled to its code.** -/
theorem assemble_function {ctx : Context} {body : List Stmt} {exits : Exits Label}
    (h : bodyFits ctx true false body = true) (k n : Nat) (params : List Binder) :
    Asm.assemble (paramsAsm params ++ asmOf k n exits body ++ FunctionBlock.returnNull) =
      .ok (functionCode k params body) := by
  have hw : Wired (labelRange n (labelsOf body)) [] (asmOf k n exits body) :=
    wired_body (by simp) h k n
  obtain ⟨ρ, hp, ha⟩ := ((hw.straight_append (marks_paramsAsm params)
    (targets_paramsAsm params)).append_straight (b := FunctionBlock.returnNull) rfl rfl).assemble
  rw [placed_append, placed_append, instrs_paramsAsm] at hp
  have hbody : _ = codeOf k params.length noExits body :=
    resolve_body (by simp) h (by simpa using hp.1.2)
  rw [ha, functionCode, Asm.instrs_append, Asm.instrs_append, instrs_paramsAsm, List.map_append,
    List.map_append, hbody]
  simp
  rfl

/-! ## Modules -/

/-- There is no loop around. -/
def noLabels : Exits Label :=
  ⟨⟨0⟩, ⟨0⟩⟩

/-- The test whether a module is the main one. -/
def mainTest : List Asm :=
  [.op (.loadName "__name__"), .op (.loadConst (.string "__main__")), .op (.compare .eq)]

/-- The symbolic code of an entry point after `k` chunks and `n` labels. -/
def entryAsm (k n : Nat) (body : List Stmt) : List Asm :=
  mainTest ++ [.op (.jumpIfFalse ⟨n⟩)] ++ asmOf k (n + 1) noLabels body ++ [.mark ⟨n⟩]

theorem length_entryAsm (k n : Nat) (body : List Stmt) :
    (Asm.instrs (entryAsm k n body)).length = 4 + lengthOf body := by
  simp only [entryAsm, Asm.instrs_append, List.length_append, length_asmOf]
  rfl

theorem wired_entry {ctx : Context} {body : List Stmt} (h : bodyFits ctx true false body = true)
    (k n : Nat) : Wired (labelRange n (1 + labelsOf body)) [] (entryAsm k n body) := by
  have hb : Wired (labelRange (n + 1) (labelsOf body)) [⟨n⟩] (asmOf k (n + 1) noLabels body) :=
    wired_body (by simp) h k (n + 1)
  have htest : Wired (fun _ => False) [⟨n⟩] (mainTest ++ [.op (.jumpIfFalse ⟨n⟩)]) :=
    (Wired.branch (by simp)).straight_append rfl rfl
  refine ((htest.append hb fun _ => False.elim).chain (by simp [mainTest, Instr.target?]) ?_).mono ?_
    fun _ h => h
  all_goals simp only [labelRange, false_or]
  all_goals omega

theorem resolve_entry {ctx : Context} {body : List Stmt} (h : bodyFits ctx true false body = true)
    {ρ : Label → Nat} {k n pos : Nat} (hp : Placed ρ pos (entryAsm k n body)) :
    (Asm.instrs (entryAsm k n body)).map (Instr.relabel ρ) = entryCode k pos body := by
  rw [entryAsm, placed_append, placed_append, placed_mark] at hp
  obtain ⟨⟨-, hb⟩, hx, -⟩ := hp
  have hx : ρ ⟨n⟩ = pos + 4 + lengthOf body := by
    rw [hx, Asm.instrs_append, List.length_append, length_asmOf, ← Nat.add_assoc]
    rfl
  have hbody : _ = codeOf k (pos + 4) noExits body := resolve_body (by simp) h hb
  rw [entryAsm, entryCode, Asm.instrs_append, Asm.instrs_append, List.map_append, List.map_append,
    hbody, ← hx]
  simp
  rfl

namespace Script

/-- The symbolic code of a script. -/
def asm (s : Script) : List Asm :=
  asmOf 0 0 noLabels s.before ++ entryAsm (countOf s.before) (labelsOf s.before) s.entry ++
    asmOf (countOf s.before + countOf s.entry) (labelsOf s.before + 1 + labelsOf s.entry) noLabels
      s.after

/-- **The symbolic code of a script is assembled to the code of its module.** -/
theorem assemble_asm {s : Script} (h : s.fits = true) :
    Asm.assemble (s.asm ++ FunctionBlock.returnNull) = .ok s.generate.code := by
  simp only [Script.fits, Bool.and_eq_true] at h
  obtain ⟨⟨hb, he⟩, ha⟩ := h
  have hwb : Wired _ [] (asmOf 0 0 noLabels s.before) := wired_body (by simp) hb 0 0
  have hwe := wired_entry he (countOf s.before) (labelsOf s.before)
  have hwa : Wired _ [] (asmOf (countOf s.before + countOf s.entry)
    (labelsOf s.before + 1 + labelsOf s.entry) noLabels s.after) := wired_body (by simp) ha _ _
  have hw := (((hwb.append hwe ?_).append hwa ?_).append_straight
    (b := FunctionBlock.returnNull) rfl rfl)
  · obtain ⟨ρ, hp, hok⟩ := hw.assemble
    simp only [placed_append, Asm.instrs_append, List.length_append, length_asmOf, length_entryAsm,
      Nat.zero_add, ← Nat.add_assoc] at hp
    obtain ⟨⟨⟨hpb, hpe⟩, hpa⟩, -⟩ := hp
    have hbefore : _ = codeOf 0 0 noExits s.before := resolve_body (by simp) hb hpb
    have hafter : _ = codeOf (countOf s.before + countOf s.entry)
      (lengthOf s.before + 4 + lengthOf s.entry) noExits s.after := resolve_body (by simp) ha hpa
    rw [asm, hok]
    simp only [Asm.instrs_append, List.map_append, hbefore, resolve_entry he hpe, hafter, generate]
    rfl
  all_goals simp only [labelRange]
  all_goals omega

end Script

end Naskah.Tree
