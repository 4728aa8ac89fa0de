/-
  The code of statements follows their meaning: the machine gets behind a statement, to an exit of
  the loop around it, or to a return (`Activation.After`), just as the interpreter says.

  `Stmt.follows` is by recursion over the tree.  A loop is followed round by round
  (`follows_iterate`), and the test in front of its body is the step that every round makes.
-/
import Naskah.Proofs.Tree.Simulation

namespace Naskah

open Machine Naskah.Tree

variable {p : Program} {code : List Instruction} {a : Activation} {outer : Option Env}
  {n depth pos : Nat} {ops : List Value} {s : Store} {exits : Exits Nat} {inLoop : Bool}

/-! ## Where statements end -/

/-- Where the machine is when a statement ends, `next` being the place behind it. -/
def Activation.After (a : Activation) (p : Program) (inLoop : Bool) (exits : Exits Nat) (next : Nat)
    (ops : List Value) : Flow → Store → Machine → Prop
  | .next, s, m => m = a.machine next ops s
  | .stop, s, m => inLoop = true ∧ m = a.machine exits.leave ops s
  | .skip, s, m => inLoop = true ∧ m = a.machine exits.again ops s
  | .result v, s, m => ∃ ip, step p m = leave v (a.machine ip ops s)

namespace Activation.Runs

theorem jump {β : Type} {after : β → Store → Machine → Prop} {r : EStateM.Result Halt Store β}
    {target : Nat} (h : a.Runs p code outer depth) (hi : code[pos]? = some (.jump target))
    (ht : target ≤ code.length) (hr : Follows p outer n (a.machine target ops s) r after) :
    Follows p outer n (a.machine pos ops s) r after :=
  h.follows_step hi (execute_jump (h.code _ rfl) ht) hr

theorem store (h : a.Runs p code outer depth) {x : String} {v : Value}
    (hi : code[pos]? = some (.storeName x)) :
    Follows p outer n (a.machine pos (v :: ops) s) (Exec.assign x v s)
      fun _ s' m' => m' = a.machine (pos + 1) ops s' :=
  h.follows_step hi (execute_storeName rfl x) (.done rfl)

/-- A value that is tested: the machine goes on behind the test, or where it jumps to. -/
theorem test {target : Nat} {v : Value} {x y : Exec Flow} {after : Flow → Store → Machine → Prop}
    (h : a.Runs p code outer depth) (hi : code[pos]? = some (.jumpIfFalse target))
    (ht : target ≤ code.length)
    (hx : Follows p outer n (a.machine (pos + 1) ops s) (x s) after)
    (hy : Follows p outer n (a.machine target ops s) (y s) after) :
    Follows p outer (n + 1) (a.machine pos (v :: ops) s)
      ((if v.isTruthy then x else y) s) after := by
  cases hv : v.isTruthy with
  | true => exact hx.step ((h.step hi).trans (execute_jumpIfFalse_true rfl hv))
  | false =>
    exact hy.step ((h.step hi).trans
      (execute_jumpIfFalse_false rfl hv (h.code _ rfl) ht))

/-- **Clauses**: the body behind a test that holds, or what stands behind the clause. -/
theorem clause {guard : Exec Value} {body rest : Exec Flow} {test last next behind : Nat}
    (h : a.Runs p code outer depth)
    (hg : Follows p outer n (a.machine pos ops s) (guard s)
      fun v s' m' => m' = a.machine test (v :: ops) s')
    (ht : code[test]? = some (.jumpIfFalse next)) (hnext : next ≤ code.length)
    (hb : ∀ s, Follows p outer n (a.machine (test + 1) ops s) (body s)
      (a.After p inLoop exits last ops))
    (hl : code[last]? = some (.jump behind)) (hbehind : behind ≤ code.length)
    (hr : ∀ s, Follows p outer n (a.machine next ops s) (rest s)
      (a.After p inLoop exits behind ops)) :
    Follows p outer n (a.machine pos ops s)
      ((do if (← guard).isTruthy then body else rest) s) (a.After p inLoop exits behind ops) := by
  refine hg.bind fun v s₁ m₁ h₁ => ?_
  subst h₁
  refine (h.test ht hnext ((hb s₁).onward fun flow s₂ m₂ h₂ => ?_) (hr s₁)).mono (Nat.le_succ n)
  cases flow with
  | next =>
    subst h₂
    exact h.jump hl hbehind (.done rfl)
  | stop | skip | result v => exact .done h₂

/-- **Loops** of at most `k` rounds, by induction on `k`. -/
theorem iterate {guard : Exec Value} {body : Exec Flow} {test back stop : Nat}
    (h : a.Runs p code outer depth)
    (hg : ∀ s, Follows p outer n (a.machine pos ops s) (guard s)
      fun v s' m' => m' = a.machine test (v :: ops) s')
    (ht : code[test]? = some (.jumpIfFalse stop)) (hstop : stop ≤ code.length)
    (hb : ∀ s, Follows p outer n (a.machine (test + 1) ops s) (body s)
      (a.After p true ⟨pos, stop⟩ back ops))
    (hback : code[back]? = some (.jump pos)) (hpos : pos ≤ code.length) :
    ∀ (k : Nat) (s : Store), k ≤ n →
      Follows p outer k (a.machine pos ops s) (Exec.iterate guard body k s)
        (a.After p inLoop exits stop ops)
  | 0, s, _ => ⟨0, _, Nat.le_refl 0, rfl⟩
  | k + 1, s, hk => by
    rw [Exec.iterate]
    refine ((hg s).mono hk).bind fun v s₁ m₁ h₁ => ?_
    subst h₁
    refine h.test ht hstop ?_ (.done rfl)
    refine ((hb s₁).mono (Nat.le_of_succ_le hk)).bind fun flow s₂ m₂ h₂ => ?_
    have ih := fun s => iterate h hg ht hstop hb hback hpos k s (Nat.le_of_succ_le hk)
    cases flow with
    | next =>
      subst h₂
      exact h.jump hback hpos (ih s₂)
    | skip =>
      obtain ⟨-, rfl⟩ := h₂
      exact ih s₂
    | stop => exact .done h₂.2
    | result v => exact .done h₂

end Activation.Runs

/-- **One statement after the other.** -/
theorem Follows.andThen {x y : Exec Flow} {m : Machine} {next behind : Nat}
    (hx : Follows p outer n m (x s) (a.After p inLoop exits next ops))
    (hy : ∀ s, Follows p outer n (a.machine next ops s) (y s) (a.After p inLoop exits behind ops)) :
    Follows p outer n m (Exec.andThen x y s) (a.After p inLoop exits behind ops) := by
  refine hx.bind fun flow s₁ m₁ h₁ => ?_
  cases flow with
  | next =>
    subst h₁
    exact hy s₁
  | stop | skip | result v => exact .done h₁

namespace Tree

variable {w : World} {k : Nat} {ctx : Context} {inFunction : Bool}

/-! ## Sizes -/

mutual

theorem Stmt.length_definitions : ∀ st : Stmt, st.definitions.length = st.count
  | .function f params body => by
    rw [Stmt.definitions, List.length_append, length_definitionsOf body]; rfl
  | .loop guard body => length_definitionsOf body
  | .cond guard body rest => by
    rw [Stmt.definitions, List.length_append, length_definitionsOf body, rest.length_definitions]
    rfl
  | .simple st => rfl
  | .stop => rfl
  | .skip => rfl

theorem Rest.length_definitions : ∀ rest : Rest, rest.definitions.length = rest.count
  | .done => rfl
  | .last body => length_definitionsOf body
  | .further guard body rest => by
    rw [Rest.definitions, List.length_append, length_definitionsOf body, rest.length_definitions]
    rfl

theorem length_definitionsOf : ∀ body : List Stmt, (definitionsOf body).length = countOf body
  | [] => rfl
  | st :: body => by
    rw [definitionsOf, List.length_append, st.length_definitions, length_definitionsOf body]; rfl

end

/-! ## Simple statements -/

theorem follows_value (hw : Followed p code a w n depth) : ∀ (value : Option Expr) (s : Store),
    LiesAt code pos (valueCode value) →
      Follows p w.outer n (a.machine pos ops s) (evalIfAny w value s)
        fun v s' m' => m' = a.machine (pos + (valueCode value : List Instruction).length) (v :: ops) s'
  | none, _, h => hw.runs.follows_step (LiesAt.cons_iff.1 h).1 (execute_loadConst _) (.done rfl)
  | some e, s, h => e.follows hw ops s h

/-- A value that is stored at the end of a statement. -/
theorem follows_assign (hw : Followed p code a w n depth) {x : String} {value : Exec Value}
    {m : Machine} (hv : Follows p w.outer n m (value s)
      fun v s' m' => m' = a.machine pos (v :: ops) s') (h : code[pos]? = some (.storeName x)) :
    Follows p w.outer n m ((do Exec.assign x (← value); return Flow.next) s)
      (a.After p inLoop exits (pos + 1) ops) := by
  refine hv.bind fun v s₁ m₁ h₁ => ?_
  subst h₁
  exact (hw.runs.store h).bind fun _ _ _ h => .done h

theorem Simple.follows (hw : Followed p code a w n depth) (s : Store) : ∀ st : Simple,
    LiesAt code pos st.code →
      Follows p w.outer n (a.machine pos ops s) (st.exec w s)
        (a.After p inLoop exits (pos + (st.code : List Instruction).length) ops)
  | .var b value, h => by
    rw [Simple.code, LiesAt.append_iff, LiesAt.cons_iff] at h
    rw [Simple.exec, Simple.code, List.length_append, ← Nat.add_assoc]
    exact follows_assign hw (follows_value hw value s h.1) h.2.1
  | .const b value, h => by
    rw [Simple.code, LiesAt.append_iff, LiesAt.cons_iff] at h
    rw [Simple.exec, Simple.code, List.length_append, ← Nat.add_assoc]
    exact follows_assign hw (value.follows hw ops s h.1) h.2.1
  | .assign x value, h => by
    rw [Simple.code, LiesAt.append_iff, LiesAt.cons_iff] at h
    rw [Simple.exec, Simple.code, List.length_append, ← Nat.add_assoc]
    exact follows_assign hw (value.follows hw ops s h.1) h.2.1
  | .compound x op value, h => by
    rw [Simple.code, List.singleton_append, List.cons_append, LiesAt.cons_iff, LiesAt.append_iff,
      LiesAt.cons_iff, LiesAt.cons_iff] at h
    obtain ⟨hx, hv, ho, hs, -⟩ := h
    rw [Simple.exec]
    refine (hw.load hx).bind fun old s₁ m₁ h₁ => ?_
    subst h₁
    refine (value.follows hw _ _ hv).bind fun v s₂ m₂ h₂ => ?_
    subst h₂
    rw [Simple.code, List.length_append, List.length_append, ← Nat.add_assoc, ← Nat.add_assoc]
    exact follows_assign hw (hw.apply (o := .binary op) old v ho) hs
  | .step x up, h => by
    rw [Simple.code, LiesAt.cons_iff, LiesAt.cons_iff, LiesAt.cons_iff, LiesAt.cons_iff] at h
    obtain ⟨hx, hv, ho, hs, -⟩ := h
    rw [Simple.exec]
    refine (hw.load hx).bind fun old s₁ m₁ h₁ => ?_
    subst h₁
    refine hw.runs.follows_step hv (execute_loadConst _) ?_
    exact follows_assign hw (hw.apply (o := .binary _) old (.int 1) ho) hs
  | .result value, h => by
    rw [Simple.code, LiesAt.append_iff, LiesAt.cons_iff] at h
    rw [Simple.exec]
    refine (follows_value hw value s h.1).bind fun v s₁ m₁ h₁ => ?_
    subst h₁
    exact .done ⟨_, (hw.runs.step h.2.1).trans (execute_ret rfl)⟩
  | .expr e, h => by
    rw [Simple.code, LiesAt.append_iff, LiesAt.cons_iff] at h
    rw [Simple.exec, Simple.code, List.length_append, ← Nat.add_assoc]
    refine (e.follows hw ops s h.1).bind fun v s₁ m₁ h₁ => ?_
    subst h₁
    exact hw.runs.follows_step h.2.1 (execute_pop rfl) (.done rfl)

/-! ## Blocks -/

/-- The chunk at a place is the code of a definition; the functions inside of it are numbered from
    some place on. -/
def LinkedAt (chunks : List Chunk) (defs : List Definition) (i : Nat) (d : Definition) : Prop :=
  ∃ k line ctx, chunks[i]? =
      some ⟨d.name, d.params.map Binder.param, functionCode k d.params d.body, line⟩ ∧
    LiesAt defs k (definitionsOf d.body) ∧ bodyFits ctx true false d.body = true

/-- The chunks of a program are the functions of a script, in their order. -/
structure Linked (p : Program) (defs : List Definition) : Prop where
  nodup : (defs.map Definition.name).Nodup
  length : p.chunks.length = defs.length
  chunk : ∀ {i : Nat} {d : Definition}, defs[i]? = some d → LinkedAt p.chunks defs i d

theorem numberOf_eq {defs : List Definition} (hd : (defs.map Definition.name).Nodup) {i : Nat}
    {d : Definition} (hi : defs[i]? = some d) : numberOf defs d.name = i := by
  obtain ⟨hlt, hget⟩ := List.getElem?_eq_some_iff.1 hi
  refine (List.findIdx_eq hlt).2 ⟨by simp [hget], fun j hj => ?_⟩
  refine decide_eq_false fun he => ?_
  refine List.pairwise_iff_getElem.1 hd j i (by simp; omega) (by simpa) hj ?_
  simp [he, hget]

/-- A block behind a guard: the test, the block and the jump at its end. -/
theorem liesAt_guarded {guard : Expr} {body : List Stmt} {q : Nat} {i j : Instruction}
    {rest : List Instruction} :
    LiesAt code pos (guard.code ++ i :: (codeOf k q exits body ++ j :: rest)) ↔
      LiesAt code pos guard.code ∧ code[pos + guard.size]? = some i ∧
        LiesAt code (pos + guard.size + 1) (codeOf k q exits body) ∧
          code[pos + guard.size + 1 + lengthOf body]? = some j ∧
            LiesAt code (pos + guard.size + 1 + lengthOf body + 1) rest := by
  rw [LiesAt.append_iff, LiesAt.cons_iff, LiesAt.append_iff, LiesAt.cons_iff, length_codeOf]
  rfl

/-- The exits of a loop are places of the code. -/
def Exits.Within (exits : Exits Nat) (code : List Instruction) : Prop :=
  exits.again ≤ code.length ∧ exits.leave ≤ code.length

variable {defs : List Definition}

mutual

/-- **The code of a statement follows its meaning.** -/
theorem Stmt.follows (hd : Linked p defs) (hw : Followed p code a w n depth)
    (hn : w.number = numberOf defs) : ∀ (st : Stmt) {ctx : Context}
    {inFunction inLoop : Bool} {k pos : Nat} {exits : Exits Nat} (s : Store),
      st.fits ctx inFunction inLoop = true →
      LiesAt code pos (st.code k pos exits) → LiesAt defs k st.definitions → exits.Within code →
        Follows p w.outer n (a.machine pos ops s) (st.exec w s)
          (a.After p inLoop exits (pos + st.size) ops)
  | .function f params body, ctx, inFunction, inLoop, k, pos, exits, s, hf, hc, hdefs, hx => by
    rw [Stmt.code, bindFunction, LiesAt.cons_iff, LiesAt.cons_iff, LiesAt.cons_iff] at hc
    obtain ⟨hload, hmake, hstore, -⟩ := hc
    rw [Stmt.definitions, LiesAt.append_iff, LiesAt.cons_iff, length_definitionsOf] at hdefs
    obtain ⟨-, hdef, -⟩ := hdefs
    have hlt : k + countOf body < p.chunks.length := by
      rw [hd.length]
      exact (List.getElem?_eq_some_iff.1 hdef).1
    rw [Stmt.exec, hn, numberOf_eq hd.nodup hdef]
    refine hw.runs.follows_step hload (execute_loadConst _) ?_
    refine hw.runs.follows_step hmake (execute_makeFunction rfl hlt f) ?_
    exact (hw.runs.store hstore).bind fun _ _ _ h => .done h
  | .simple st, ctx, inFunction, inLoop, k, pos, exits, s, hf, hc, hdefs, hx => by
    rw [Stmt.code] at hc
    rw [Stmt.exec, Stmt.size]
    exact st.follows hw s hc
  | .loop guard body, ctx, inFunction, inLoop, k, pos, exits, s, hf, hc, hdefs, hx => by
    have hle := LiesAt.length_le hc (by simp [Stmt.code])
    rw [Stmt.length_code, Stmt.size] at hle
    simp only [← Nat.add_assoc] at hle
    simp only [Stmt.code, List.append_assoc, List.cons_append, List.nil_append,
      liesAt_guarded] at hc
    obtain ⟨hguard, htest, hbody, hback, -⟩ := hc
    rw [Stmt.fits, Bool.and_eq_true] at hf
    have hpos : pos ≤ code.length := by omega
    rw [Stmt.exec, hw.rounds, Stmt.size]
    simp only [← Nat.add_assoc]
    exact hw.runs.iterate (fun s => guard.follows hw ops s hguard) htest hle
      (fun s => follows_body hd hw hn body s hf.2 hbody hdefs ⟨hpos, hle⟩) hback hpos n s
      (Nat.le_refl n)
  | .stop, ctx, inFunction, inLoop, k, pos, exits, s, hf, hc, hdefs, hx => by
    rw [Stmt.code, LiesAt.cons_iff] at hc
    exact hw.runs.jump hc.1 hx.2 (.done ⟨hf, rfl⟩)
  | .skip, ctx, inFunction, inLoop, k, pos, exits, s, hf, hc, hdefs, hx => by
    rw [Stmt.code, LiesAt.cons_iff] at hc
    exact hw.runs.jump hc.1 hx.1 (.done ⟨hf, rfl⟩)
  | .cond guard body rest, ctx, inFunction, inLoop, k, pos, exits, s, hf, hc, hdefs, hx => by
    have hle := LiesAt.length_le hc (by simp [Stmt.code])
    rw [Stmt.length_code, Stmt.size] at hle
    simp only [← Nat.add_assoc] at hle
    simp only [Stmt.code, List.append_assoc, List.cons_append, List.nil_append,
      liesAt_guarded] at hc
    obtain ⟨hguard, htest, hbody, hlast, hrest⟩ := hc
    rw [Stmt.definitions, LiesAt.append_iff, length_definitionsOf] at hdefs
    rw [Stmt.fits, Bool.and_eq_true, Bool.and_eq_true] at hf
    rw [Stmt.exec, Stmt.size]
    simp only [← Nat.add_assoc]
    exact hw.runs.clause (guard.follows hw ops s hguard) htest (by omega)
      (fun s => follows_body hd hw hn body s hf.1.2 hbody hdefs.1 hx) hlast hle
      (fun s => rest.follows hd hw hn s hf.2 hrest hdefs.2 hx)

theorem Rest.follows (hd : Linked p defs) (hw : Followed p code a w n depth)
    (hn : w.number = numberOf defs) : ∀ (rest : Rest) {ctx : Context}
    {inFunction inLoop : Bool} {k pos : Nat} {exits : Exits Nat} (s : Store),
      rest.fits ctx inFunction inLoop = true →
      LiesAt code pos (rest.code k pos exits) → LiesAt defs k rest.definitions →
        exits.Within code →
          Follows p w.outer n (a.machine pos ops s) (rest.exec w s)
            (a.After p inLoop exits (pos + rest.size) ops)
  | .done, ctx, inFunction, inLoop, k, pos, exits, s, hf, hc, hdefs, hx => .done rfl
  | .last body, ctx, inFunction, inLoop, k, pos, exits, s, hf, hc, hdefs, hx => by
    rw [Rest.code] at hc
    rw [Rest.fits] at hf
    rw [Rest.exec]
    exact follows_body hd hw hn body s hf hc hdefs hx
  | .further guard body rest, ctx, inFunction, inLoop, k, pos, exits, s, hf, hc, hdefs, hx => by
    have hle := LiesAt.length_le hc (by simp [Rest.code])
    rw [Rest.length_code, Rest.size] at hle
    simp only [← Nat.add_assoc] at hle
    simp only [Rest.code, List.append_assoc, List.cons_append, List.nil_append,
      liesAt_guarded] at hc
    obtain ⟨hguard, htest, hbody, hlast, hrest⟩ := hc
    rw [Rest.definitions, LiesAt.append_iff, length_definitionsOf] at hdefs
    rw [Rest.fits, Bool.and_eq_true, Bool.and_eq_true] at hf
    rw [Rest.exec, Rest.size]
    simp only [← Nat.add_assoc]
    exact hw.runs.clause (guard.follows hw ops s hguard) htest (by omega)
      (fun s => follows_body hd hw hn body s hf.1.2 hbody hdefs.1 hx) hlast hle
      (fun s => rest.follows hd hw hn s hf.2 hrest hdefs.2 hx)

theorem follows_body (hd : Linked p defs) (hw : Followed p code a w n depth)
    (hn : w.number = numberOf defs) : ∀ (body : List Stmt) {ctx : Context}
    {inFunction inLoop : Bool} {k pos : Nat} {exits : Exits Nat} (s : Store),
      bodyFits ctx inFunction inLoop body = true →
      LiesAt code pos (codeOf k pos exits body) → LiesAt defs k (definitionsOf body) →
        exits.Within code →
          Follows p w.outer n (a.machine pos ops s) (execAll w body s)
            (a.After p inLoop exits (pos + lengthOf body) ops)
  | [], ctx, inFunction, inLoop, k, pos, exits, s, hf, hc, hdefs, hx => .done rfl
  | st :: body, ctx, inFunction, inLoop, k, pos, exits, s, hf, hc, hdefs, hx => by
    rw [bodyFits, Bool.and_eq_true] at hf
    rw [codeOf, LiesAt.append_iff, st.length_code] at hc
    rw [definitionsOf, LiesAt.append_iff, st.length_definitions] at hdefs
    rw [execAll, lengthOf, ← Nat.add_assoc]
    exact Follows.andThen (st.follows hd hw hn s hf.1 hc.1 hdefs.1 hx)
      fun s => follows_body hd hw hn body s hf.2 hc.2 hdefs.2 hx

end

end Tree

end Naskah
