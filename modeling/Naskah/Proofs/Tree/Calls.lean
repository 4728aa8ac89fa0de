/-
  Calls follow their meaning.  A function is entered with its arguments on the stack, stores them in
  its parameters, runs its body and leaves with the value of the body (`Followed.callAt`); this is by
  induction on the number of calls inside of each other, the body being one call further in.

  The functions of a script are the chunks of its program (`Script.linked`).
-/
import Naskah.Proofs.Tree.Flows

namespace Naskah

open Machine Naskah.Tree

variable {p : Program} {code : List Instruction} {a : Activation} {outer : Option Env}
  {n depth pos : Nat} {ops : List Value} {s : Store}

/-! ## Entering and leaving -/

/-- The frame of a function that is called from the given place. -/
def Activation.callee (a : Activation) (i ip : Nat) (ops : List Value) (env : Env) : Activation :=
  ⟨some i, ops.length, ⟨a.chunk, ip, env, a.base⟩ :: a.callers⟩

theorem Activation.Runs.callee (h : a.Runs p code outer depth) {i : Nat} {c : Chunk}
    (hc : p.chunks[i]? = some c) (ip : Nat) (ops : List Value) (env : Env) :
    (a.callee i ip ops env).Runs p c.code (some (outer.getD env)) (depth + 1) where
  code f hf := by
    rw [Frame.code, hf]
    simp only [Activation.callee, hc]
  outer := by
    rw [← h.outer]
    simp only [Activation.callee, List.getLast?_cons]
    cases a.callers.getLast? <;> rfl
  depth := by rw [← h.depth]; rfl

/-- A function leaves with a value on top of the operands below its frame. -/
theorem leave_callee (i ip ip' : Nat) (ops : List Value) (env : Env) (v : Value) (s : Store) :
    leave v ((a.callee i ip ops env).machine ip' ops s) =
      .ok none (a.machine ip (v :: ops) ⟨env, s.output⟩) :=
  leave_frame rfl (List.nil_append ops).symm rfl

/-- **The end of a body**: null is returned behind it, so that a frame always leaves. -/
theorem Activation.Runs.leaves (h : a.Runs p code outer depth) {exits : Exits Nat} {next : Nat}
    (hc : LiesAt code next returnsNull) {flow : Flow} {m : Machine}
    (hm : a.After p false exits next ops flow s m) :
    Follows p outer n m (.ok flow s)
      fun flow s' m' => ∃ ip, Machine.step p m' = leave flow.value (a.machine ip ops s') := by
  rw [returnsNull, LiesAt.cons_iff, LiesAt.cons_iff] at hc
  cases flow with
  | next =>
    subst hm
    refine h.follows_step hc.1 (execute_loadConst _) (.done ⟨next + 1 + 1, ?_⟩)
    exact (h.step hc.2.1).trans (execute_ret rfl)
  | stop | skip => cases hm.1
  | result v => exact .done hm

theorem Follows.inFrame {α : Type} {after : α → Store → Machine → Prop} {m : Machine} {env : Env}
    {x : Exec α} (h : Follows p (some (outer.getD s.env)) n m (x ⟨env, s.output⟩) after) :
    Follows p outer n m (Exec.inFrame env x s)
      fun v s' m' => s'.env = s.env ∧ ∃ inner, inner.output = s'.output ∧ after v inner m' := by
  unfold Exec.inFrame
  cases hr : x ⟨env, s.output⟩ with
  | ok v inner =>
    rw [hr] at h
    obtain ⟨k, m₁, hk, ha⟩ := h
    exact ⟨k, m₁, hk, rfl, inner, rfl, ha⟩
  | error e inner =>
    rw [hr] at h
    cases e <;> exact h

/-- Arguments are stored one by one. -/
theorem Activation.Runs.follows_params {β : Type} {after : β → Store → Machine → Prop}
    {r : EStateM.Result Halt Store β} (h : a.Runs p code outer depth) :
    ∀ {params : List Binder} {args : List Value} {pos : Nat} {env : Env} {output : Array String},
      params.length = args.length →
      LiesAt code pos (params.map fun b => .storeName b.name) →
      Follows p outer n
        (a.machine (pos + params.length) ops ⟨bindArgs env params args, output⟩) r after →
      Follows p outer n (a.machine pos (args ++ ops) ⟨env, output⟩) r after
  | [], [], pos, env, output, _, _, hr => hr
  | b :: params, v :: args, pos, env, output, hl, hc, hr => by
    rw [List.map_cons, LiesAt.cons_iff] at hc
    refine h.follows_step hc.1 (execute_storeName rfl b.name) ?_
    have hl : params.length = args.length := by simpa using hl
    have hr : Follows p outer n (a.machine (pos + 1 + params.length) ops
        ⟨bindArgs (env.set b.name v) params args, output⟩) r after := by
      rw [Nat.add_assoc, Nat.add_comm 1]
      exact hr
    exact h.follows_params hl hc.2 hr

/-! ## Calls -/

namespace Tree

variable {defs : List Definition}

theorem Linked.chunk_none (hd : Linked p defs) {i : Nat} (h : defs[i]? = none) :
    p.chunks[i]? = none := by
  rw [List.getElem?_eq_none_iff] at h ⊢
  rwa [hd.length]

/-- The code of a function stores its arguments and follows its body. -/
theorem Linked.follows_function (hd : Linked p defs) {w : World} {k : Nat} {d : Definition}
    {ctx : Context} {args : List Value} {env : Env} {output : Array String}
    (hw : Followed p (functionCode k d.params d.body) a w n depth)
    (hn : w.number = numberOf defs) (hl : d.params.length = args.length)
    (hdefs : LiesAt defs k (definitionsOf d.body)) (hf : bodyFits ctx true false d.body = true) :
    Follows p w.outer n (a.machine 0 (args ++ ops) ⟨env, output⟩)
      (execAll w d.body ⟨bindArgs env d.params args, output⟩)
        fun flow s' m' => ∃ ip, step p m' = leave flow.value (a.machine ip ops s') := by
  have hcode : LiesAt (functionCode k d.params d.body) 0 (functionCode k d.params d.body) :=
    List.prefix_refl _
  nth_rewrite 2 [functionCode] at hcode
  rw [LiesAt.append_iff, LiesAt.append_iff, List.length_append, List.length_map,
    length_codeOf, Nat.zero_add, Nat.zero_add] at hcode
  obtain ⟨⟨hparams, hbody⟩, hend⟩ := hcode
  refine hw.runs.follows_params hl hparams ?_
  rw [Nat.zero_add]
  refine (follows_body hd hw hn d.body _ hf hbody hdefs ⟨Nat.zero_le _, Nat.zero_le _⟩).onward ?_
  intro flow s' m' h
  exact hw.runs.leaves hend h

/-- **Calls follow their meaning**, whatever is called and wherever. -/
theorem Linked.follows_call (hd : Linked p defs) : ∀ (n : Nat) {depth : Nat} {a : Activation}
    {code : List Instruction} {outer : Option Env} {ip : Nat} (callee : Value)
    (args ops : List Value) (s : Store), a.Runs p code outer depth →
      code[ip]? = some (.call args.length) →
        Follows p outer n (a.machine ip (args.reverse ++ callee :: ops) s)
          (callAt defs n depth outer callee args s)
            fun v s' m' => m' = a.machine (ip + 1) (v :: ops) s'
  | 0, depth, a, code, outer, ip, callee, args, ops, s, hr, hc => ⟨0, _, Nat.le_refl 0, rfl⟩
  | n + 1, depth, a, code, outer, ip, callee, args, ops, s, hr, hc => by
    have hfault : ∀ e, (∀ m : Machine, m.frames.length = depth →
        callFault p m args.length callee = some e) →
          Follows p outer (n + 1) (a.machine ip (args.reverse ++ callee :: ops) s)
            (.error (.fault e) s) fun v s' m' => m' = a.machine (ip + 1) (v :: ops) s' :=
      fun e he => hr.follows_fault hc (execute_call_error rfl (he _ hr.depth))
    cases callee with
    | builtin b => exact hr.follows_step hc (execute_call_print rfl) (.done rfl)
    | function i name =>
      rw [callAt]
      cases hi : defs[i]? with
      | none => exact hfault _ fun m _ => by simp only [callFault, hd.chunk_none hi]
      | some d =>
        obtain ⟨k, line, ctx, hchunk, hdefs, hfits⟩ := hd.chunk hi
        simp only
        split
        · next hl => exact hfault _ fun m _ => by simp [callFault, hchunk, hl]
        · next hl =>
          split
          · next hdepth =>
            exact hfault _ fun m hm => by
              rw [← hm] at hdepth
              simp [callFault, hchunk, Decidable.not_not.1 hl, hdepth]
          · next hdepth =>
            have hl := Decidable.not_not.1 hl
            have hframes : a.callers.length + 1 < maxFrames := by
              rw [hr.depth]
              exact Nat.not_le.1 hdepth
            have hruns := hr.callee hchunk (ip + 1) ops s.env
            refine Follows.step ((hr.step hc).trans
              (execute_call_function rfl hchunk ((List.length_map _).trans hl) hframes)) ?_
            -- The body runs in a world of its own: the names of the module, and one call less.
            have hw : Followed p _ (a.callee i (ip + 1) ops s.env)
                ⟨some (outer.getD s.env), callAt defs n (depth + 1) (some (outer.getD s.env)),
                  numberOf defs, n⟩ n (depth + 1) :=
              ⟨hruns, rfl, fun callee args ops s h =>
                hd.follows_call n callee args ops s hruns h⟩
            refine (Follows.inFrame (hd.follows_function hw rfl hl hdefs hfits)).bind
              fun flow s₁ m₁ h₁ => ?_
            obtain ⟨henv, inner, ho, ip', hstep⟩ := h₁
            rw [leave_callee, ← henv, ho] at hstep
            exact (Follows.done rfl).step hstep |>.mono (Nat.le_succ n)
    | null | int n | float x | bool b | string s | chunk i => exact hfault _ fun m _ => rfl

/-! ## Functions and chunks -/

mutual

theorem Stmt.perm_definitions : ∀ st : Stmt,
    (st.definitions.map Definition.name).Perm st.functions
  | .function f params body => by
    rw [Stmt.definitions, Stmt.functions, List.map_append]
    exact (List.perm_append_comm).trans ((perm_definitionsOf body).cons f)
  | .loop guard body => perm_definitionsOf body
  | .cond guard body rest => by
    rw [Stmt.definitions, Stmt.functions, List.map_append]
    exact (perm_definitionsOf body).append rest.perm_definitions
  | .simple st => .nil
  | .stop => .nil
  | .skip => .nil

theorem Rest.perm_definitions : ∀ rest : Rest,
    (rest.definitions.map Definition.name).Perm rest.functions
  | .done => .nil
  | .last body => perm_definitionsOf body
  | .further guard body rest => by
    rw [Rest.definitions, Rest.functions, List.map_append]
    exact (perm_definitionsOf body).append rest.perm_definitions

theorem perm_definitionsOf : ∀ body : List Stmt,
    ((definitionsOf body).map Definition.name).Perm (functionsOf body)
  | [] => .nil
  | st :: body => by
    rw [definitionsOf, functionsOf, List.map_append]
    exact st.perm_definitions.append (perm_definitionsOf body)

end

variable {chunks : List Chunk}

/-- Linked from one place to another. -/
def LinkedFrom (chunks : List Chunk) (defs : List Definition) (k count : Nat) : Prop :=
  ∀ i d, k ≤ i → i < k + count → defs[i]? = some d → LinkedAt chunks defs i d

theorem LinkedFrom.append {k a b : Nat} (ha : LinkedFrom chunks defs k a)
    (hb : LinkedFrom chunks defs (k + a) b) : LinkedFrom chunks defs k (a + b) := by
  intro i d hk hi hd
  rcases Nat.lt_or_ge i (k + a) with h | h
  · exact ha i d hk h hd
  · exact hb i d h (by omega) hd

theorem LinkedFrom.zero {k : Nat} : LinkedFrom chunks defs k 0 :=
  fun _ _ hk hi _ => absurd hi (Nat.not_lt.2 hk)

mutual

/-- The functions of a statement are linked to its chunks. -/
theorem Stmt.linked : ∀ (st : Stmt) {ctx : Context} {inFunction inLoop : Bool} {k : Nat}
    {line : UInt32},
    st.fits ctx inFunction inLoop = true → LiesAt defs k st.definitions →
      LiesAt chunks k (st.chunks k line) → LinkedFrom chunks defs k st.count
  | .function f params body, _, _, _, k, line, hf, hd, hc => by
    simp only [Stmt.fits, Bool.and_eq_true] at hf
    rw [Stmt.definitions, LiesAt.append_iff, LiesAt.cons_iff, length_definitionsOf] at hd
    rw [Stmt.chunks, LiesAt.append_iff, LiesAt.cons_iff, length_chunksOf] at hc
    refine (linked_body body hf.2 hd.1 hc.1).append fun i d hk hi hdef => ?_
    obtain rfl := Nat.le_antisymm (Nat.le_of_lt_succ hi) hk
    cases hd.2.1.symm.trans hdef
    exact ⟨k, line, _, hc.2.1, hd.1, hf.2⟩
  | .loop guard body, _, _, _, k, line, hf, hd, hc => by
    rw [Stmt.fits, Bool.and_eq_true] at hf
    rw [Stmt.definitions] at hd
    rw [Stmt.chunks] at hc
    exact linked_body body hf.2 hd hc
  | .cond guard body rest, _, _, _, k, line, hf, hd, hc => by
    simp only [Stmt.fits, Bool.and_eq_true] at hf
    rw [Stmt.definitions, LiesAt.append_iff, length_definitionsOf] at hd
    rw [Stmt.chunks, LiesAt.append_iff, length_chunksOf] at hc
    exact (linked_body body hf.1.2 hd.1 hc.1).append (rest.linked hf.2 hd.2 hc.2)
  | .simple _, _, _, _, _, _, _, _, _ | .stop, _, _, _, _, _, _, _, _
  | .skip, _, _, _, _, _, _, _, _ => LinkedFrom.zero

theorem Rest.linked : ∀ (rest : Rest) {ctx : Context} {inFunction inLoop : Bool} {k : Nat}
    {line : UInt32},
    rest.fits ctx inFunction inLoop = true → LiesAt defs k rest.definitions →
      LiesAt chunks k (rest.chunks k line) → LinkedFrom chunks defs k rest.count
  | .done, _, _, _, _, _, _, _, _ => LinkedFrom.zero
  | .last body, _, _, _, k, line, hf, hd, hc => by
    rw [Rest.fits] at hf
    rw [Rest.definitions] at hd
    rw [Rest.chunks] at hc
    exact linked_body body hf hd hc
  | .further guard body rest, _, _, _, k, line, hf, hd, hc => by
    simp only [Rest.fits, Bool.and_eq_true] at hf
    rw [Rest.definitions, LiesAt.append_iff, length_definitionsOf] at hd
    rw [Rest.chunks, LiesAt.append_iff, length_chunksOf] at hc
    exact (linked_body body hf.1.2 hd.1 hc.1).append (rest.linked hf.2 hd.2 hc.2)

theorem linked_body : ∀ (body : List Stmt) {ctx : Context} {inFunction inLoop : Bool}
    {k : Nat} {line : UInt32}, bodyFits ctx inFunction inLoop body = true →
      LiesAt defs k (definitionsOf body) → LiesAt chunks k (chunksOf k line body) →
        LinkedFrom chunks defs k (countOf body)
  | [], _, _, _, _, _, _, _, _ => LinkedFrom.zero
  | st :: body, _, _, _, k, line, hf, hd, hc => by
    rw [bodyFits, Bool.and_eq_true] at hf
    rw [definitionsOf, LiesAt.append_iff, st.length_definitions] at hd
    rw [chunksOf, LiesAt.append_iff, st.length_chunks] at hc
    exact (st.linked hf.1 hd.1 hc.1).append (linked_body body hf.2 hd.2 hc.2)

end

/-- **The functions of a script are the chunks of its program.** -/
theorem Script.linked {s : Script} (h : s.fits = true) : Linked s.generate s.definitions := by
  have hlength : s.definitions.length = countOf s.before + countOf s.entry + countOf s.after := by
    simp only [Script.definitions, List.length_append, length_definitionsOf]
  have hdefs : LiesAt s.definitions 0 s.definitions := List.prefix_refl _
  have hchunks : LiesAt s.generate.chunks 0 s.generate.chunks := List.prefix_refl _
  nth_rewrite 2 [Script.definitions] at hdefs
  nth_rewrite 2 [Script.generate] at hchunks
  simp only [LiesAt.append_iff, List.length_append, length_definitionsOf, length_chunksOf,
    Nat.zero_add] at hdefs hchunks
  constructor
  · have hperm := ((perm_definitionsOf s.before).append (perm_definitionsOf s.entry)).append
      (perm_definitionsOf s.after)
    rw [← List.map_append, ← List.map_append] at hperm
    refine hperm.nodup_iff.2 ((Script.nodup_functions h).sublist ?_)
    exact ((List.sublist_append_left _ _).append (.refl _)).append (.refl _)
  · rw [hlength]
    simp only [Script.generate, List.length_append, length_chunksOf]
  · intro i d hi
    have hlt := (List.getElem?_eq_some_iff.1 hi).1
    simp only [Script.fits, Bool.and_eq_true] at h
    have hbefore := linked_body s.before h.1.1 hdefs.1.1 hchunks.1.1
    have hentry := linked_body s.entry h.1.2 hdefs.1.2 hchunks.1.2
    have hafter := linked_body s.after h.2 hdefs.2 hchunks.2
    rw [← Nat.zero_add (countOf s.before)] at hentry
    rw [← Nat.zero_add (countOf s.before + countOf s.entry)] at hafter
    exact ((hbefore.append hentry).append hafter) i d (Nat.zero_le i)
      (by rw [Nat.zero_add, ← hlength]; exact hlt) hi

end Tree

end Naskah
