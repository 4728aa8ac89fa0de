/-
  Calls of functions in compiled programs.  The code of a function begins by storing its arguments,
  the first one first, so the frame of a call binds every parameter to its argument
  (`runFor_stores`).  While the function runs, what its caller has on the stack stays there, and the
  function leaves nothing on it but its value, wherever it returns (`runFor_call`).
-/
import Naskah.Proofs.Compile.Verified
import Naskah.Proofs.Compile.WellFormed
import Naskah.Proofs.Machine.Levels

namespace Naskah

/-! ## Arguments -/

/-- Binds names to values, one after the other. -/
def Env.setAll (e : Env) (xs : List String) (vs : List Value) : Env :=
  (xs.zip vs).foldl (fun e b => e.set b.1 b.2) e

namespace Env

theorem setAll_cons (e : Env) (x : String) (xs : List String) (v : Value) (vs : List Value) :
    e.setAll (x :: xs) (v :: vs) = (e.set x v).setAll xs vs := rfl

theorem get?_setAll_of_notMem {x : String} : ∀ {xs : List String} {vs : List Value} {e : Env},
    x ∉ xs → (e.setAll xs vs).get? x = e.get? x
  | [], _, _, _ => rfl
  | _ :: _, [], _, _ => rfl
  | y :: xs, v :: vs, e, h => by
    rw [List.mem_cons, not_or] at h
    rw [setAll_cons, get?_setAll_of_notMem h.2, get?_set_of_ne _ h.1]

/-- Every name is bound to the value in its place. -/
theorem get?_setAll {x : String} {v : Value} : ∀ {xs : List String} {vs : List Value} {e : Env}
    {i : Nat}, xs.Nodup → xs[i]? = some x → vs[i]? = some v →
      (e.setAll xs vs).get? x = some v
  | [], _, _, _, _, hx, _ => by cases hx
  | _ :: _, [], _, _, _, _, hv => by cases hv
  | y :: xs, w :: vs, e, 0, hn, hx, hv => by
    cases hx
    cases hv
    rw [List.nodup_cons] at hn
    rw [setAll_cons, get?_setAll_of_notMem hn.1, get?_set_self]
  | y :: xs, w :: vs, e, i + 1, hn, hx, hv => by
    rw [List.nodup_cons] at hn
    rw [setAll_cons]
    exact get?_setAll hn.2 hx hv

end Env

namespace Machine

variable {p : Program} {m m' : Machine}

/-- **Arguments are stored one by one**, the topmost first. -/
theorem runFor_stores {whole : List Instruction} (xs : List String) {vs rest : List Value}
    (hl : xs.length = vs.length) (hc : m.current.code p = .ok whole)
    (hcode : LiesAt whole m.current.ip (xs.map .storeName)) (hs : m.stack = vs ++ rest) :
    runFor p xs.length m = .ok none { m with
      current := { m.current with
        ip := m.current.ip + xs.length, locals := m.current.locals.setAll xs vs }
      stack := rest } := by
  induction xs generalizing m vs with
  | nil =>
    obtain rfl := List.length_eq_zero_iff.1 hl.symm
    obtain rfl : m.stack = rest := hs
    rfl
  | cons x xs ih =>
    cases vs with
    | nil => cases hl
    | cons v vs =>
      rw [List.map_cons, LiesAt.cons_iff] at hcode
      have hstep := (step_fetch hc hcode.1).trans (execute_storeName (m := m.fetched) hs x)
      rw [List.length_cons, runFor_succ, hstep, Env.setAll_cons]
      have hrest := @ih { m.fetched with
        current := { m.fetched.current with locals := m.current.locals.set x v }
        stack := vs ++ rest } vs (by simpa using hl) hc hcode.2 rfl
      rw [Nat.add_comm xs.length 1, ← Nat.add_assoc]
      exact hrest

end Machine

/-! ## Calls -/

open Machine

/-- **Calls of compiled programs.**  When a function is called with as many arguments as it has
    parameters, and there is room for its frame, it is entered, and the code at its beginning binds
    every parameter to the argument in its place and takes the arguments from the stack; the
    function is also bound to its name, unless that is the name of a parameter.  From then on the
    call is running, with its caller and what the caller has on the stack untouched, or it has
    returned to the caller, with its value on top of what was there before the function and the
    arguments were pushed.  In 32 bits this is about programs with fewer than `2 ^ 32` labels,
    instructions and chunks. -/
theorem runFor_call {text : String} {p : Program} (hp : compile text = .ok p) {m : Machine}
    {k : Nat} {name : String} {args rest : List Value} {chunk : Chunk}
    (hi : m.Next p (.call args.length)) (hs : m.stack = args.reverse ++ .function k name :: rest)
    (hk : p.chunks[k]? = some chunk) (ha : chunk.params.length = args.length)
    (hd : m.frames.length < maxFrames) :
    (∃ locals : Env,
      runFor p (1 + args.length) m = .ok none
        { current := { chunk := some k, ip := args.length, locals, base := rest.length }
          callers := m.fetched.current :: m.callers
          stack := rest
          output := m.output } ∧
      (∀ (i : Nat) x v, (chunk.params.map Param.name)[i]? = some x → args[i]? = some v →
        locals.get? x = some v) ∧
      ∀ x, x ∉ chunk.params.map Param.name →
        locals.get? x = if x = name then some (.function k name) else none) ∧
    ∀ n m', runFor p (n + 1) m = .ok none m' →
      m.fetched.current :: m.callers <:+ m'.callers ∧ rest <:+ m'.stack ∨
      ∃ j ≤ n, ∃ last v, runFor p j m = .ok none last ∧
        last.callers = m.fetched.current :: m.callers ∧ last.Next p .ret ∧
        last.stack = v :: rest ∧
        runFor p (j + 1) m = .ok none
          { current := m.fetched.current
            callers := m.callers
            stack := v :: rest
            output := last.output } := by
  have hverified : p.Verified := (compile_yields text).of_ok hp
  obtain ⟨d, c, c', hdesk, -, hfinish⟩ := exists_of_compile hp
  obtain ⟨hnodup, hheader⟩ := (hdesk.regular.finish hfinish).params chunk (List.mem_of_getElem? hk)
  obtain ⟨code, hcode, hnext⟩ := hi
  have hcall : step p m = .ok none ({ m.fetched with stack := rest }.entered k name args) :=
    (step_fetch hcode hnext).trans (execute_call_function (m := m.fetched) hs hk ha hd)
  have hchunk : ({ m.fetched with stack := rest }.entered k name args).current.code p =
      .ok chunk.code := by
    unfold Frame.code entered
    simp only [hk]
  constructor
  · refine ⟨Env.setAll [(name, .function k name)] (chunk.params.map Param.name) args, ?_, ?_, ?_⟩
    · have hstores := runFor_stores (chunk.params.map Param.name) (by simpa using ha) hchunk
        (show LiesAt chunk.code 0 _ by rw [List.map_map]; exact hheader) rfl
      rw [runFor_add (runFor_one hcall), ← ha, ← List.length_map (f := Param.name), hstores]
      simp [entered, fetched]
    · exact fun i x v hx hv => Env.get?_setAll hnodup hx hv
    · intro x hx
      rw [Env.get?_setAll_of_notMem hx, Env.get?, List.lookup_cons]
      by_cases h : x = name
      · rw [if_pos h, h, beq_self_eq_true]
      · rw [if_neg h, beq_eq_false_iff_ne.2 h]
        rfl
  · intro n m' hr
    have hinside : ({ m.fetched with stack := rest }.entered k name args).Inside p
        (m.fetched.current :: m.callers) rest := .of_entered hverified hk ha
    rw [runFor_succ, hcall] at hr
    rcases hinside.run hverified hr with h | ⟨j, hj, last, v, hlast, hv, hret⟩
    · exact .inl h.suffix
    · refine .inr ⟨j + 1, by omega, last, v, ?_, hv.callers, hv.next, hv.stack, ?_⟩
      · rw [runFor_succ, hcall]
        exact hlast
      · rw [runFor_succ, hcall]
        exact hret

/-- A function that returns from a condition in a loop. -/
def gap : String :=
  "fungsi f(a,b)\x7bselama(a<b)\x7bjika(b>2)\x7bhasilkan b-a;\x7db+=1;\x7d\x7d" ++
    "utama()\x7btampilkan(f(1,2));\x7d"

def gapProgram : Program where
  code := [.loadConst (.chunk 0), .makeFunction "f", .storeName "f", .loadName "__name__",
    .loadConst (.string "__main__"), .compare .eq, .jumpIfFalse 15, .loadName Builtin.print.name,
    .loadName "f", .loadConst (.int 1), .loadConst (.int 2), .call 2, .buildString 1, .call 1, .pop,
    .loadConst .null, .ret]
  chunks := [{
    name := "f"
    params := [⟨"a", .any⟩, ⟨"b", .any⟩]
    code := [.storeName "a", .storeName "b", .loadName "a", .loadName "b", .compare .lt,
      .jumpIfFalse 20, .loadName "b", .loadConst (.int 2), .compare .gt, .jumpIfFalse 15,
      .loadName "b", .loadName "a", .binary .sub, .ret, .jump 15, .loadName "b",
      .loadConst (.int 1), .binary .add, .storeName "b", .jump 2, .loadConst .null, .ret]
    line := 1 }]

/-- The machine in front of the call. -/
def gapMachine : Machine where
  current :=
    { chunk := none
      ip := 11
      locals := [("__name__", .string "__main__"), ("f", .function 0 "f")] }
  stack := [.int 2, .int 1, .function 0 "f", .builtin .print]

/-- The number of frames that wait after a run that goes on. -/
def waiting? : EStateM.Result Fault Machine (Option Value) → Option Nat
  | .ok none m => some m.callers.length
  | _ => none

theorem waiting?_eq_some {r : EStateM.Result Fault Machine (Option Value)} {n : Nat}
    (h : waiting? r = some n) : ∃ m, r = .ok none m ∧ m.callers.length = n := by
  unfold waiting? at h
  split at h
  · next m => exact ⟨m, rfl, Option.some.inj h⟩
  · cases h

/-- The call binds its parameters, and returns in the second round of its loop. -/
theorem runFor_gap : compile gap = .ok gapProgram ∧
    runFor gapProgram 11 start = .ok none gapMachine ∧ gapMachine.Next gapProgram (.call 2) ∧
    (∃ locals : Env, runFor gapProgram 3 gapMachine = .ok none
        { current := { chunk := some 0, ip := 2, locals, base := 1 }
          callers := [gapMachine.fetched.current]
          stack := [.builtin .print] } ∧
      locals.get? "a" = some (.int 1) ∧ locals.get? "b" = some (.int 2) ∧
      locals.get? "f" = some (.function 0 "f")) ∧
    ∃ j ≤ 27, ∃ last v, runFor gapProgram j gapMachine = .ok none last ∧
      last.Next gapProgram .ret ∧ last.stack = [v, .builtin .print] ∧
      runFor gapProgram (j + 1) gapMachine = .ok none
        { current := gapMachine.fetched.current
          stack := [v, .builtin .print]
          output := last.output } := by
  have hc : compile gap = .ok gapProgram := by decide +kernel
  have hi : gapMachine.Next gapProgram (.call 2) := ⟨_, rfl, rfl⟩
  have hs : gapMachine.stack =
      [.int 1, .int 2].reverse ++ .function 0 "f" :: [.builtin .print] := rfl
  obtain ⟨⟨locals, hrun, hparams, hself⟩, hreturn⟩ := runFor_call hc hi hs rfl rfl (by decide)
  refine ⟨hc, rfl, hi, ⟨locals, hrun, hparams 0 _ _ rfl rfl, hparams 1 _ _ rfl rfl,
    hself "f" (by decide)⟩, ?_⟩
  have hback : waiting? (runFor gapProgram 28 gapMachine) = some 0 := by decide +kernel
  obtain ⟨m', hm', hcallers⟩ := waiting?_eq_some hback
  rcases hreturn 27 m' hm' with ⟨h, -⟩ | ⟨j, hj, last, v, hlast, -, hret, hstack, hnext⟩
  · have hle := h.length_le
    rw [hcallers] at hle
    cases hle
  · exact ⟨j, hj, last, v, hlast, hret, hstack, hnext⟩

end Naskah
