/-
  The entry point is not skipped.  Its guard asks whether `__name__` is `__main__`, which it is when
  a run begins.  A run that comes to the guard goes on with the body of the entry point, unless the
  source itself has bound `__name__` outside of functions in front of it, to something else
  (`runFor_entry`).
-/
import Naskah.Proofs.Compile.WellFormed
import Naskah.Proofs.Desk.Entry
import Naskah.Proofs.Machine.Steps

namespace Naskah

/-! ## The course of a source -/

namespace Desk

/-- The code of the body of an entry point whose head has just been read, where the body ends. -/
def Encloses (d : Desk) (c : Cursor) (body : List Asm) : Prop :=
  ∃ d₁ c₁ d₂ c₂ b exit, Leads d c d₁ c₁ ∧ Takes d₁ c₁ d₂ c₂ ∧ d₁.blocks = [.function b] ∧
    b.role = .entry exit ∧ d₂.blocks = [] ∧ b.content = body

/-- The curly bracket after the head of the entry point is all that can come next. -/
theorem Move.not_entering {awaited : Option Token} {c : Cursor} {d d' : Desk} {line : UInt32}
    (hm : Move c d awaited d') (hs : d.Shape awaited) (hh : d.header = some (.entry line)) :
    ¬ d'.Entering := by
  cases hs with
  | ready h => rw [h.header] at hh; cases hh
  | chained h => rw [h] at hh; cases hh
  | headed _ hi =>
    cases hm with
    | collect ht ha => rw [ha _ rfl] at ht; cases ht
    | beginFunction | beginEntry | beginChain | beginLoop | beginFurther =>
      exact Desk.not_entering (by simp [hi.run]) hi.outer rfl

end Desk

section
variable {text x : String} {d : Desk} {c : Cursor} {p : Program}

/-- A name has been bound outside of functions on the way to a desk. -/
def BoundBefore (text x : String) (d : Desk) (c : Cursor) : Prop :=
  ∃ d' c', Passes text d' c' ∧ Desk.Leads d' c' d c ∧ d'.BindsOutside x

theorem Passes.announced (h : Passes text d c) : d.Announced :=
  (Desk.Leads.keeps (P := fun d _ => d.Announced) h (Desk.standing_empty _) Desk.sound_empty
    ⟨fun he => absurd he (Desk.not_entering rfl rfl rfl), by simp⟩
    fun _ _ hm hs _ ha => hm.announced hs ha).2.2

theorem Desk.early_empty (x : String) : ({} : Desk).Early x where
  outside := by simp
  undeclared := rfl
  spared := ⟨trivial, by simp, by simp⟩
  unstored := ⟨⟨[], rfl, by simp [Unstored]⟩, trivial⟩

/-- A source comes to its entry point once, and has nothing to do with a name until then or has
    bound it outside of functions. -/
theorem Passes.early (h : Passes text d c) (x : String) : BoundBefore text x d c ∨ d.Early x ∨
    entryName ∈ d.functions.declared ∧ ¬ d.Entering := by
  refine (Desk.Leads.keeps (P := fun d c => BoundBefore text x d c ∨ d.Early x ∨
    entryName ∈ d.functions.declared ∧ ¬ d.Entering) h (Desk.standing_empty _) Desk.sound_empty
    (.inr (.inl (Desk.early_empty x))) ?_).2.2
  intro d₁ d₂ c₁ c₂ awaited hl ht hm hs hsnd hP
  rcases hP with ⟨d', c', hp, hl', hb⟩ | he | ⟨hdec, hne⟩
  · exact .inl ⟨d', c', hp, hl'.take ht, hb⟩
  · by_cases hb : d₁.BindsOutside x
    · exact .inl ⟨d₁, c₁, hl, .take .refl ht, hb⟩
    · rcases hm.early hs hsnd (Passes.regular hl).pending hb he with he | ⟨line, hh⟩
      · exact .inr (.inl he)
      · have hdec := (Passes.announced hl).declared (.inr ⟨line, hh⟩)
        exact .inr (.inr ⟨hm.declared hdec, hm.not_entering hs hh⟩)
  · refine .inr (.inr ⟨hm.declared hdec, fun hen => ?_⟩)
    rcases hm.of_entering hs hen with ⟨hen, -⟩ | ⟨hno, -⟩
    · exact hne hen
    · exact hno hdec

/-- What is finished has an entry point, and is not in the middle of something. -/
theorem Desk.hasEntry_of_finish (h : d.finish c = .ok p) :
    d.hasEntry = true ∧ d.run.tokens = [] := by
  unfold finish at h
  split at h
  · cases h
  · split at h
    · cases h
    · next ht =>
      split at h
      · cases h
      · split at h
        · cases h
        · next he => exact ⟨by simpa using he, by simpa using ht⟩

/-- **A source that compiles has an entry point.** -/
theorem exists_entry (h : compile text = .ok p) :
    ∃ d c line, Passes text d c ∧ d.header = some (.entry line) := by
  obtain ⟨D, cD, cE, hD, -, hf⟩ := exists_of_compile h
  obtain ⟨hent, htok⟩ := Desk.hasEntry_of_finish hf
  obtain ⟨hblocks, hheader, -⟩ := Desk.of_finish hf
  -- once the entry point has come up, its brackets are open or its head has been read
  obtain ⟨⟨awaited, hs, -⟩, -, hP⟩ := Desk.Leads.keeps
    (P := fun d _ => d.hasEntry = true → d.Entering ∨
      ∃ d₁ c₁ line, Passes text d₁ c₁ ∧ d₁.header = some (.entry line))
    hD (Desk.standing_empty _) Desk.sound_empty (by simp) fun hl _ hm hs _ hP he => by
      rcases hm.hasEntry he with he | he
      · rcases hP he with hen | hex
        · exact (hm.entering hs hen).imp_right fun ⟨line, hh⟩ => ⟨_, _, line, hl, hh⟩
        · exact .inr hex
      · exact .inl he
  refine (hP hent).resolve_left ?_
  cases hs with
  | ready h =>
    have hr : D.run.rounds = [] := by
      by_contra hne
      have hm := h.brackets D.run (by simp) hne
      simp [htok] at hm
    have ho : D.outer = [] := by
      have hst := h.stacked
      rw [hblocks] at hst
      generalize hk : D.outer.length = k at hst
      cases hst with
      | opened => exact List.length_eq_zero_iff.1 hk
    exact Desk.not_entering hr ho hheader
  | headed _ hi | chained _ hi => exact Desk.not_entering (by simp [hi.run]) hi.outer hheader

end

/-! ## Runs -/

open Machine

section
variable {p : Program} {m m' : Machine} {x : String} {v : Value} {k e : Nat}

/-- Code that does not store a name up to an offset, and does not jump back there, has the name
    bound to the same value when it comes to the offset. -/
theorem Machine.Shift.bound_up_to (hm : Shift p m m')
    (hstore : ∀ {n}, n < k → p.code[n]? ≠ some (.storeName x))
    (hjump : ∀ {n i}, k ≤ n → p.code[n]? = some i → ∀ t ∈ i.target?, k < t)
    (h : Layered (fun f => f.ip ≤ k → f.locals.get? x = some v) (fun _ => True) m.frames) :
    Layered (fun f => f.ip ≤ k → f.locals.get? x = some v) (fun _ => True) m'.frames := by
  refine hm.layered h (fun hc hk f hf => ?_) (fun _ _ _ => trivial) fun _ _ _ _ => trivial
  cases hf with
  | next => exact fun hle => hk (Nat.le_of_succ_le hle)
  | @store y w hi =>
    intro hle
    have hne : x ≠ y := by
      rintro rfl
      exact hstore (Nat.lt_of_succ_le hle) (hi.of_module hc)
    show (Env.set _ y w).get? x = some v
    rw [Env.get?_set_of_ne _ hne]
    exact hk (Nat.le_of_succ_le hle)
  | @jump i t hi ht =>
    intro hle
    refine hk (Nat.le_of_not_lt fun hlt => ?_)
    exact Nat.not_lt.2 hle (hjump (Nat.le_of_lt hlt) (hi.of_module hc) t ht)

/-- A name that the module has bound stays bound. -/
theorem Machine.Shift.bound (hm : Shift p m m')
    (h : Layered (fun f => (f.locals.get? x).isSome = true) (fun _ => True) m.frames) :
    Layered (fun f => (f.locals.get? x).isSome = true) (fun _ => True) m'.frames := by
  refine hm.layered h (fun _ hk f hf => ?_) (fun _ _ _ => trivial) fun _ _ _ _ => trivial
  cases hf with
  | next | jump => exact hk
  | @store y w =>
    show ((Env.set _ y w).get? x).isSome = true
    by_cases hx : x = y
    · subst hx
      rw [Env.get?_set_self]
      rfl
    · rw [Env.get?_set_of_ne _ hx]
      exact hk

/-- The module is the only frame when it runs, and has `__name__` bound. -/
theorem runFor_name {n : Nat} (h : runFor p n start = .ok none m) (hc : m.current.chunk = none) :
    m.callers = [] ∧ ∃ v, m.global? "__name__" = some v := by
  have hl : Layered (fun f => (f.locals.get? "__name__").isSome = true) (fun _ => True)
      (left (runFor p n start)).frames :=
    runFor_keeps (fun h hs => hs.bound h) (by exact .module rfl rfl) n
  rw [h] at hl
  exact ⟨(Layered.eq_nil hl hc).1, Option.isSome_iff_exists.1 hl.moduleFrame⟩

/-- Nothing in front of an offset stores `__name__`, so it is still `__main__` there. -/
theorem runFor_main {n : Nat} (h : runFor p n start = .ok none m) (hc : m.current.chunk = none)
    (hstore : ∀ {n}, n < m.current.ip → p.code[n]? ≠ some (.storeName "__name__"))
    (hjump : ∀ {n i}, m.current.ip ≤ n → p.code[n]? = some i → ∀ t ∈ i.target?, m.current.ip < t) :
    m.global? "__name__" = some (.string "__main__") := by
  have hl : Layered (fun f => f.ip ≤ m.current.ip →
      f.locals.get? "__name__" = some (.string "__main__")) (fun _ => True)
      (left (runFor p n start)).frames :=
    runFor_keeps (fun h hs => hs.bound_up_to hstore hjump h) (.module rfl fun _ => rfl) n
  rw [h] at hl
  have hcs : m.callers = [] := (Layered.eq_nil hl hc).1
  refine hl.moduleFrame ?_
  show m.moduleFrame.ip ≤ m.current.ip
  simp [moduleFrame, hcs]

/-- A value is equal to a text if and only if it is that text. -/
theorem Comparison.eq_apply_string (v : Value) (s : String) :
    Comparison.eq.apply v (.string s) = .ok (decide (v = .string s)) := by
  cases v with
  | string a =>
    have hc : (compare a s).isEq = decide (a = s) := by
      rw [Bool.eq_iff_iff, Ordering.isEq_iff_eq_eq, decide_eq_true_eq]
      exact Std.compare_eq_iff_eq
    simp [Comparison.apply, Value.order?, hc]
  | null | int _ | float _ | bool _ | chunk _ | function _ _ | builtin _ => rfl

/-- **The guard of the entry point** lets a run through if `__name__` is `__main__`, and otherwise
    leads it behind the body. -/
theorem runFor_guard (hc : m.current.chunk = none) (hcs : m.callers = [])
    (hv : m.global? "__name__" = some v) (he : e ≤ p.code.length)
    (hcode : (p.code.drop m.current.ip).take 4 = [.loadName "__name__",
      .loadConst (.string "__main__"), .compare .eq, .jumpIfFalse e]) :
    runFor p 4 m = .ok none
      (m.jumped (if v = .string "__main__" then m.current.ip + 4 else e)) := by
  -- the instructions of the guard, one by one
  have fetch : ∀ (m₁ : Machine) {n : Nat} {i : Instruction}, m₁.current.chunk = none →
      m₁.current.ip = m.current.ip + n → n < 4 →
      ([.loadName "__name__", .loadConst (.string "__main__"), .compare .eq, .jumpIfFalse e] :
        List Instruction)[n]? = some i → step p m₁ = execute p i m₁.fetched := by
    intro m₁ n i hc hip hn hi
    rw [← hcode, List.getElem?_take_of_lt hn, List.getElem?_drop, ← hip] at hi
    exact step_fetch (by simp only [Frame.code, hc]) hi
  have hlook : m.fetched.lookup "__name__" = .ok v := by
    have hl : m.current.locals.get? "__name__" = some v := by
      rw [← hv]
      simp [global?, moduleFrame, hcs]
    rw [lookup_fetched]
    simp [lookup, hl]
  let m₁ : Machine := { m.fetched with stack := v :: m.stack }
  let m₂ : Machine := { m₁.fetched with stack := .string "__main__" :: v :: m.stack }
  let m₃ : Machine := { m₂.fetched with stack := .bool (decide (v = .string "__main__")) :: m.stack }
  have h₁ : step p m = .ok none m₁ :=
    (fetch m (n := 0) hc rfl (by decide) rfl).trans (execute_loadName hlook)
  have h₂ : step p m₁ = .ok none m₂ := fetch m₁ (n := 1) hc rfl (by decide) rfl
  have h₃ : step p m₂ = .ok none m₃ := (fetch m₂ (n := 2) hc rfl (by decide) rfl).trans
    (execute_compare (m := m₂.fetched) rfl (Comparison.eq_apply_string v "__main__"))
  have h₄ : step p m₃ = .ok none
      (m.jumped (if v = .string "__main__" then m.current.ip + 4 else e)) := by
    rw [fetch m₃ (n := 3) hc rfl (by decide) rfl]
    split
    · next hm => exact execute_jumpIfFalse_true (m := m₃.fetched) rfl (by simp [Value.isTruthy, hm])
    · next hm =>
      have hcode : m₃.fetched.current.code p = .ok p.code := by
        show m.current.code p = _
        simp only [Frame.code, hc]
      exact execute_jumpIfFalse_false (m := m₃.fetched) rfl (by simp [Value.isTruthy, hm]) hcode he
  calc runFor p 4 m = runFor p 3 m₁ := runFor_add (runFor_one h₁) 3
    _ = runFor p 2 m₂ := runFor_add (runFor_one h₂) 2
    _ = runFor p 1 m₃ := runFor_add (runFor_one h₃) 1
    _ = _ := runFor_one h₄

end

/-! ## Assembled code -/

/-- The guard of the entry point at an offset of the module, with a body behind it, and the offset
    behind the body. -/
structure Program.GuardsAt (p : Program) (k : Nat) (body : List Asm) (e : Nat) : Prop where
  behind : e = k + 4 + (Asm.instrs body).length
  guard : (p.code.drop k).take 4 = [.loadName "__name__", .loadConst (.string "__main__"),
    .compare .eq, .jumpIfFalse e]
  body : ∃ place, (p.code.drop (k + 4)).take (Asm.instrs body).length =
    (Asm.instrs body).map (Instr.relabel place)

theorem Program.GuardsAt.le_length {p : Program} {k e : Nat} {body : List Asm}
    (h : p.GuardsAt k body e) : e ≤ p.code.length := by
  have hg := congrArg List.length h.guard
  obtain ⟨place, hb⟩ := h.body
  have hb := congrArg List.length hb
  have he := h.behind
  simp only [List.length_take, List.length_drop, List.length_cons, List.length_nil,
    List.length_map] at hg hb
  omega

section
variable {p : Program} {base body rest : List Asm} {exit : Label}

/-- The instructions of the guard. -/
def guardCode (exit : Label) : List Asm :=
  [.op (.loadName "__name__"), .op (.loadConst (.string "__main__")), .op (.compare .eq),
    .op (.jumpIfFalse exit)]

theorem entryCode_eq : FunctionBlock.entryCode exit body =
    guardCode exit ++ (body ++ [.mark exit]) := by
  simp [FunctionBlock.entryCode, guardCode]

/-- Assembled code has the guard and the body of the entry point behind the code in front of it. -/
theorem guardsAt_of_assemble
    (h : Asm.assemble (base ++ (FunctionBlock.entryCode exit body ++ rest)) = .ok p.code) :
    ∃ e, p.GuardsAt (Asm.instrs base).length body e := by
  obtain ⟨hnd, -, -, hp⟩ := Asm.assemble_eq_ok_iff.1 h
  have hplace : Asm.place (base ++ (FunctionBlock.entryCode exit body ++ rest)) exit =
      (Asm.instrs base).length + 4 + (Asm.instrs body).length := by
    have he : base ++ (FunctionBlock.entryCode exit body ++ rest) =
        base ++ guardCode exit ++ body ++ .mark exit :: rest := by simp [entryCode_eq]
    rw [he] at hnd ⊢
    rw [Asm.place_eq ?_]
    · simp [guardCode]
      omega
    · rw [Asm.marks_append, List.nodup_append] at hnd
      exact fun hm => hnd.2.2 exit hm exit (by simp) rfl
  generalize Asm.place (base ++ (FunctionBlock.entryCode exit body ++ rest)) = place at hp hplace
  refine ⟨place exit, hplace, ?_, place, ?_⟩
  · rw [hp, entryCode_eq]
    simp [guardCode, Instr.relabel]
  · have hparts : p.code = (Asm.instrs (base ++ guardCode exit)).map (Instr.relabel place) ++
        ((Asm.instrs body).map (Instr.relabel place) ++
          (Asm.instrs rest).map (Instr.relabel place)) := by
      rw [hp, entryCode_eq]
      simp
    rw [hparts, List.drop_left' (by simp [guardCode]), List.take_left' (by simp)]

/-- Code behind the head of the entry point does not jump back to the guard. -/
theorem lt_target_of_assemble
    (h : Asm.assemble (base ++ (FunctionBlock.entryCode exit body ++ rest)) = .ok p.code)
    (ht : ∀ l ∈ Asm.targets (FunctionBlock.entryCode exit body ++ rest),
      l ∈ Asm.marks (FunctionBlock.entryCode exit body ++ rest)) {n : Nat} {i : Instruction}
    (hn : (Asm.instrs base).length ≤ n) (hi : p.code[n]? = some i) :
    ∀ t ∈ i.target?, (Asm.instrs base).length < t := by
  obtain ⟨e, hk⟩ := guardsAt_of_assemble h
  by_cases hlt : n < (Asm.instrs base).length + 4
  · -- the guard itself
    obtain ⟨j, rfl⟩ := Nat.exists_eq_add_of_le hn
    have hj : j < 4 := by omega
    rw [← List.getElem?_drop, ← List.getElem?_take_of_lt hj, hk.guard] at hi
    have hm := List.mem_of_getElem? hi
    simp only [List.mem_cons, List.not_mem_nil, or_false] at hm
    rcases hm with rfl | rfl | rfl | rfl
    · nofun
    · nofun
    · nofun
    · rintro t ⟨⟩
      rw [hk.behind]
      omega
  · have hcode : base ++ (FunctionBlock.entryCode exit body ++ rest) =
        (base ++ guardCode exit) ++ (body ++ .mark exit :: rest) := by simp [entryCode_eq]
    have hlen : (Asm.instrs (base ++ guardCode exit)).length = (Asm.instrs base).length + 4 := by
      simp [guardCode]
    rw [hcode] at h
    intro t htt
    have hle := Asm.le_target_of_assemble h (fun l hl => ?_) (by omega) hi t htt
    · omega
    · have hm := ht l (by simp [entryCode_eq, guardCode] at hl ⊢; tauto)
      simpa [entryCode_eq, guardCode] using hm

end

/-! ## The entry point -/

/-- **The entry point is not skipped.**  A source that compiles has an entry point.  Where its head
    has been read, the module goes on with the guard, which is followed by the body.  A run that
    comes to the guard goes on with the body, or behind it if the source has bound `__name__`
    outside of functions in front of the entry point, and it is not `__main__` by then.  In 32 bits
    this is about programs with fewer than `2 ^ 32` labels, instructions and chunks. -/
theorem runFor_entry {text : String} {p : Program} (h : compile text = .ok p) :
    (∃ d c line, Passes text d c ∧ d.header = some (.entry line)) ∧
      ∀ d c line, Passes text d c → d.header = some (.entry line) → ∃ k e body,
        k = (Asm.instrs d.code).length ∧ d.Encloses c body ∧ p.GuardsAt k body e ∧
          ∀ n m, runFor p n start = .ok none m → m.current.chunk = none → m.current.ip = k →
            runFor p 4 m = .ok none (m.jumped (k + 4)) ∨
              runFor p 4 m = .ok none (m.jumped e) ∧ BoundBefore text "__name__" d c ∧
                ∃ v, m.global? "__name__" = some v ∧ v ≠ .string "__main__" := by
  refine ⟨exists_entry h, fun d c line hd hh => ?_⟩
  obtain ⟨D, cD, cE, hD, hend, hf⟩ := exists_of_compile h
  obtain ⟨hblocks, hheader, -, hcode⟩ := Desk.of_finish hf
  obtain ⟨⟨awaited, hs, hst⟩, hsound⟩ := hd.sound
  -- the module at the end of the course
  obtain ⟨-, -, hB⟩ := Desk.Leads.keeps (P := fun D _ => D.Beyond d.code (d.Encloses c))
    (hd.to_end hD hend) ⟨awaited, hs, hst⟩ hsound
    (.headed hh (hd.announced.blocks_eq_nil hs hh) rfl) fun hl ht hm hs hsnd hB =>
      hm.beyond hs hsnd (fun b exit hb hr hnil => ⟨_, _, _, _, b, exit, hl, ht, hb, hr, hnil, rfl⟩) hB
  cases hB with
  | headed hh' => rw [hheader] at hh'; cases hh'
  | inside hr =>
    rw [hblocks] at hr
    obtain ⟨inner, b, exit, he, -⟩ := hr
    simp at he
  | @behind exit body rest hbody hc ht =>
    have hcode : Asm.assemble (d.code ++ (FunctionBlock.entryCode exit body ++
        (rest ++ FunctionBlock.returnNull))) = .ok p.code := by
      rw [← hcode, hc]
      simp
    have ht : ∀ l ∈ Asm.targets (FunctionBlock.entryCode exit body ++
        (rest ++ FunctionBlock.returnNull)),
        l ∈ Asm.marks (FunctionBlock.entryCode exit body ++ (rest ++ FunctionBlock.returnNull)) := by
      intro l hl
      rw [← List.append_assoc] at hl ⊢
      rw [Asm.targets_append, returnNull_targets, List.append_nil] at hl
      rw [Asm.marks_append, List.mem_append]
      exact .inl (ht l hl)
    obtain ⟨e, hk⟩ := guardsAt_of_assemble hcode
    refine ⟨_, e, body, rfl, hbody, hk, fun n m hrun hchunk hip => ?_⟩
    obtain ⟨hcallers, v, hv⟩ := runFor_name hrun hchunk
    have hguard := runFor_guard hchunk hcallers hv hk.le_length (hip ▸ hk.guard)
    by_cases hmain : v = .string "__main__"
    · rw [if_pos hmain, hip] at hguard
      exact .inl hguard
    · rw [if_neg hmain] at hguard
      refine .inr ⟨hguard, ?_, v, hv, hmain⟩
      rcases hd.early "__name__" with hb | hearly | ⟨-, hne⟩
      · exact hb
      · have hstore : ∀ {n}, n < (Asm.instrs d.code).length →
            p.code[n]? ≠ some (.storeName "__name__") := by
          intro n hn hi
          rw [Asm.assemble_append hcode, List.getElem?_append_left (by simpa using hn)] at hi
          exact hearly.unstored.all (by simp [Exposed])
            (Asm.mem_of_storeName (List.mem_of_getElem? hi))
        have hv' := runFor_main hrun hchunk (hip ▸ hstore) (hip ▸ lt_target_of_assemble hcode ht)
        rw [hv] at hv'
        exact absurd (Option.some.inj hv') hmain
      · exact absurd (.inr ⟨line, hh⟩) hne

/-! ## Checking -/

/-- The head of the entry point has been read, behind `k` instructions of the module. -/
def Desk.headsAt (k : Nat) (d : Desk) : Bool :=
  match d.header with
  | some (.entry _) => (Asm.instrs d.code).length = k
  | _ => false

theorem Desk.of_headsAt {k : Nat} {d : Desk} (h : d.headsAt k = true) :
    ∃ line, d.header = some (.entry line) ∧ (Asm.instrs d.code).length = k := by
  unfold headsAt at h
  split at h
  · next line hh => exact ⟨line, hh, of_decide_eq_true h⟩
  · cases h

/-- A function with a variable `__name__` of its own, which is called in front of the entry
    point. -/
def enteredText : String := "fungsi f()\x7bvariabel __name__;\x7df();utama()\x7b0;\x7d"

/-- The program of that text. -/
def enteredProgram : Program where
  code := [.loadConst (.chunk 0), .makeFunction "f", .storeName "f", .loadName "f", .call 0, .pop,
    .loadName "__name__", .loadConst (.string "__main__"), .compare .eq, .jumpIfFalse 12,
    .loadConst (.int 0), .pop, .loadConst .null, .ret]
  chunks := [⟨"f", [], [.loadConst .null, .storeName "__name__", .loadConst .null, .ret], 1⟩]

/-- The run comes to the guard, and to the body. -/
theorem runFor_entered : compile enteredText = .ok enteredProgram ∧ ∃ d c line m,
    Passes enteredText d c ∧ d.header = some (.entry line) ∧
      runFor enteredProgram 10 start = .ok none m ∧ m.current.chunk = none ∧
      m.current.ip = (Asm.instrs d.code).length ∧
      runFor enteredProgram 4 m = .ok none (m.jumped 10) := by
  have hc : compile enteredText = .ok enteredProgram := by decide +kernel
  have hd : ((Desk.advance? 16 {} (.start (withEndMark enteredText))).any fun r =>
      r.1.headsAt 6) = true := by decide +kernel
  obtain ⟨⟨d, c⟩, hadv, hk⟩ := (Option.any_eq_true _ _).1 hd
  obtain ⟨line, hh, hk⟩ := Desk.of_headsAt hk
  have hp : Passes enteredText d c := .of_advance? hadv
  have hrun : runFor enteredProgram 10 start =
      .ok none (left (runFor enteredProgram 10 start)) := rfl
  have hip : (left (runFor enteredProgram 10 start)).current.ip = (Asm.instrs d.code).length := by
    rw [hk]
    rfl
  refine ⟨hc, d, c, line, _, hp, hh, hrun, rfl, hip, ?_⟩
  obtain ⟨k, e, body, rfl, -, -, hguard⟩ := (runFor_entry hc).2 d c line hp hh
  rcases hguard 10 _ hrun rfl hip with h | ⟨-, -, v, hv, hne⟩
  · rw [hk] at h
    exact h
  · cases hv
    exact absurd rfl hne

/-- A variable of the module that takes the place of `__name__`. -/
def shadowedText : String := "variabel __name__;utama()\x7btampilkan(1);\x7d"

/-- The program of that text. -/
def shadowedProgram : Program where
  code := [.loadConst .null, .storeName "__name__", .loadName "__name__",
    .loadConst (.string "__main__"), .compare .eq, .jumpIfFalse 11, .loadName "tampilkan",
    .loadConst (.int 1), .buildString 1, .call 1, .pop, .loadConst .null, .ret]
  chunks := []

/-- **An entry point can be skipped**: the run comes to the guard, jumps behind the body, and ends
    without having printed anything. -/
theorem runFor_shadowed : compile shadowedText = .ok shadowedProgram ∧ ∃ d c line m m',
    Passes shadowedText d c ∧ d.header = some (.entry line) ∧
      runFor shadowedProgram 2 start = .ok none m ∧ m.current.chunk = none ∧
      m.current.ip = (Asm.instrs d.code).length ∧
      shadowedProgram.code[m.current.ip + 3]? = some (.jumpIfFalse 11) ∧
      runFor shadowedProgram 4 m = .ok none (m.jumped 11) ∧
      runFor shadowedProgram 8 start = .ok (some .null) m' ∧ m'.output = #[] := by
  have hc : compile shadowedText = .ok shadowedProgram := by decide +kernel
  have hd : ((Desk.advance? 6 {} (.start (withEndMark shadowedText))).any fun r =>
      r.1.headsAt 2) = true := by decide +kernel
  obtain ⟨⟨d, c⟩, hadv, hk⟩ := (Option.any_eq_true _ _).1 hd
  obtain ⟨line, hh, hk⟩ := Desk.of_headsAt hk
  exact ⟨hc, d, c, line, _, _, .of_advance? hadv, hh, rfl, rfl, hk.symm, rfl, rfl, rfl, rfl⟩

end Naskah
