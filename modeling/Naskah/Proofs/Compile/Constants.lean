/-
  Constants of the module stay what they are.  Once the declaration of a constant outside of all
  blocks has run, no later code of the module stores its name, unless the entry point declares the
  name again or a function of that name is defined in the module or its entry point (`Rebinds`);
  and named functions have frames of their own.  So the value of the constant in the module never
  changes (`runFor_constant`).  In both of the other cases it can (`runFor_redeclared`,
  `runFor_redefined`).
-/
import Naskah.Proofs.Compile.Rendered
import Naskah.Proofs.Compile.WellFormed
import Naskah.Proofs.Desk.Spared
import Naskah.Proofs.Machine.Steps

namespace Naskah

namespace Desk

variable {c c' : Cursor} {d d' : Desk} {x : String} {base code : List Asm}

/-- A name of the module is bound once more: by a declaration in the entry point, or by the
    definition of a function in the module or its entry point. -/
def Rebinds (d : Desk) (x : String) : Prop :=
  d.host? = some entryName ∧ d.declaredName? = some x ∨
    (d.host? = none ∨ d.host? = some entryName) ∧ d.definedName? = some x

instance (d : Desk) (x : String) : Decidable (d.Rebinds x) :=
  inferInstanceAs (Decidable (_ ∨ _))

/-- A constant of the module whose name nothing on the desk is about to bind. -/
structure Settled (x : String) (d : Desk) : Prop where
  constant : ∃ info, d.globals.get? x = some info ∧ info.kind = .const
  spared : d.Spared x

/-- A constant is avoided, unless its name is bound once more. -/
theorem Settled.avoids (h : d.Settled x) (hx : ¬ d.Rebinds x) : d.Avoids x := by
  obtain ⟨info, hi, hk⟩ := h.constant
  refine ⟨fun info' hi' => ?_, fun he hno hl => ?_, fun he hf => hx (.inr ⟨?_, hf⟩)⟩
  · rw [hi] at hi'
    cases hi'
    exact hk
  · rcases names_of_exposed he with ⟨hg, -⟩ | ⟨b, -, -, -, hh⟩
    · rw [hg, hi] at hno
      cases hno
    · exact hx (.inl ⟨hh, hl⟩)
  · rcases names_of_exposed he with ⟨-, hh⟩ | ⟨b, -, -, -, hh⟩
    · exact .inl hh
    · exact .inr hh

/-- **Moves keep a constant settled**, unless its name is bound once more. -/
theorem Move.settled {awaited : Option Token} (hm : Move c d awaited d') (hs : d.Shape awaited)
    (hd : d.Sound) (hp : d.Pending) (hx : ¬ d.Rebinds x) (h : d.Settled x) : d'.Settled x where
  constant := by
    obtain ⟨info, hi, hk⟩ := h.constant
    rcases hm.globals hd hp x with hg | ⟨hno, -⟩
    · exact ⟨info, hg.trans hi, hk⟩
    · rw [hi] at hno
      cases hno
  spared := hm.spared hs hd hp (h.avoids hx) h.spared

/-- The code that the module has got since the constant was declared. -/
structure After (x : String) (base : List Asm) (d : Desk) : Prop where
  settled : d.Settled x
  unstored : d.Holds (Unstored x) base
  closed : ∃ code, d.code = base ++ code ∧ ∀ l ∈ Asm.targets code, l ∈ Asm.marks code

theorem Move.after {awaited : Option Token} (hm : Move c d awaited d') (hs : d.Shape awaited)
    (hd : d.Sound) (hp : d.Pending) (hx : ¬ d.Rebinds x) (h : d.After x base) :
    d'.After x base where
  settled := hm.settled hs hd hp hx h.settled
  unstored := hm.unstored hd hp (h.settled.avoids hx) h.settled.spared h.unstored
  closed := by
    obtain ⟨code, he, hc⟩ := h.closed
    rcases hm.code_cases hd with hd' | ⟨n, new, hd', hn⟩
    · exact ⟨code, hd'.trans he, hc⟩
    · refine ⟨code ++ new, by rw [hd', he, List.append_assoc], fun l hl => ?_⟩
      rw [Asm.targets_append, List.mem_append] at hl
      rw [Asm.marks_append, List.mem_append]
      exact hl.imp (hc l) fun hl => (hn.placed l hl).resolve_right (by simp)

/-! ## The declaration -/

/-- The semicolon behind a statement is read. -/
def Ends (d : Desk) (c : Cursor) (d' : Desk) (c' : Cursor) : Prop :=
  d.nesting.inString = false ∧ c.next = (.ok (.token (.punctuation .semicolon)), c') ∧
    d.endStatement c'.line = .ok d'

theorem Ends.takes (h : d.Ends c d' c') : Takes d c d' c' :=
  .token h.1 h.2.1 h.2.2

/-- What a declaration declares and stores. -/
theorem declaration_ensures {kind : NameKind} {line : UInt32} {l : Literal} {rest : List Token} :
    Ensures (d.declaration kind line (.identifier l :: rest)) fun r => ∃ type value names,
      d.names.declare l.text ⟨kind, type, l.line⟩ = .ok names ∧
        r = (value ++ [.op (.storeName l.text)], d.setNames names) := by
  unfold declaration
  refine Ensures.after fun r _ => ?_
  refine Ensures.after fun value _ => ?_
  refine Ensures.after fun names hn => ?_
  exact .pure ⟨r.1, value, names, hn, rfl⟩

/-- A statement is being read on a desk that waits for nothing. -/
theorem Shape.header_of_tokens {awaited : Option Token} (hs : d.Shape awaited)
    (ht : d.run.tokens ≠ []) : d.header = none := by
  cases hs with
  | ready h => exact h.header
  | headed _ hi => rw [hi.run] at ht; exact absurd rfl ht
  | chained hh => exact hh

/-- The declaration of a constant outside of all blocks settles it, and stores it last. -/
theorem Ends.constant {awaited : Option Token} {l : Literal} {rest : List Token}
    (he : d.Ends c d' c') (hs : d.Shape awaited) (hb : d.blocks = [])
    (ht : d.run.tokens = .keyword .const :: .identifier l :: rest) :
    d'.After l.text d'.code ∧ ∃ code, d'.code = code ++ [.op (.storeName l.text)] := by
  have hh : d.header = none := hs.header_of_tokens (by simp [ht])
  obtain ⟨-, -, hend⟩ := he
  unfold endStatement at hend
  split at hend
  · cases hend
  next ho =>
  split at hend
  · cases hend
  next hr =>
  have ho : d.outer = [] := by simpa using ho
  have hr : d.run.rounds = [] := by simpa using hr
  rw [ht, if_neg (by simp)] at hend
  cases hst : d.clear.statement c'.line (.keyword .const :: .identifier l :: rest) with
  | error e => rw [hst] at hend; cases hend
  | ok r =>
    rw [hst] at hend
    obtain ⟨type, value, names, hn, rfl⟩ := declaration_ensures r hst
    have hset : d.clear.setNames names = { d.clear with globals := names } :=
      setNames_of_none (by simp [clear, hb]) names
    have hd' : d' = { d.clear with
        blocks := [], globals := names, code := d.code ++ (value ++ [.op (.storeName l.text)]) } := by
      have hem : Desk.emit { d.clear with globals := names } (value ++ [.op (.storeName l.text)]) =
          .ok d' := by rw [← hset]; exact hend
      simp only [Desk.emit, clear, hb] at hem
      exact (Except.ok.inj hem).symm
    obtain ⟨-, hget⟩ := Names.of_declare hn
    subst hd'
    refine ⟨⟨⟨⟨_, by rw [hget, if_pos rfl], rfl⟩, ⟨?_, ?_, ?_⟩⟩, ⟨⟨[], ?_, fun _ => ?_⟩, ?_⟩,
      ⟨[], ?_, ?_⟩⟩, ⟨d.code ++ value, ?_⟩⟩
    · trivial
    · simp [clear, hh]
    · simp [clear, hr, ho]
    · simp
    · simp
    · trivial
    · simp
    · simp
    · simp

end Desk

/-! ## Assembled code -/

section
variable {x : String} {base code : List Asm} {assembled : List Instruction}

/-- The code behind a part that it does not jump back to. -/
theorem assemble_after (h : Asm.assemble (base ++ code ++ FunctionBlock.returnNull) = .ok assembled)
    (hs : .op (.storeName x) ∉ code) (ht : ∀ l ∈ Asm.targets code, l ∈ Asm.marks code) {n : Nat}
    {i : Instruction} (hn : (Asm.instrs base).length ≤ n) (hi : assembled[n]? = some i) :
    i ≠ .storeName x ∧ ∀ t ∈ i.target?, (Asm.instrs base).length ≤ t := by
  rw [List.append_assoc] at h
  constructor
  · rintro rfl
    rw [Asm.assemble_append h, List.getElem?_append_right (by simpa using hn)] at hi
    have hm := Asm.mem_of_storeName (List.mem_of_getElem? hi)
    simp [hs, FunctionBlock.returnNull] at hm
  · refine Asm.le_target_of_assemble h (fun l hl => ?_) hn hi
    rw [Asm.targets_append, returnNull_targets, List.append_nil] at hl
    rw [Asm.marks_append, List.mem_append]
    exact .inl (ht l hl)

end

/-! ## Runs -/

open Machine

section
variable {p : Program} {m m' : Machine}

/-- Only the last frame runs the module. -/
abbrev Machine.Rooted (m : Machine) : Prop :=
  Layered (fun _ => True) (fun _ => True) m.frames

theorem rooted_start : start.Rooted :=
  .module rfl trivial

theorem Machine.Shift.rooted (hm : Shift p m m') (h : m.Rooted) : m'.Rooted :=
  hm.layered h (fun _ _ _ _ => trivial) (fun _ _ _ => trivial) fun _ _ _ _ => trivial

/-- Frames of which the module has come to an offset, and binds a name to a value. -/
abbrev Machine.Keeps (k : Nat) (x : String) (v : Value) (m : Machine) : Prop :=
  Layered (fun f => k ≤ f.ip ∧ f.locals.get? x = some v) (fun _ => True) m.frames

/-- **Code that neither stores a name nor jumps back keeps what the name is bound to.** -/
theorem Machine.Shift.keeps {k : Nat} {x : String} {v : Value} (hm : Shift p m m')
    (hcode : ∀ {n i}, k ≤ n → p.code[n]? = some i → i ≠ .storeName x ∧ ∀ t ∈ i.target?, k ≤ t)
    (h : m.Keeps k x v) : m'.Keeps k x v := by
  refine hm.layered h (fun hc hk f hf => ?_) (fun _ _ _ => trivial) fun _ _ _ _ => trivial
  cases hf with
  | next => exact ⟨Nat.le_succ_of_le hk.1, hk.2⟩
  | @store y w hi =>
    have hne : x ≠ y := by
      rintro rfl
      exact (hcode hk.1 (hi.of_module hc)).1 rfl
    exact ⟨Nat.le_succ_of_le hk.1, by rw [Env.get?_set_of_ne _ hne]; exact hk.2⟩
  | jump hi ht => exact ⟨(hcode hk.1 (hi.of_module hc)).2 _ ht, hk.2⟩

end

/-- **A constant of the module keeps its value.**  Once the declaration of a constant outside of
    all blocks has run, its name stays bound to the value that was stored, however the run goes on:
    if the entry point does not declare the name again, and no function of that name is defined
    later on in the module or its entry point.  In 32 bits this is about programs with fewer than
    `2 ^ 32` labels, instructions and chunks. -/
theorem runFor_constant {text : String} {p : Program} (h : compile text = .ok p)
    {d d' : Desk} {c c' : Cursor} {l : Literal} {rest : List Token} (hd : Passes text d c)
    (hb : d.blocks = []) (ht : d.run.tokens = .keyword .const :: .identifier l :: rest)
    (he : d.Ends c d' c') (hx : ∀ d₂ c₂, Desk.Leads d' c' d₂ c₂ → ¬ d₂.Rebinds l.text)
    {n : Nat} {m m' : Machine} (hrun : runFor p n start = .ok none m)
    (hc : m.current.chunk = none) (hip : m.current.ip + 1 = (Asm.instrs d'.code).length)
    (hstep : step p m = .ok none m') :
    ∃ v, m.stack.head? = some v ∧ ∀ j, (left (runFor p j m')).global? l.text = some v := by
  obtain ⟨D, cD, cE, hD, hend, hf⟩ := exists_of_compile h
  obtain ⟨-, -, -, hcode⟩ := Desk.of_finish hf
  obtain ⟨⟨awaited, hs, -⟩, hsound⟩ := hd.sound
  obtain ⟨hafter, code₀, hlast⟩ := he.constant hs hb ht
  -- from the declaration on, the course of the source keeps the constant settled
  have hd' : Passes text d' c' := Desk.Leads.take hd he.takes
  obtain ⟨-, -, hD'⟩ := Desk.Leads.keeps (P := fun d _ => d.After l.text d'.code)
    (hd'.to_end hD hend) hd'.sound.1 hd'.sound.2 hafter fun hl _ hm hs hsnd ha =>
      hm.after hs hsnd (Passes.regular (hd'.trans hl)).pending (hx _ _ hl) ha
  obtain ⟨code, hDcode, hclosed⟩ := hD'.closed
  obtain ⟨code', hDcode', hunstored⟩ := hD'.unstored.code
  obtain rfl : code = code' := List.append_cancel_left (hDcode.symm.trans hDcode')
  rw [hDcode] at hcode
  -- the step executes the store of the declaration
  have hstore : p.code[m.current.ip]? = some (.storeName l.text) := by
    obtain ⟨-, -, -, hpc⟩ := Asm.assemble_eq_ok_iff.1 hcode
    have hlen : m.current.ip = (Asm.instrs code₀).length := by
      rw [hlast, Asm.instrs_append, List.length_append] at hip
      exact Nat.succ.inj hip
    rw [hpc, List.getElem?_map, hlast, hlen]
    simp [Instr.relabel]
  have hroot : (left (runFor p n start)).Rooted :=
    runFor_keeps (fun hr hs => hs.rooted hr) rooted_start n
  rw [hrun] at hroot
  have hcallers : m.callers = [] := (Layered.eq_nil hroot hc).1
  have hcode_eq : m.current.code p = .ok p.code := by simp only [Frame.code, hc]
  rw [step_fetch hcode_eq hstore] at hstep
  cases hstack : m.stack with
  | nil =>
    rw [execute, bind_error (pop_nil (m := m.fetched) hstack)] at hstep
    cases hstep
  | cons v stack =>
    rw [execute_storeName (m := m.fetched) hstack] at hstep
    cases hstep
    have hkeep : ∀ {m₁ m₂ : Machine}, m₁.Keeps (Asm.instrs d'.code).length l.text v →
        Shift p m₁ m₂ → m₂.Keeps (Asm.instrs d'.code).length l.text v := fun hk hs =>
      hs.keeps (assemble_after hcode (hunstored (by simp [Exposed])) hclosed) hk
    refine ⟨v, rfl, fun j => (Layered.moduleFrame (runFor_keeps hkeep ?_ j)).2⟩
    show Layered _ _ (_ :: m.callers)
    rw [hcallers]
    exact .module hc ⟨Nat.le_of_eq hip.symm, Env.get?_set_self _ _ _⟩

/-! ## Checking -/

/-- The name of a constant that is being declared. -/
def constantName? : List Token → Option String
  | .keyword .const :: .identifier l :: _ => some l.text
  | _ => none

theorem constantName?_eq_some {tokens : List Token} {x : String}
    (h : constantName? tokens = some x) :
    ∃ l rest, tokens = .keyword .const :: .identifier l :: rest ∧ l.text = x := by
  unfold constantName? at h
  split at h
  · next l rest => exact ⟨l, rest, rfl, Option.some.inj h⟩
  · cases h

/-- A semicolon comes next. -/
def Cursor.atSemicolon (c : Cursor) : Bool :=
  match c.next.1 with
  | .ok (.token t) => t = .punctuation .semicolon
  | _ => false

theorem Cursor.next_of_atSemicolon {c : Cursor} (h : c.atSemicolon = true) :
    c.next = (.ok (.token (.punctuation .semicolon)), c.next.2) := by
  refine Prod.ext ?_ rfl
  unfold atSemicolon at h
  split at h
  · next t ht => rw [ht, of_decide_eq_true h]
  · cases h

/-- The declaration of a constant ends here, outside of all blocks, with `k` instructions of the
    module; nothing rebinds its name in less than `n` further steps, with which the source ends. -/
def Desk.settles (x : String) (k n : Nat) (d : Desk) (c : Cursor) : Bool :=
  constantName? d.run.tokens = some x && d.blocks.isEmpty && !d.nesting.inString &&
    c.atSemicolon &&
    (d.endStatement c.next.2.line).toOption.any fun d' =>
      (Asm.instrs d'.code).length = k && throughout (fun d => !d.Rebinds x) n d' c.next.2

theorem Desk.of_settles {x : String} {k n : Nat} {d : Desk} {c : Cursor}
    (h : d.settles x k n c = true) : ∃ l rest d' c', d.blocks = [] ∧
      d.run.tokens = .keyword .const :: .identifier l :: rest ∧ l.text = x ∧ d.Ends c d' c' ∧
      (Asm.instrs d'.code).length = k ∧ ∀ d₂ c₂, Desk.Leads d' c' d₂ c₂ → ¬ d₂.Rebinds x := by
  simp only [settles, Bool.and_eq_true, decide_eq_true_eq, List.isEmpty_iff, Bool.not_eq_true',
    Option.any_eq_true] at h
  obtain ⟨⟨⟨⟨hn, hb⟩, hq⟩, hnext⟩, d', hd', hk, hx⟩ := h
  obtain ⟨l, rest, ht, hl⟩ := constantName?_eq_some hn
  exact ⟨l, rest, d', c.next.2, hb, ht, hl,
    ⟨hq, c.next_of_atSemicolon hnext, toOption_eq_some_iff.1 hd'⟩, hk,
    fun d₂ c₂ hl => by simpa using hl.of_throughout hx⟩

/-- A constant of the module, and a function with a parameter of that name, which it changes. -/
def keptText : String := "konstanta x=1;fungsi f(x)\x7bx=3;\x7dutama()\x7bf(2);\x7d"

/-- The program of that text. -/
def keptProgram : Program where
  code := [.loadConst (.int 1), .storeName "x", .loadConst (.chunk 0), .makeFunction "f",
    .storeName "f", .loadName "__name__", .loadConst (.string "__main__"), .compare .eq,
    .jumpIfFalse 13, .loadName "f", .loadConst (.int 2), .call 1, .pop, .loadConst .null, .ret]
  chunks := [⟨"f", [⟨"x", .any⟩],
    [.storeName "x", .loadConst (.int 3), .storeName "x", .loadConst .null, .ret], 1⟩]

/-- A constant that nothing rebinds, though a frame above the module stores its name. -/
theorem runFor_kept : compile keptText = .ok keptProgram ∧ ∃ d c d' c' l rest m m',
    Passes keptText d c ∧ d.blocks = [] ∧
      d.run.tokens = .keyword .const :: .identifier l :: rest ∧ l.text = "x" ∧ d.Ends c d' c' ∧
      (∀ d₂ c₂, Desk.Leads d' c' d₂ c₂ → ¬ d₂.Rebinds l.text) ∧
      runFor keptProgram 1 start = .ok none m ∧ m.current.chunk = none ∧
      m.current.ip + 1 = (Asm.instrs d'.code).length ∧ step keptProgram m = .ok none m' ∧
      (left (runFor keptProgram 13 m')).current.locals.get? "x" = some (.int 3) ∧
      ∀ j, (left (runFor keptProgram j m')).global? l.text = some (.int 1) := by
  have hc : compile keptText = .ok keptProgram := by decide +kernel
  have hd : ((Desk.advance? 4 {} (.start (withEndMark keptText))).any fun r =>
      r.1.settles "x" 2 30 r.2) = true := by decide +kernel
  obtain ⟨⟨d, c⟩, hadv, hs⟩ := (Option.any_eq_true _ _).1 hd
  obtain ⟨l, rest, d', c', hb, ht, hl, he, hk, hx⟩ := Desk.of_settles hs
  rw [← hl] at hx
  have hp : Passes keptText d c := .of_advance? hadv
  have hrun : runFor keptProgram 1 start = .ok none (left (runFor keptProgram 1 start)) := rfl
  have hstep : step keptProgram (left (runFor keptProgram 1 start)) =
      .ok none (left (runFor keptProgram 2 start)) := rfl
  have hip : (left (runFor keptProgram 1 start)).current.ip + 1 = (Asm.instrs d'.code).length := by
    rw [hk]
    rfl
  have hown : (left (runFor keptProgram 13 (left (runFor keptProgram 2 start)))).current.locals.get?
      "x" = some (.int 3) := by decide +kernel
  obtain ⟨v, hv, hj⟩ := runFor_constant hc hp hb ht he hx hrun rfl hip hstep
  cases hv
  exact ⟨hc, d, c, d', c', l, rest, _, _, hp, hb, ht, hl, he, hx, hrun, rfl, hip, hstep, hown, hj⟩

/-! ## Constants that change -/

/-- A name of the module has one value after `i` steps of a program and another after `j`. -/
def changes (text x : String) (i : Nat) (v : Value) (j : Nat) (w : Value) : Bool :=
  (compile text).toOption.any fun p => (left (runFor p i start)).global? x = some v &&
    (left (runFor p j start)).global? x = some w

theorem exists_of_changes {text x : String} {i j : Nat} {v w : Value}
    (h : changes text x i v j w = true) : ∃ p, compile text = .ok p ∧
      (left (runFor p i start)).global? x = some v ∧
        (left (runFor p j start)).global? x = some w := by
  obtain ⟨p, hp, hx⟩ := (Option.any_eq_true _ _).1 h
  rw [Bool.and_eq_true, decide_eq_true_eq, decide_eq_true_eq] at hx
  exact ⟨p, toOption_eq_some_iff.1 hp, hx⟩

/-- A constant of the module whose name the entry point declares again. -/
def redeclaredText : String := "konstanta x=1;utama()\x7bvariabel x=2;\x7d"

/-- **A constant of the module can change**: the entry point runs in the same frame. -/
theorem runFor_redeclared : ∃ p, compile redeclaredText = .ok p ∧
    (left (runFor p 2 start)).global? "x" = some (.int 1) ∧
      (left (runFor p 8 start)).global? "x" = some (.int 2) :=
  exists_of_changes (by decide +kernel)

/-- A constant of the module, and a function of the same name. -/
def redefinedText : String := "konstanta f=1;fungsi f()\x7b\x7dutama()\x7b\x7d"

/-- The definition of a function binds its name in the module, whatever it was bound to. -/
theorem runFor_redefined : ∃ p, compile redefinedText = .ok p ∧
    (left (runFor p 2 start)).global? "f" = some (.int 1) ∧
      (left (runFor p 5 start)).global? "f" = some (.function 0 "f") :=
  exists_of_changes (by decide +kernel)

end Naskah
